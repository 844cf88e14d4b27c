import Mathlib.Algebra.Ring.Parity
import Mathlib.Data.List.DropRight
import StackScript.Code.Assembly
import StackScript.Lowering.Expr

namespace StackScript

namespace Text.Quoted

def meaning? : Char → Option Char
  | '\\' => some '\\'
  | '"' => some '"'
  | 'n' => some '\n'
  | 'r' => some '\r'
  | 't' => some '\t'
  | _ => none

/-- Undoes the escapes. There is no result if a character stands for itself that should not, or if a
letter behind a backslash stands for nothing. -/
def decode : List Char → Option (List Char)
  | [] => some []
  | '\\' :: l :: rest => do return (← meaning? l) :: (← decode rest)
  | c :: rest => if letter? c = none then (decode rest).map (c :: ·) else none

/-- What stands before the first double quote that no backslash takes, and what stands behind it. -/
def untilQuote : List Char → Option (List Char × List Char)
  | [] => none
  | '"' :: rest => some ([], rest)
  | '\\' :: c :: rest => (untilQuote rest).map fun (inner, rest) => ('\\' :: c :: inner, rest)
  | c :: rest => (untilQuote rest).map fun (inner, rest) => (c :: inner, rest)

def backslashes (text : List Char) : Nat := (text.rtakeWhile (· == '\\')).length

theorem meaning?_eq_some_iff {c l : Char} : meaning? l = some c ↔ letter? c = some l := by
  constructor
  · intro h
    rw [meaning?.eq_def] at h
    split at h <;> cases h <;> rfl
  · intro h
    rw [letter?.eq_def] at h
    split at h <;> cases h <;> rfl

theorem ne_of_letter?_eq_none {c : Char} (h : letter? c = none) :
    c ≠ '\\' ∧ c ≠ '"' ∧ c ≠ '\n' ∧ c ≠ '\r' ∧ c ≠ '\t' := by
  refine ⟨?_, ?_, ?_, ?_, ?_⟩ <;> rintro rfl <;> cases h

theorem ne_of_letter?_eq_some {c l : Char} (h : letter? c = some l) :
    l ≠ '\n' ∧ l ≠ '\r' ∧ l ≠ '\t' := by
  rw [letter?.eq_def] at h
  split at h <;> cases h <;> decide

theorem escape_cases (c : Char) :
    (∃ l, letter? c = some l ∧ escape c = ['\\', l]) ∨ letter? c = none ∧ escape c = [c] := by
  rw [escape]
  cases h : letter? c with
  | some l => exact .inl ⟨l, rfl, rfl⟩
  | none => exact .inr ⟨rfl, rfl⟩

@[simp] theorem encode_nil : encode [] = [] := rfl

@[simp] theorem encode_cons (c : Char) (s : List Char) : encode (c :: s) = escape c ++ encode s :=
  rfl

theorem encode_concat (s : List Char) (c : Char) : encode (s ++ [c]) = encode s ++ escape c := by
  simp [encode]

theorem toList_quote (s : String) : (quote s).toList = '"' :: encode s.toList ++ ['"'] :=
  String.toList_ofList

theorem decode_cons {c : Char} (h : letter? c = none) (rest : List Char) :
    decode (c :: rest) = (decode rest).map (c :: ·) := by
  obtain ⟨hc, -⟩ := ne_of_letter?_eq_none h
  rw [decode.eq_3 _ _ (by simp [hc]), if_pos h]

theorem decode_encode (s : List Char) : decode (encode s) = some s := by
  induction s with
  | nil => rfl
  | cons c s ih =>
      rw [encode_cons]
      obtain ⟨l, hl, he⟩ | ⟨hl, he⟩ := escape_cases c
      · simp [he, decode, meaning?_eq_some_iff.mpr hl, ih]
      · simp [he, decode_cons hl, ih]

theorem eq_encode_of_decode {t s : List Char} (h : decode t = some s) : t = encode s := by
  fun_induction decode t generalizing s with
  | case1 =>
      cases h
      rfl
  | case2 l rest ih =>
      simp only [bind, Option.bind_eq_some_iff, pure, Option.some.injEq] at h
      obtain ⟨c, hc, u, hu, rfl⟩ := h
      rw [encode_cons, escape, meaning?_eq_some_iff.mp hc, ih hu]
      rfl
  | case3 c rest _ hc ih =>
      obtain ⟨u, hu, rfl⟩ := Option.map_eq_some_iff.mp h
      rw [encode_cons, escape, hc, ih hu]
      rfl
  | case4 => cases h

theorem encode_injective : Function.Injective encode := by
  intro s t h
  have hs := decode_encode s
  rw [h, decode_encode] at hs
  exact (Option.some.inj hs).symm

theorem quote_injective : Function.Injective quote := by
  intro s t h
  have hl := congrArg String.toList h
  rw [toList_quote, toList_quote] at hl
  obtain ⟨hencode, -⟩ := List.append_inj' (List.cons.inj hl).2 rfl
  exact String.toList_inj.mp (encode_injective hencode)

theorem notMem_encode (s : List Char) : '\n' ∉ encode s ∧ '\r' ∉ encode s ∧ '\t' ∉ encode s := by
  induction s with
  | nil => simp
  | cons c s ih =>
      obtain ⟨hn, hr, ht⟩ := ih
      rw [encode_cons]
      obtain ⟨l, hl, he⟩ | ⟨hl, he⟩ := escape_cases c
      · obtain ⟨hln, hlr, hlt⟩ := ne_of_letter?_eq_some hl
        simp [he, hn, hr, ht, hln.symm, hlr.symm, hlt.symm]
      · obtain ⟨-, -, hcn, hcr, hct⟩ := ne_of_letter?_eq_none hl
        simp [he, hn, hr, ht, hcn.symm, hcr.symm, hct.symm]

theorem backslashes_concat (text : List Char) :
    backslashes (text ++ ['\\']) = backslashes text + 1 := by
  rw [backslashes, List.rtakeWhile_concat_pos _ _ _ (by decide), List.length_append]
  rfl

theorem backslashes_concat_of_ne {c : Char} (hc : c ≠ '\\') (text : List Char) :
    backslashes (text ++ [c]) = 0 := by
  rw [backslashes, List.rtakeWhile_concat_neg _ _ _ (by simpa using hc)]
  rfl

theorem backslashes_quote (text : List Char) : backslashes ('"' :: text) = backslashes text := by
  induction text using List.reverseRecOn with
  | nil => rfl
  | append_singleton text c ih =>
      rw [← List.cons_append]
      by_cases hc : c = '\\'
      · rw [hc, backslashes_concat, backslashes_concat, ih]
      · rw [backslashes_concat_of_ne hc, backslashes_concat_of_ne hc]

/-- A letter that is not a backslash ends the run of backslashes, and one that is makes it longer
by two. -/
theorem even_backslashes_escape {text : List Char} (ht : Even (backslashes text)) (c : Char) :
    Even (backslashes (text ++ escape c)) := by
  obtain ⟨l, -, he⟩ | ⟨hl, he⟩ := escape_cases c
  · rw [he, List.append_cons]
    by_cases hl : l = '\\'
    · rw [hl, backslashes_concat, backslashes_concat]
      exact ht.add even_two
    · rw [backslashes_concat_of_ne hl]
      exact Even.zero
  · rw [he, backslashes_concat_of_ne (ne_of_letter?_eq_none hl).1]
    exact Even.zero

theorem even_backslashes_encode (s : List Char) : Even (backslashes (encode s)) := by
  induction s using List.reverseRecOn with
  | nil => exact Even.zero
  | append_singleton s c ih =>
      rw [encode_concat]
      exact even_backslashes_escape ih c

/-- A double quote inside of a literal is the letter of a piece. -/
theorem split_of_encode {s front back : List Char} (h : encode s = front ++ '"' :: back) :
    ∃ s₁ s₂, s = s₁ ++ '"' :: s₂ ∧ front = encode s₁ ++ ['\\'] ∧ back = encode s₂ := by
  induction s generalizing front with
  | nil => simp at h
  | cons c s ih =>
      rw [encode_cons] at h
      obtain ⟨l, hl, he⟩ | ⟨hl, he⟩ := escape_cases c
      · rw [he] at h
        rcases front with _ | ⟨a, _ | ⟨b, front⟩⟩
        · cases h
        · -- the double quote is the letter
          simp only [List.cons_append, List.nil_append, List.cons.injEq] at h
          obtain ⟨rfl, rfl, rfl⟩ := h
          obtain rfl : '"' = c := Option.some.inj (meaning?_eq_some_iff.mpr hl)
          exact ⟨[], s, rfl, rfl, rfl⟩
        · simp only [List.cons_append, List.nil_append, List.cons.injEq] at h
          obtain ⟨rfl, rfl, h⟩ := h
          obtain ⟨s₁, s₂, rfl, rfl, rfl⟩ := ih h
          exact ⟨c :: s₁, s₂, rfl, by rw [encode_cons, he]; rfl, rfl⟩
      · rw [he] at h
        cases front with
        | nil => exact absurd (List.cons.inj h).1 (ne_of_letter?_eq_none hl).2.1
        | cons a front =>
            simp only [List.cons_append, List.nil_append, List.cons.injEq] at h
            obtain ⟨rfl, h⟩ := h
            obtain ⟨s₁, s₂, rfl, rfl, rfl⟩ := ih h
            exact ⟨c :: s₁, s₂, rfl, by rw [encode_cons, he]; rfl, rfl⟩

theorem odd_backslashes {s front back : List Char} (h : encode s = front ++ '"' :: back) :
    Odd (backslashes front) := by
  obtain ⟨s₁, _, -, rfl, -⟩ := split_of_encode h
  rw [backslashes_concat]
  exact (even_backslashes_encode s₁).add_one

theorem untilQuote_cons {c : Char} (h : letter? c = none) (rest : List Char) :
    untilQuote (c :: rest) = (untilQuote rest).map fun (inner, rest) => (c :: inner, rest) := by
  obtain ⟨hslash, hquote, -⟩ := ne_of_letter?_eq_none h
  rw [untilQuote.eq_4 _ _ (by simpa using hquote) (by simp [hslash])]

theorem untilQuote_encode (s rest : List Char) :
    untilQuote (encode s ++ '"' :: rest) = some (encode s, rest) := by
  induction s with
  | nil => rfl
  | cons c s ih =>
      rw [encode_cons]
      obtain ⟨l, -, he⟩ | ⟨hl, he⟩ := escape_cases c
      · simp [he, untilQuote, ih]
      · simp [he, untilQuote_cons hl, ih]

end Text.Quoted

open Text Quoted

/-- A literal begins and ends with a double quote, and has neither line breaks nor tabs. Inside of
it a double quote has an odd number of backslashes in front of it, and the one at its end an even
number. What is inside can be read back, and is the only text that reads back as the string. So
different strings have different literals, a literal ends at the first double quote that no
backslash takes, whatever follows, and the declaration of a variable with this first value has no
other line breaks than the names in it and the one at its end. -/
theorem quote_reversible (s : String) :
    ∃ inner : List Char, (quote s).toList = '"' :: inner ++ ['"'] ∧
      (∀ c ∈ (quote s).toList, c ≠ '\n' ∧ c ≠ '\r' ∧ c ≠ '\t') ∧
      (∀ front back, inner = front ++ '"' :: back → Odd (backslashes ('"' :: front))) ∧
      Even (backslashes ('"' :: inner)) ∧
      (∀ t, decode t = some s.toList ↔ t = inner) ∧
      (∀ s', quote s' = quote s ↔ s' = s) ∧
      (∀ rest, untilQuote (inner ++ '"' :: rest) = some (inner, rest)) ∧
      ∀ p labels name machineType, ∃ init line,
        (Expr.str p s).literal? = .ok (some (.string, init)) ∧
        Assembly.varLine labels ⟨name, machineType, init⟩ = .ok line ∧
        line = "        " ++ name ++ ": %" ++ machineType ++ ", " ++ quote s ++ "\n" ∧
        line.toList.count '\n' = name.toList.count '\n' + machineType.toList.count '\n' + 1 := by
  obtain ⟨hn, hr, ht⟩ := notMem_encode s.toList
  refine ⟨encode s.toList, toList_quote s, ?_, ?_, ?_, ?_, ?_, untilQuote_encode _, ?_⟩
  · intro c hc
    rw [toList_quote] at hc
    refine ⟨?_, ?_, ?_⟩ <;> rintro rfl <;> simp [hn, hr, ht] at hc
  · intro front back h
    rw [backslashes_quote]
    exact odd_backslashes h
  · rw [backslashes_quote]
    exact even_backslashes_encode _
  · intro t
    constructor
    · exact eq_encode_of_decode
    · rintro rfl
      exact decode_encode _
  · exact fun s' => quote_injective.eq_iff
  · intro p labels name machineType
    refine ⟨_, _, rfl, rfl, rfl, ?_⟩
    have hcount : (encode s.toList).count '\n' = 0 := List.count_eq_zero_of_not_mem hn
    simp [toList_quote, hcount, Nat.add_assoc]

end StackScript
