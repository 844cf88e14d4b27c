import StackScript.Json.Tree
import StackScript.Proofs.Json.Scanning

namespace StackScript.Json

/-- The text is the value, with any blanks between its tokens and any spelling of them. -/
def Spelled (v : Json) (s : String) : Prop := Token.SpelledAll v.tokens s.toList

mutual

theorem separated_tokens : ∀ (v : Json) {rest : List Token}, Token.Separated rest →
    rest.head?.all Token.isSeparator → Token.Separated (v.tokens ++ rest)
  | .null, _, hr, _ | .bool _, _, hr, _ | .str _, _, hr, _ => .cons rfl hr
  | .num _, _, hr, hs => ⟨fun _ => hs, hr⟩
  | .arr [], _, hr, _ | .obj [], _, hr, _ => .cons rfl (.cons rfl hr)
  | .arr (v :: vs), _, hr, _ => by
      have h := separated_tokens v (separated_itemTokens vs hr) (by cases vs <;> rfl)
      rw [tokens, List.cons_append, List.append_assoc]
      exact .cons rfl h
  | .obj ((k, v) :: ms), _, hr, _ => by
      have h := separated_tokens v (separated_memberTokens ms hr) (by cases ms <;> rfl)
      rw [tokens, List.cons_append, List.cons_append, List.cons_append, List.append_assoc]
      exact .cons rfl (.cons rfl (.cons rfl h))

theorem separated_itemTokens : ∀ (vs : List Json) {rest : List Token}, Token.Separated rest →
    Token.Separated (itemTokens vs ++ rest)
  | [], _, hr => .cons rfl hr
  | v :: vs, _, hr => by
      have h := separated_tokens v (separated_itemTokens vs hr) (by cases vs <;> rfl)
      rw [itemTokens, List.cons_append, List.append_assoc]
      exact .cons rfl h

theorem separated_memberTokens :
    ∀ (ms : List (Text × Json)) {rest : List Token}, Token.Separated rest →
    Token.Separated (memberTokens ms ++ rest)
  | [], _, hr => .cons rfl hr
  | (k, v) :: ms, _, hr => by
      have h := separated_tokens v (separated_memberTokens ms hr) (by cases ms <;> rfl)
      rw [memberTokens, List.cons_append, List.cons_append, List.cons_append, List.append_assoc]
      exact .cons rfl (.cons rfl (.cons rfl h))

end

namespace Cursor

theorem run_firstItem (v : Json) (frames : List Frame) (rest : List Token) :
    run (.firstItem frames) (v.tokens ++ rest) =
    run (.value (.array [] :: frames)) (v.tokens ++ rest) := by
  cases v with
  | arr vs => cases vs <;> rfl
  | obj ms => cases ms <;> rfl
  | _ => rfl

mutual

theorem run_tokens : ∀ (v : Json) (frames : List Frame) (rest : List Token),
    run (.value frames) (v.tokens ++ rest) = run (deliver v frames) rest
  | .null, _, _ | .bool _, _, _ | .num _, _, _ | .str _, _, _ | .arr [], _, _ | .obj [], _, _ => rfl
  | .arr (v :: vs), frames, rest => by
      rw [tokens, List.cons_append, List.append_assoc]
      change run (.firstItem frames) _ = _
      rw [run_firstItem, run_tokens v, deliver, run_itemTokens vs]
      rfl
  | .obj ((k, v) :: ms), frames, rest => by
      rw [tokens, List.cons_append, List.cons_append, List.cons_append, List.append_assoc]
      change run (.value (.member [] k :: frames)) _ = _
      rw [run_tokens v, deliver, run_memberTokens ms]
      rfl

theorem run_itemTokens : ∀ (vs before : List Json) (frames : List Frame) (rest : List Token),
    run (.afterItem before frames) (itemTokens vs ++ rest) =
    run (deliver (.arr (before.reverse ++ vs)) frames) rest
  | [], _, _, _ => by
      rw [List.append_nil]
      rfl
  | v :: vs, before, frames, rest => by
      rw [itemTokens, List.cons_append, List.append_assoc]
      change run (.value (.array before :: frames)) _ = _
      rw [run_tokens v, deliver, run_itemTokens vs, List.reverse_cons, List.append_assoc]
      rfl

theorem run_memberTokens :
    ∀ (ms before : List (Text × Json)) (frames : List Frame) (rest : List Token),
    run (.afterMember before frames) (memberTokens ms ++ rest) =
      run (deliver (.obj (before.reverse ++ ms)) frames) rest
  | [], _, _, _ => by
      rw [List.append_nil]
      rfl
  | (k, v) :: ms, before, frames, rest => by
      rw [memberTokens, List.cons_append, List.cons_append, List.cons_append, List.append_assoc]
      change run (.value (.member before k :: frames)) _ = _
      rw [run_tokens v, deliver, run_memberTokens ms, List.reverse_cons, List.append_assoc]
      rfl

end

end Cursor

theorem ofTokens?_tokens (v : Json) : ofTokens? v.tokens = some v := by
  have h := Cursor.run_tokens v [] []
  rw [List.append_nil] at h
  rw [ofTokens?, h]
  rfl

theorem parse?_of_spelled {v : Json} {s : String} (h : v.Spelled s) : parse? s = some v := by
  have hs := @separated_tokens v [] trivial rfl
  rw [List.append_nil] at hs
  rw [parse?, Token.scan, Token.scanFrom_all h hs]
  exact ofTokens?_tokens v

section Render

def Token.isDecimal : Token → Bool
  | .num n => n.fraction.all (· < 10)
  | _ => true

theorem spellsChar_escape (c : Char) : SpellsChar c (escape c) := by
  rw [escape]
  split_ifs with hq hb hc
  · subst hq
    exact .letter rfl
  · subst hb
    exact .letter rfl
  · have hlen : ∀ n < 32, (Nat.toDigits 16 n).length ≤ 4 := by decide
    have hc : c.toNat < 32 := hc
    have hle := hlen c.toNat hc
    refine .unit ⟨?_, ?_, StackScript.Text.hexValue_hex 4 c.toNat⟩
    · rw [StackScript.Text.toList_hex, List.length_append, List.length_replicate]
      omega
    · intro d hd
      obtain ⟨n, hn, rfl⟩ := StackScript.Text.exists_digit_of_mem_hex hd
      rw [StackScript.Text.hexDigit?_digitChar n hn]
      rfl
  · exact .plain (Char.not_lt.mp hc) hq hb

theorem spellsChars_escape (cs : List Char) : SpellsChars cs (cs.flatMap escape) := by
  induction cs with
  | nil => exact .nil
  | cons c cs ih => exact .cons (spellsChar_escape c) ih

theorem exists_digits (n : Nat) :
    ∃ ds, ds ≠ [] ∧ (∀ d ∈ ds, d < 10) ∧ ds.map Nat.digitChar = Nat.toDigits 10 n ∧
    ofDigits ds = n := by
  induction n using Nat.strongRecOn with
  | ind n ih =>
      rw [Nat.toDigits_eq_if (by omega)]
      split
      case isTrue hn => exact ⟨[n], by simp, by simpa using hn, rfl, by simp [ofDigits]⟩
      case isFalse hn =>
        obtain ⟨ds, hne, hd, hds, hv⟩ := ih (n / 10) (by omega)
        refine ⟨ds ++ [n % 10], by simp, ?_, by simp [hds], ?_⟩
        · intro d h
          obtain h | h := List.mem_append.mp h
          · exact hd d h
          · rw [List.mem_singleton.mp h]
            omega
        · rw [ofDigits, List.foldl_append, ← ofDigits, hv]
          simp only [List.foldl_cons, List.foldl_nil]
          omega

theorem spellsPower_toString (e : Int) : SpellsPower (some e) ('e' :: (toString e).toList) := by
  obtain ⟨ds, hne, hd, hds, hv⟩ := exists_digits e.natAbs
  cases e with
  | ofNat n =>
      have htext : (toString (Int.ofNat n)).toList = ds.map Nat.digitChar := by
        rw [hds, Int.toString_eq_repr]
        exact String.toList_ofList
      have hval : Int.ofNat n = (ofDigits ds : Int) := by
        rw [hv]
        rfl
      rw [htext, hval]
      exact .some rfl (.inl rfl) hne hd
  | negSucc n =>
      have htext : (toString (Int.negSucc n)).toList = '-' :: ds.map Nat.digitChar := by
        rw [hds, Int.toString_eq_repr]
        exact (String.toList_append).trans (congrArg ('-' :: ·) String.toList_ofList)
      have hval : Int.negSucc n = -(ofDigits ds : Int) := by
        rw [hv]
        rfl
      rw [htext, hval]
      exact .some rfl (.inr (.inr rfl)) hne hd

theorem Number.spelled_written {n : Number} (h : ∀ d ∈ n.fraction, d < 10) :
    n.Spelled n.written := by
  obtain ⟨negative, whole, fraction, exponent⟩ := n
  refine ⟨h, exponent.elim [] fun e => 'e' :: (toString e).toList, ?_, ?_⟩
  · cases exponent with
    | none => exact .none
    | some e => exact spellsPower_toString e
  · cases exponent <;> simp [written]

theorem Token.spelled_written {t : Token} (h : t.isDecimal) : t.Spelled t.written := by
  cases t with
  | num n => exact Number.spelled_written (by simpa [isDecimal] using h)
  | str s =>
      cases s with
      | none => rfl
      | some s => exact ⟨_, spellsChars_escape s.toList, rfl⟩
  | _ => rfl

theorem Token.spelledAll_written {ts : List Token} (h : ∀ t ∈ ts, t.isDecimal) :
    SpelledAll ts (ts.flatMap written) := by
  induction ts with
  | nil => exact .nil (by simp)
  | cons t ts ih =>
      have ht := spelled_written (h t (by simp))
      exact @SpelledAll.cons t ts [] _ _ (by simp) ht (ih fun u hu => h u (by simp [hu]))

def isDecimal (v : Json) : Bool := v.tokens.all Token.isDecimal

theorem spelled_render {v : Json} (h : v.isDecimal) : v.Spelled v.render := by
  rw [Spelled, render, String.toList_ofList]
  exact Token.spelledAll_written (List.all_eq_true.mp h)

theorem isDecimal_arr (vs : List Json) : (arr vs).isDecimal = vs.all isDecimal := by
  have hitems (vs : List Json) : (itemTokens vs).all Token.isDecimal = vs.all isDecimal := by
    induction vs with
    | nil => rfl
    | cons v vs ih =>
        rw [itemTokens, List.all_cons, List.all_append, ih]
        rfl
  cases vs with
  | nil => rfl
  | cons v vs =>
      rw [isDecimal, tokens, List.all_cons, List.all_append, hitems]
      rfl

theorem isDecimal_record (ms : List (String × Json)) :
    (record ms).isDecimal = ms.all fun m => m.2.isDecimal := by
  have hmembers (ms : List (String × Json)) :
      (memberTokens (ms.map fun m => (some m.1, m.2))).all Token.isDecimal = ms.all fun m =>
      m.2.isDecimal := by
    induction ms with
    | nil => rfl
    | cons m ms ih =>
        rw [List.map_cons, memberTokens, List.all_cons, List.all_cons, List.all_cons,
          List.all_append, ih]
        rfl
  cases ms with
  | nil => rfl
  | cons m ms =>
      rw [isDecimal, record, List.map_cons, tokens, List.all_cons, List.all_cons, List.all_cons,
        List.all_append]
      exact congrArg (m.2.isDecimal && ·) (hmembers ms)

end Render

end StackScript.Json
