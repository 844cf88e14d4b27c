import StackScript.Json.Written
import StackScript.Proofs.Text

namespace StackScript.Json

def isBlank (c : Char) : Bool := c == ' ' || c == '\n' || c == '\t' || c == '\r'

def IsUnit (n : Nat) (cs : List Char) : Prop :=
  cs.length = 4 ∧ (∀ c ∈ cs, (Reading.hexDigit? c).isSome) ∧ StackScript.Text.hexValue cs = n

/-- The ways to write a character inside a literal. -/
inductive SpellsChar (c : Char) : List Char → Prop
  | plain (hc : ' ' ≤ c) (hq : c ≠ '"') (hb : c ≠ '\\') : SpellsChar c [c]
  | letter {l : Char} (h : Reading.escaped? l = some c) : SpellsChar c ['\\', l]
  | unit {cs : List Char} (h : IsUnit c.toNat cs) : SpellsChar c ('\\' :: 'u' :: cs)
  | pair {high low : Nat} {cs ds : List Char} (hlow : low < 0x400)
      (hc : c.toNat = 0x10000 + high * 0x400 + low)
      (hcs : IsUnit (0xD800 + high) cs) (hds : IsUnit (0xDC00 + low) ds) :
      SpellsChar c ('\\' :: 'u' :: (cs ++ '\\' :: 'u' :: ds))

inductive SpellsChars : List Char → List Char → Prop
  | nil : SpellsChars [] []
  | cons {c : Char} {cs rest ds : List Char} (hc : SpellsChar c cs) (hr : SpellsChars rest ds) :
      SpellsChars (c :: rest) (cs ++ ds)

def ofDigits (ds : List Nat) : Nat := ds.foldl (fun v d => 10 * v + d) 0

inductive SpellsPower : Option Int → List Char → Prop
  | none : SpellsPower none []
  | some {mark : Char} {sign : List Char} {ds : List Nat} (hm : Reading.isMark mark)
      (hs : sign = [] ∨ sign = ['+'] ∨ sign = ['-']) (hne : ds ≠ []) (hd : ∀ d ∈ ds, d < 10) :
      SpellsPower (some (if sign = ['-'] then -ofDigits ds else ofDigits ds))
      (mark :: (sign ++ ds.map Nat.digitChar))

namespace Number

def Spelled (n : Number) (cs : List Char) : Prop :=
  (∀ d ∈ n.fraction, d < 10) ∧ ∃ power, SpellsPower n.exponent power ∧
    cs = (if n.negative then ['-'] else []) ++ (Nat.toDigits 10 n.whole ++
      ((if n.fraction = [] then [] else '.' :: n.fraction.map Nat.digitChar) ++ power))

end Number

namespace Token

def Spelled : Token → List Char → Prop
  | .num n, cs => n.Spelled cs
  | .str (some s), cs => ∃ body, SpellsChars s.toList body ∧ cs = '"' :: (body ++ ['"'])
  | t, cs => cs = t.written

inductive SpelledAll : List Token → List Char → Prop
  | nil {blanks : List Char} (hb : ∀ c ∈ blanks, isBlank c) : SpelledAll [] blanks
  | cons {t : Token} {ts : List Token} {blanks cs rest : List Char} (hb : ∀ c ∈ blanks, isBlank c)
      (ht : t.Spelled cs) (hr : SpelledAll ts rest) : SpelledAll (t :: ts) (blanks ++ (cs ++ rest))

end Token

namespace Reading

open Token

/-- The characters lead from one reading to another without ending a token. -/
def Leads (r : Reading) (cs : List Char) (r' : Reading) : Prop :=
  ∀ before rest, scanFrom r before (cs ++ rest) = scanFrom r' before rest

namespace Leads

theorem nil (r : Reading) : Leads r [] r := fun _ _ => rfl

theorem one {r r' : Reading} {c : Char} (h : r.step c = some ([], r')) : Leads r [c] r' := by
  intro before rest
  simp [scanFrom, h]

theorem trans {r r' r'' : Reading} {cs ds : List Char} (h : Leads r cs r') (h' : Leads r' ds r'') :
    Leads r (cs ++ ds) r'' := by
  intro before rest
  rw [List.append_assoc, h, h']

theorem cons {r r' r'' : Reading} {c : Char} {cs : List Char} (h : r.step c = some ([], r'))
    (h' : Leads r' cs r'') :
    Leads r (c :: cs) r'' := (one h).trans h'

end Leads

section Literal

variable {s : Spelling}

theorem leads_unit_from {cs : List Char} (hd : ∀ c ∈ cs, (hexDigit? c).isSome) (v : Nat)
    (hne : cs ≠ []) :
    Leads (.unit s cs.length v) cs
      (.text (s.unit (cs.foldl (fun v c => 16 * v + (hexDigit? c).getD 0) v))) := by
  induction cs generalizing v with
  | nil => exact absurd rfl hne
  | cons c cs ih =>
      obtain ⟨d, hc⟩ := Option.isSome_iff_exists.mp (hd c (by simp))
      cases cs with
      | nil => exact .one (by simp [step, hc])
      | cons c' cs =>
          have hstep : (Reading.unit s (c :: c' :: cs).length v).step c =
              some ([], .unit s (c' :: cs).length (16 * v + d)) := by simp [step, hc]
          apply Leads.cons hstep
          simpa [hc] using ih (fun x hx => hd x (by simp [hx])) (16 * v + d) (by simp)

theorem leads_unit {n : Nat} {cs : List Char} (h : IsUnit n cs) :
    Leads (.escape s) ('u' :: cs) (.text (s.unit n)) := by
  obtain ⟨hlen, hd, rfl⟩ := h
  have hl := leads_unit_from (s := s) hd 0 (by rintro rfl; cases hlen)
  rw [hlen] at hl
  exact .cons rfl hl

theorem leads_char {c : Char} {cs : List Char} (h : SpellsChar c cs) (hs : s.high = none) :
    Leads (.text s) cs (.text (s.char c)) := by
  have hchar : s.char c = ⟨c :: s.chars, none, s.sound⟩ := by simp [Spelling.char, hs]
  have hesc : (Reading.text s).step '\\' = some ([], .escape s) := rfl
  cases h with
  | plain hc hq hb => exact .one (by simp [step, hq, hb, hc])
  | @letter l h =>
      have hu : l ≠ 'u' := by
        rintro rfl
        cases h
      exact .cons hesc (.one (by simp [step, hu, h]))
  | unit h =>
      have hn : s.unit c.toNat = s.char c := by
        have hv : c.toNat < 0xD800 ∨ 0xDFFF < c.toNat ∧ c.toNat < 0x110000 := c.valid
        rw [Spelling.unit, hs, if_neg (by omega), if_neg (by omega), Char.ofNat_toNat]
      rw [← hn]
      exact .cons hesc (leads_unit h)
  | @pair high low cs ds hlow hc hcs hds =>
      have hhigh : high < 0x400 := by
        have hv : c.toNat < 0xD800 ∨ 0xDFFF < c.toNat ∧ c.toNat < 0x110000 := c.valid
        omega
      have hfirst : s.unit (0xD800 + high) = ⟨s.chars, some (0xD800 + high), s.sound⟩ := by
        rw [Spelling.unit, hs, if_pos (by omega)]
      have hboth : (s.unit (0xD800 + high)).unit (0xDC00 + low) = s.char c := by
        have hval : 0x10000 + (0xD800 + high - 0xD800) * 0x400 + (0xDC00 + low - 0xDC00) =
          c.toNat := by omega
        rw [hfirst, hchar]
        simp only [Spelling.unit]
        rw [if_pos (by omega), hval, Char.ofNat_toNat]
      rw [← hboth]
      exact .cons hesc ((leads_unit hcs).trans (.cons rfl (leads_unit hds)))

theorem leads_chars {cs body : List Char} (h : SpellsChars cs body) (hs : s.high = none) :
    Leads (.text s) body (.text ⟨cs.reverse ++ s.chars, none, s.sound⟩) := by
  induction h generalizing s with
  | nil =>
      obtain ⟨chars, high, sound⟩ := s
      subst hs
      exact .nil _
  | @cons c cs rest ds hc hr ih =>
      have hchar : s.char c = ⟨c :: s.chars, none, s.sound⟩ := by simp [Spelling.char, hs]
      have hrest := ih (s := s.char c) rfl
      rw [hchar] at hrest
      simp only [List.reverse_cons, List.append_assoc, List.singleton_append]
      exact (hchar ▸ leads_char hc hs).trans hrest

end Literal

section Number

/-- A number `n` has been read that may end here. -/
structure Awaits (r : Reading) (n : Number) : Prop where
  close : r.close = some [.num n]
  step : ∀ c, digit? c = none → c ≠ '.' → isMark c = false → r.step c = finish n c

def Stops (rest : List Char) : Prop :=
  ∀ c ∈ rest.head?, digit? c = none ∧ c ≠ '.' ∧ isMark c = false

theorem Awaits.scanFrom {r : Reading} {n : Number} (h : Awaits r n) {rest : List Char}
    (hr : Stops rest) (before : List Token) :
    scanFrom r before rest = scanFrom .between (.num n :: before) rest := by
  cases rest with
  | nil =>
      have hb : Reading.between.close = some [] := rfl
      simp [Token.scanFrom, h.close, hb]
  | cons c cs =>
      obtain ⟨hd, hp, hm⟩ := hr c rfl
      have hb : Reading.between.step c = start c := rfl
      simp only [Token.scanFrom, h.step c hd hp hm, finish, hb]
      cases start c with
      | none => rfl
      | some next => simp

theorem digit?_digitChar : ∀ d < 10, digit? d.digitChar = some d := by decide

def wholeRead (negative : Bool) (n : Nat) : Reading :=
  if n = 0 then .zero negative else .whole negative n

theorem awaits_wholeRead (negative : Bool) (n : Nat) :
    Awaits (wholeRead negative n) ⟨negative, n, [], none⟩ := by
  by_cases hn : n = 0
  · subst hn
    exact ⟨rfl, fun c _ hp hm => by simp [wholeRead, step, afterWhole, hp, hm]⟩
  · rw [wholeRead, if_neg hn]
    exact ⟨rfl, fun c hd hp hm => by simp [step, afterWhole, hd, hp, hm]⟩

theorem step_wholeRead {negative : Bool} {n : Nat} {c : Char} (hd : digit? c = none) :
    (wholeRead negative n).step c = afterWhole ⟨negative, n, [], none⟩ c := by
  by_cases hn : n = 0
  · subst hn
    rfl
  · simp [wholeRead, hn, step, hd]

theorem leads_whole {r : Reading} {negative : Bool}
    (hr : ∀ d < 10, r.step d.digitChar = some ([], wholeRead negative d)) (n : Nat) :
    Leads r (Nat.toDigits 10 n) (wholeRead negative n) := by
  induction n using Nat.strongRecOn with
  | ind n ih =>
      rw [Nat.toDigits_eq_if (by omega)]
      split
      case isTrue hn => exact .one (hr n hn)
      case isFalse hn =>
        refine (ih (n / 10) (by omega)).trans (.one ?_)
        have hq : n / 10 ≠ 0 := by omega
        have hn' : n ≠ 0 := by omega
        rw [wholeRead, wholeRead, if_neg hq, if_neg hn', step,
          digit?_digitChar _ (Nat.mod_lt n (by omega))]
        simp only [Nat.div_add_mod]

theorem leads_signed (negative : Bool) (n : Nat) :
    Leads .between ((if negative then ['-'] else []) ++ Nat.toDigits 10 n) (wholeRead negative n) :=
    by
  cases negative with
  | false => exact leads_whole (by decide) n
  | true => exact .cons rfl (leads_whole (by decide) n)

theorem leads_fraction {m : Number} {ds : List Nat} (hd : ∀ d ∈ ds, d < 10) (fs : List Nat) :
    Leads (.fraction { m with fraction := fs }) (ds.map Nat.digitChar)
      (.fraction { m with fraction := ds.reverse ++ fs }) := by
  induction ds generalizing fs with
  | nil => exact .nil _
  | cons d ds ih =>
      have h := ih (fun x hx => hd x (by simp [hx])) (d :: fs)
      rw [List.reverse_cons, List.append_assoc]
      exact .cons (by simp [step, digit?_digitChar d (hd d (by simp))]) h

theorem leads_power {m : Number} {negative : Bool} {ds : List Nat}
    (hd : ∀ d ∈ ds, d < 10) (e : Nat) :
    Leads (.power m negative e) (ds.map Nat.digitChar)
    (.power m negative (ds.foldl (fun v d => 10 * v + d) e)) := by
  induction ds generalizing e with
  | nil => exact .nil _
  | cons d ds ih =>
      exact .cons (by simp [step, digit?_digitChar d (hd d (by simp))])
        (ih (fun x hx => hd x (by simp [hx])) _)

theorem leads_power_of {r : Reading} {m : Number} {negative : Bool} {ds : List Nat}
    (hr : ∀ d < 10, r.step d.digitChar = some ([], .power m negative d)) (hne : ds ≠ [])
    (hd : ∀ d ∈ ds, d < 10) :
    Leads r (ds.map Nat.digitChar) (.power m negative (ofDigits ds)) := by
  cases ds with
  | nil => exact absurd rfl hne
  | cons d ds =>
      have h := @leads_power m negative ds (fun x hx => hd x (List.mem_cons_of_mem d hx)) d
      refine .cons (hr d (hd d (by simp))) ?_
      rw [ofDigits, List.foldl_cons, Nat.mul_zero, Nat.zero_add]
      exact h

theorem awaits_power (m : Number) (negative : Bool) (e : Nat) :
    Awaits (.power m negative e) (withPower m negative e) :=
  ⟨rfl, fun c hd _ _ => by simp [step, hd]⟩

theorem exists_power {r : Reading} {n : Number} {cs : List Char} (hs : SpellsPower n.exponent cs)
    (ha : Awaits r { n with exponent := none })
    (hm : ∀ c, isMark c → r.step c = some ([], .mark { n with exponent := none })) :
    ∃ r', Leads r cs r' ∧ Awaits r' n := by
  obtain ⟨negative, whole, fraction, exponent⟩ := n
  cases hs with
  | none => exact ⟨r, .nil r, ha⟩
  | @some mark sign ds hmark hs hne hd =>
      have hdigit (m : Number) (d : Nat) (h : d < 10) :
          (Reading.mark m).step d.digitChar = some ([], .power m false d) := by
        have hplus : ∀ d < 10, Nat.digitChar d ≠ '+' ∧ Nat.digitChar d ≠ '-' := by decide
        simp [step, hplus d h, digit?_digitChar d h]
      have hsign (m : Number) (b : Bool) (d : Nat) (h : d < 10) :
          (Reading.sign m b).step d.digitChar = some ([], .power m b d) := by
        simp [step, digit?_digitChar d h]
      obtain rfl | rfl | rfl := hs
      · exact ⟨_, .cons (hm mark hmark) (leads_power_of (hdigit _) hne hd), awaits_power _ _ _⟩
      · exact ⟨_, .cons (hm mark hmark) (.cons rfl (leads_power_of (hsign _ _) hne hd)),
          awaits_power _ _ _⟩
      · exact ⟨_, .cons (hm mark hmark) (.cons rfl (leads_power_of (hsign _ _) hne hd)),
          awaits_power _ _ _⟩

theorem isMark_eq {c : Char} (h : isMark c) : digit? c = none ∧ c ≠ '.' := by
  rw [isMark, Bool.or_eq_true, beq_iff_eq, beq_iff_eq] at h
  obtain rfl | rfl := h <;> decide

theorem exists_number {n : Number} {cs : List Char} (h : n.Spelled cs) :
    ∃ r, Leads .between cs r ∧ Awaits r n := by
  obtain ⟨hfraction, power, hpower, rfl⟩ := h
  obtain ⟨negative, whole, fraction, exponent⟩ := n
  have hwhole := leads_signed negative whole
  rw [← List.append_assoc]
  cases fraction with
  | nil =>
      have hmark (c : Char) (hc : isMark c) :
          (wholeRead negative whole).step c = some ([], .mark ⟨negative, whole, [], none⟩) := by
        obtain ⟨hd, hp⟩ := isMark_eq hc
        simp [step_wholeRead hd, afterWhole, hp, hc]
      obtain ⟨r, hl, ha⟩ := @exists_power _ ⟨negative, whole, [], exponent⟩ _ hpower
        (awaits_wholeRead negative whole) hmark
      exact ⟨r, hwhole.trans hl, ha⟩
  | cons d ds =>
      have hpoint : (wholeRead negative whole).step '.' =
        some ([], .point ⟨negative, whole, [], none⟩) :=
        step_wholeRead rfl
      have hfirst : (Reading.point ⟨negative, whole, [], none⟩).step d.digitChar =
          some ([], .fraction ⟨negative, whole, [d], none⟩) := by
        simp [step, digit?_digitChar d (hfraction d (by simp))]
      have hds := @leads_fraction ⟨negative, whole, [], none⟩ ds
        (fun x hx => hfraction x (List.mem_cons_of_mem d hx)) [d]
      have hall := hwhole.trans (.cons hpoint (.cons hfirst hds))
      obtain ⟨r, hl, ha⟩ := @exists_power (.fraction ⟨negative, whole, ds.reverse ++ [d], none⟩)
        ⟨negative, whole, d :: ds, exponent⟩ _ hpower
        ⟨by simp [Reading.close], fun c hd _ hm => by simp [step, hd, hm]⟩
        (fun c hc => by simp [step, (isMark_eq hc).1, hc])
      rw [← List.append_assoc]
      exact ⟨r, hall.trans hl, ha⟩

end Number

end Reading

namespace Token

open Reading

def isNumber : Token → Bool
  | .num _ => true
  | _ => false

theorem scanFrom_token {t : Token} {cs rest : List Char} (h : t.Spelled cs)
    (hr : t.isNumber → Stops rest) (before : List Token) :
    scanFrom .between before (cs ++ rest) = scanFrom .between (t :: before) rest := by
  cases t with
  | num n =>
      obtain ⟨r, hl, ha⟩ := exists_number h
      rw [hl, ha.scanFrom (hr rfl)]
  | str s =>
      cases s with
      | none => subst h; rfl
      | some s =>
          obtain ⟨body, hb, rfl⟩ := h
          have hl : Leads .between ('"' :: body) (.text ⟨s.toList.reverse ++ [], none, true⟩) :=
            .cons rfl (leads_chars hb rfl)
          rw [← List.cons_append, List.append_assoc, hl]
          simp [scanFrom, Reading.step, Spelling.text]
  | bool b => cases b <;> (subst h; rfl)
  | _ => subst h; rfl

theorem scanFrom_blanks {blanks : List Char} (hb : ∀ c ∈ blanks, isBlank c) (before : List Token)
    (rest : List Char) :
    scanFrom .between before (blanks ++ rest) = scanFrom .between before rest := by
  induction blanks with
  | nil => rfl
  | cons c cs ih =>
      have hc : c = ' ' ∨ c = '\n' ∨ c = '\t' ∨ c = '\r' := by
        simpa [isBlank, or_assoc] using hb c (by simp)
      have hstep : scanFrom .between before (c :: (cs ++ rest)) =
          scanFrom .between before (cs ++ rest) := by
        obtain rfl | rfl | rfl | rfl := hc <;> rfl
      rw [List.cons_append, hstep, ih fun x hx => hb x (by simp [hx])]

def isSeparator : Token → Bool
  | .openObject | .closeObject | .openArray | .closeArray | .colon | .comma => true
  | _ => false

/-- A separator, or nothing, stands behind each number. -/
def Separated : List Token → Prop
  | [] => True
  | t :: ts => (t.isNumber → ts.head?.all isSeparator) ∧ Separated ts

theorem Separated.cons {t : Token} {ts : List Token} (ht : t.isNumber = false) (h : Separated ts) :
    Separated (t :: ts) := by
  refine ⟨fun hn => ?_, h⟩
  rw [ht] at hn
  cases hn

theorem stops_of_spelledAll {ts : List Token} {cs : List Char} (h : SpelledAll ts cs)
    (hs : ts.head?.all isSeparator) :
    Stops cs := by
  have hblank : ∀ c, isBlank c → digit? c = none ∧ c ≠ '.' ∧ isMark c = false := by
    intro c hc
    have hc : c = ' ' ∨ c = '\n' ∨ c = '\t' ∨ c = '\r' := by simpa [isBlank, or_assoc] using hc
    obtain rfl | rfl | rfl | rfl := hc <;> decide
  intro c hc
  cases h with
  | nil hb => exact hblank c (hb c (List.mem_of_mem_head? hc))
  | @cons t ts blanks cs rest hb ht hr =>
      cases blanks with
      | cons b bs =>
          obtain rfl : b = c := by simpa using hc
          exact hblank b (hb b (by simp))
      | nil =>
          cases t with
          | null | bool | num | str => cases hs
          | _ =>
              subst ht
              obtain rfl := Option.some.inj hc
              decide

theorem scanFrom_all {ts : List Token} {cs : List Char} (h : SpelledAll ts cs) (hs : Separated ts)
    (before : List Token) : scanFrom .between before cs = some (before.reverse ++ ts) := by
  induction h generalizing before with
  | nil hb => simpa [scanFrom, Reading.close] using scanFrom_blanks hb before []
  | @cons t ts blanks cs rest hb ht hr ih =>
      rw [scanFrom_blanks hb, scanFrom_token ht fun hn => stops_of_spelledAll hr (hs.1 hn), ih hs.2]
      simp

end Token
end StackScript.Json
