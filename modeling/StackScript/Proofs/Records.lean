import Mathlib.Data.List.Infix
import StackScript.Code.Record

namespace StackScript

namespace Record

def isWord32 (n : Nat) : Bool := n < UInt32.size

def isWord64 (n : Nat) : Bool := n < UInt64.size

def isText (s : String) : Bool := isWord64 s.utf8ByteSize

def isListOf {α : Type} (fits : α → Bool) (xs : List α) : Bool := isWord64 xs.length && xs.all fits

end Record

open Record

def Target.isStorable : Target → Bool
  | .addr a => isWord32 a
  | .label id => isWord64 id

def Init.isStorable : Init → Bool
  | .null => true
  | .literal text => isText text
  | .label id => isWord64 id
  | .addr a => isWord32 a

def Instr.isStorable : Instr → Bool
  | .pop | .copy => true
  | .push x | .jumpIndirect x | .eventHead x => isText x
  | .pushAddr a => isWord32 a
  | .jump t | .jumpIfFalse t => t.isStorable
  | .invoke symbol arity => isText symbol && isWord64 arity

def DataVar.isStorable (v : DataVar) : Bool :=
  isText v.name && isText v.machineType && v.init.isStorable

def Label.isStorable (l : Label) : Bool := isText l.name && l.addr.all isWord32

/-- All numbers of the program are words of the machine that holds it. -/
def Program.isStorable (p : Program) : Bool :=
  isListOf isText p.exports && isListOf DataVar.isStorable p.vars && isListOf isText p.events &&
    isListOf Instr.isStorable p.code && isListOf Label.isStorable p.labels

namespace Record

variable {α β : Type}

/-- Reading `bytes` leads from `f` to `g`: what follows is left to `g`, and as long as some of the
bytes are missing, `f` asks for more. -/
structure Reads (f : Bytes → Except RecordError β) (bytes : Bytes)
    (g : Bytes → Except RecordError β) : Prop where
  whole : ∀ rest, f (bytes ++ rest) = g rest
  cut : ∀ {q}, q <+: bytes → q.length < bytes.length → f q = .error .unexpectedEnd

abbrev Gives (get : Reader α) (bytes : Bytes) (x : α) : Prop :=
  Reads get bytes fun rest => .ok (x, rest)

theorem Reads.trans {f g h : Bytes → Except RecordError β} {bs cs : Bytes} (hf : Reads f bs g)
    (hg : Reads g cs h) :
    Reads f (bs ++ cs) h := by
  refine ⟨fun rest => ?_, fun {q} hq hlt => ?_⟩
  · rw [List.append_assoc, hf.whole, hg.whole]
  · by_cases hb : q.length < bs.length
    · exact hf.cut (List.prefix_of_prefix_length_le hq (List.prefix_append bs cs) hb.le) hb
    · -- the cut is behind the first part
      obtain ⟨r, rfl⟩ :=
        List.prefix_of_prefix_length_le (List.prefix_append bs cs) hq (not_lt.mp hb)
      rw [List.length_append, List.length_append] at hlt
      rw [hf.whole]
      exact hg.cut ((List.prefix_append_right_inj bs).mp hq) (by omega)

theorem Reads.bind {get : Reader α} {bs : Bytes} {x : α} (h : Gives get bs x)
    (k : α × Bytes → Except RecordError β) : Reads (fun b => get b >>= k) bs fun b => k (x, b) := by
  refine ⟨fun rest => ?_, fun hq hlt => ?_⟩
  · rw [h.whole]
    rfl
  · rw [h.cut hq hlt]
    rfl

theorem Reads.map {get : Reader α} {bs : Bytes} {x : α} (h : Gives get bs x) (f : α → β) :
    Gives (mapGet f get) bs (f x) := h.bind _

theorem Reads.nil (f : Bytes → Except RecordError β) : Reads f [] f :=
  ⟨fun _ => rfl, fun _ hlt => absurd hlt (Nat.not_lt_zero _)⟩

theorem Reads.cons {f g h : Bytes → Except RecordError β} {b : UInt8} {bs : Bytes}
    (hnil : f [] = .error .unexpectedEnd) (hcons : ∀ rest, f (b :: rest) = g rest)
    (hg : Reads g bs h) :
    Reads f (b :: bs) h := by
  refine ⟨fun rest => (hcons _).trans (hg.whole rest), fun {q} hq hlt => ?_⟩
  cases q with
  | nil => exact hnil
  | cons c q =>
      obtain ⟨rfl, hr⟩ := List.cons_prefix_cons.mp hq
      rw [hcons]
      exact hg.cut hr (by simpa using hlt)

theorem toNat_toUInt8 {n : Nat} (h : n < 256) : n.toUInt8.toNat = n := by simp [Nat.mod_eq_of_lt h]

/-- A number of at most `left + 1` groups of seven bits, the highest of which is at most `top`. -/
theorem gives_nat {top left n : Nat} (htop : top < 128) (hn : n < (top + 1) * Nat.pow 128 left) :
    Gives (getNat top left) (putNat n) n := by
  induction left generalizing n with
  | zero =>
      have hle : n ≤ top := Nat.lt_succ_iff.mp (by simpa using hn)
      have hb : n.toUInt8.toNat = n := toNat_toUInt8 (by omega)
      rw [putNat, if_pos (by omega)]
      refine .cons rfl (fun rest => ?_) (.nil _)
      rw [getNat, hb, if_pos hle]
  | succ left ih =>
      rw [putNat]
      split
      case isTrue hlt =>
        have hb : n.toUInt8.toNat = n := toNat_toUInt8 (by omega)
        refine .cons rfl (fun rest => ?_) (.nil _)
        rw [getNat, hb, if_pos hlt]
      case isFalse hge =>
        have hb : (n % 128 + 128).toUInt8.toNat = n % 128 + 128 := toNat_toUInt8 (by omega)
        have hdiv : n / 128 < (top + 1) * Nat.pow 128 left := by
          rw [Nat.div_lt_iff_lt_mul (by omega), Nat.mul_assoc]
          exact hn
        have hval : n % 128 + 128 - 128 + 128 * (n / 128) = n := by omega
        have hrest := (ih hdiv).bind fun p => Except.ok (n % 128 + 128 - 128 + 128 * p.1, p.2)
        simp only [hval] at hrest
        refine .cons rfl (fun rest => ?_) hrest
        rw [getNat, hb, if_neg (by omega)]
        rfl

theorem gives_word32 {n : Nat} (hn : isWord32 n) : Gives getWord32 (putNat n) n :=
  gives_nat (by omega) (of_decide_eq_true hn)

theorem gives_word64 {n : Nat} (hn : isWord64 n) : Gives getWord64 (putNat n) n :=
  gives_nat (by omega) (of_decide_eq_true hn)

theorem fromUTF8?_data (s : String) : String.fromUTF8? ⟨s.toUTF8.data⟩ = some s := by
  change (if h : s.toByteArray.IsValidUTF8 then some (String.fromUTF8 s.toByteArray h) else none) =
    some s
  rw [dif_pos s.isValidUTF8]
  rfl

theorem gives_text {s : String} (hs : isText s) : Gives getText (putText s) s := by
  have hlen : s.toUTF8.data.toList.length = s.utf8ByteSize := rfl
  refine ((gives_word64 hs).bind _).trans ⟨fun rest => ?_, fun {q} hq hlt => ?_⟩
  · have htake : (s.toUTF8.data.toList ++ rest).take s.utf8ByteSize = s.toUTF8.data.toList :=
      List.take_left' hlen
    have hdrop : (s.toUTF8.data.toList ++ rest).drop s.utf8ByteSize = rest := List.drop_left' hlen
    dsimp only
    rw [htake, hdrop, if_neg (by omega), Array.toArray_toList, fromUTF8?_data]
  · dsimp only
    rw [if_pos]
    rw [List.length_take]
    omega

theorem gives_many {get : Reader α} {put : α → Bytes} {xs : List α}
    (h : ∀ x ∈ xs, Gives get (put x) x) :
    Gives (getMany get xs.length) (xs.flatMap put) xs := by
  induction xs with
  | nil => exact .nil _
  | cons x xs ih =>
      rw [List.flatMap_cons]
      have hx := h x (by simp)
      have hxs := ih fun y hy => h y (by simp [hy])
      exact (hx.bind _).trans (hxs.bind _)

theorem gives_list {fits : α → Bool} {get : Reader α} {put : α → Bytes} {xs : List α}
    (h : ∀ {x}, fits x → Gives get (put x) x) (hxs : isListOf fits xs) :
    Gives (getList get) (putList put xs) xs := by
  obtain ⟨hlen, hall⟩ := Bool.and_eq_true_iff.mp hxs
  exact ((gives_word64 hlen).bind _).trans
    (gives_many fun x hx => h (List.all_eq_true.mp hall x hx))

theorem gives_option {get : Reader α} {put : α → Bytes} {o : Option α}
    (h : ∀ x ∈ o, Gives get (put x) x) :
    Gives (getOption get) (putOption put o) o := by
  cases o with
  | none => exact .cons rfl (fun _ => rfl) (.nil _)
  | some x => exact .cons rfl (fun _ => rfl) ((h x rfl).map some)

theorem gives_target {t : Target} (ht : t.isStorable) : Gives getTarget (putTarget t) t := by
  cases t with
  | addr a => exact ((gives_word32 (by decide)).bind _).trans ((gives_word32 ht).map _)
  | label id => exact ((gives_word32 (by decide)).bind _).trans ((gives_word64 ht).map _)

theorem gives_init {i : Init} (hi : i.isStorable) : Gives getInit (putInit i) i := by
  cases i with
  | null => exact (gives_word32 (by decide)).bind _
  | literal text => exact ((gives_word32 (by decide)).bind _).trans ((gives_text hi).map _)
  | label id => exact ((gives_word32 (by decide)).bind _).trans ((gives_word64 hi).map _)
  | addr a => exact ((gives_word32 (by decide)).bind _).trans ((gives_word32 hi).map _)

theorem gives_instr {i : Instr} (hi : i.isStorable) : Gives getInstr (putInstr i) i := by
  cases i with
  | pop | copy => exact (gives_word32 (by decide)).bind _
  | push x | jumpIndirect x | eventHead x =>
      exact ((gives_word32 (by decide)).bind _).trans ((gives_text hi).map _)
  | pushAddr a => exact ((gives_word32 (by decide)).bind _).trans ((gives_word32 hi).map _)
  | jump t | jumpIfFalse t =>
      exact ((gives_word32 (by decide)).bind _).trans ((gives_target hi).map _)
  | invoke symbol arity =>
      obtain ⟨hs, ha⟩ := Bool.and_eq_true_iff.mp hi
      have harity : Reads getInvoke (putText symbol ++ putNat arity) fun b =>
        .ok (.invoke symbol arity, b) :=
        ((gives_text hs).bind _).trans ((gives_word64 ha).bind _)
      rw [putInstr, List.append_assoc]
      exact ((gives_word32 (by decide)).bind _).trans harity

theorem gives_var {v : DataVar} (hv : v.isStorable) : Gives getVar (putVar v) v := by
  obtain ⟨hnt, hi⟩ := Bool.and_eq_true_iff.mp hv
  obtain ⟨hn, ht⟩ := Bool.and_eq_true_iff.mp hnt
  exact (((gives_text hn).bind _).trans ((gives_text ht).bind _)).trans ((gives_init hi).bind _)

theorem gives_label {l : Label} (hl : l.isStorable) : Gives getLabel (putLabel l) l := by
  obtain ⟨hn, ha⟩ := Bool.and_eq_true_iff.mp hl
  have haddr : ∀ a ∈ l.addr, isWord32 a := fun a h => by rwa [h, Option.all_some] at ha
  exact ((gives_text hn).bind _).trans ((gives_option fun a h => gives_word32 (haddr a h)).bind _)

end Record

namespace Program

open Record

theorem reads_record {p : Program} (hp : p.isStorable) :
    Reads ofRecord p.toRecord fun _ => .ok p := by
  simp only [isStorable, Bool.and_eq_true] at hp
  obtain ⟨⟨⟨⟨hexports, hvars⟩, hevents⟩, hcode⟩, hlabels⟩ := hp
  have h₁ := gives_list gives_text hexports
  have h₂ := gives_list gives_var hvars
  have h₃ := gives_list gives_text hevents
  have h₄ := gives_list gives_instr hcode
  have h₅ := gives_list gives_label hlabels
  exact ((((h₁.bind _).trans (h₂.bind _)).trans (h₃.bind _)).trans (h₄.bind _)).trans (h₅.bind _)

/-- A record is read back whatever follows it. What is cut off before its end is never taken for
a record. -/
theorem ofRecord_toRecord {p : Program} (hp : p.isStorable) :
    (∀ rest, ofRecord (p.toRecord ++ rest) = .ok p) ∧
      ∀ q, q <+: p.toRecord → q ≠ p.toRecord → ofRecord q = .error .unexpectedEnd := by
  have hr := reads_record hp
  refine ⟨hr.whole, fun q hq hne => hr.cut hq ?_⟩
  exact hq.length_le.lt_of_ne fun hlen => hne (hq.eq_of_length hlen)

def sketched : Program where
  exports := ["größe"]
  vars := [⟨"ret_addr", "SystemUInt32", .addr haltAddress⟩, ⟨"größe", "SystemInt32", .literal "-1"⟩,
    ⟨"__0_const_ret_addr", "SystemUInt32", .label 1⟩, ⟨"__2_ret_value", "SystemObject", .null⟩]
  events := ["_start"]
  code := [.eventHead "_start", .pushAddr 4294967295, .push "größe", .copy, .pop,
    .jumpIfFalse (.label 127), .jump (.addr 128), .jumpIndirect "ret_addr",
    .invoke "Größe.__Get__" 18446744073709551615]
  labels := [⟨"f", none⟩, ⟨"__1_ret_call_label", some 16384⟩]

theorem sketched_ofRecord :
    sketched.isStorable ∧ ofRecord (sketched.toRecord ++ [255]) = .ok sketched ∧
    ofRecord sketched.toRecord.dropLast = .error .unexpectedEnd := by
  have hs : sketched.isStorable := by decide
  obtain ⟨hwhole, hcut⟩ := ofRecord_toRecord hs
  have hne : sketched.toRecord ≠ [] := by
    intro hnil
    have hread := hwhole []
    rw [hnil] at hread
    cases hread
  refine ⟨hs, hwhole _, hcut _ (List.dropLast_prefix _) fun h => ?_⟩
  have hlen := congrArg List.length h
  have hpos := List.length_pos_iff.mpr hne
  rw [List.length_dropLast] at hlen
  omega

end Program
end StackScript
