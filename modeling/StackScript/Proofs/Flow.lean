import StackScript.Proofs.Lowering.Moves

namespace StackScript

namespace Draft

def callee (fs : Functions) (F : Draft) (l : Nat) : Option Function :=
  List.find? (fun f => F.emitter.named.lookup (Names.functionId f.name f.types) = some l) fs

end Draft

/-- What a cell of the stack comes from: a variable or an address that was pushed, or what the code
around finds there, which is an argument, the address to come back to, or the result of a call. -/
inductive Source where
  | pushed (x : String)
  | address (a : Nat)
  | argument (f : Function) (i : Nat)
  | back
  | result (g : Function)

namespace Function

def results (g : Function) : Nat := if g.ret.isVoid then 0 else 1

def leaves (g : Function) : List Source := if g.ret.isVoid then [] else [.result g]

theorem length_leaves (g : Function) : g.leaves.length = g.results := by
  rw [leaves, results]
  split <;> rfl

end Function

namespace Instr

variable (callee : Nat → Option Function)

/-- How many cells an instruction takes off the stack. A call takes the arguments and the address to
come back to. -/
def takes : Instr → Nat
  | .jump (.label l) => ((callee l).map fun g => g.types.length + 1).getD 0
  | i => i.effect.1

def gives : Instr → Nat
  | .jump (.label l) => ((callee l).map Function.results).getD 0
  | i => i.effect.2

def puts : Instr → List Source
  | .push x => [.pushed x]
  | .pushAddr a => [.address a]
  | .jump (.label l) => ((callee l).map Function.leaves).getD []
  | _ => []

/-- The stack behind an instruction. Behind a way back it is the one that a function's statements
have: only the return address is there. -/
def after (S : List Source) : Instr → List Source
  | .jumpIndirect _ => [.back]
  | i => i.puts callee ++ S.drop (i.takes callee)

/-- The label that an instruction branches to. A jump to the entry of a function is a call and no
branch. -/
def branch? : Instr → Option Nat
  | .jumpIfFalse (.label l) => some l
  | .jump (.label l) => if (callee l).isNone then some l else none
  | _ => none

def isExit : Instr → Bool
  | .jumpIndirect _ | .jump (.addr _) => true
  | _ => false

/-- What must hold of an instruction that finds this stack: there is enough on it, a way out leaves
with what it should, and a branch lands on `base`. -/
structure Fits (out : List Source → Prop) (base S : List Source) (i : Instr) : Prop where
  room : i.takes callee ≤ S.length
  exit : i.isExit → out S
  branch : ∀ l, i.branch? callee = some l → i.after callee S = base

theorem length_puts (i : Instr) : (i.puts callee).length = i.gives callee := by
  cases i with
  | jump t =>
      cases t with
      | addr => rfl
      | label l =>
          rw [puts, gives]
          cases callee l with
          | none => rfl
          | some g => exact g.length_leaves
  | _ => rfl

theorem after_eq {i : Instr} (S : List Source) (hi : i.isExit = false) :
    i.after callee S = i.puts callee ++ S.drop (i.takes callee) := by
  cases i with
  | jumpIndirect => cases hi
  | _ => rfl

theorem length_after {i : Instr} (S : List Source) (hi : i.isExit = false) :
    (i.after callee S).length = S.length - i.takes callee + i.gives callee := by
  rw [after_eq callee S hi, List.length_append, List.length_drop, length_puts, Nat.add_comm]

theorem after_of_width {i : Instr} (hw : i.width = 0) (S : List Source) : i.after callee S = S := by
  cases i with
  | eventHead => rfl
  | _ => cases hw

theorem branch?_of_noTarget {i : Instr} (ht : i.target? = none) : i.branch? callee = none := by
  cases i with
  | jump | jumpIfFalse => cases ht
  | _ => rfl

theorem width_pos_of_isExit {i : Instr} (hi : i.isExit) : 0 < i.width := by
  cases i with
  | jumpIndirect | jump => exact Nat.zero_lt_succ _
  | _ => cases hi

theorem isExit_of_noTarget {i : Instr} (ht : i.target? = none) (hi : ∀ x, i ≠ .jumpIndirect x) :
    i.isExit = false := by
  cases i with
  | jump => cases ht
  | jumpIndirect x => exact absurd rfl (hi x)
  | _ => rfl

theorem branch?_of_callee {l : Nat} {g : Function} (hg : callee l = some g) :
    (jump (.label l)).branch? callee = none := by
  simp [branch?, hg]

end Instr

/-- Control can go from the instruction at one address to another address. A call is seen from
outside: control comes back behind it. -/
inductive Draft.Flow (fs : Functions) (F : Draft) : Nat → Nat → Prop
  | next {a i} (h : Code.fetch F.code a = some i) (ht : i.target? = none)
      (hi : ∀ x, i ≠ .jumpIndirect x) : Flow fs F a (a + i.width)
  | pass {a t} (h : Code.fetch F.code a = some (.jumpIfFalse t)) : Flow fs F a (a + 5)
  | branch {a i l b} (h : Code.fetch F.code a = some i) (hi : i.branch? (F.callee fs) = some l)
      (hb : F.Bound l b) : Flow fs F a b
  | call {a l g} (h : Code.fetch F.code a = some (.jump (.label l))) (hc : F.callee fs l = some g) :
      Flow fs F a (a + 5)

namespace Code

variable (callee : Nat → Option Function)

def stack : List Source → List Instr → List Source
  | S, [] => S
  | S, i :: is => stack (i.after callee S) is

def Checked (out : List Source → Prop) (base : List Source) : List Source → List Instr → Prop
  | _, [] => True
  | S, i :: is => i.Fits callee out base S ∧ Checked out base (i.after callee S) is

def stackAt : List Source → List Instr → Nat → List Source
  | S, [], _ => S
  | S, i :: is, a => if a < i.width then S else stackAt (i.after callee S) is (a - i.width)

variable {callee} {out : List Source → Prop} {base : List Source}

@[simp] theorem stack_nil (S : List Source) : stack callee S [] = S := rfl

@[simp] theorem stack_cons (S : List Source) (i : Instr) (is : List Instr) :
    stack callee S (i :: is) = stack callee (i.after callee S) is := rfl

@[simp] theorem stack_append (S : List Source) (xs ys : List Instr) :
    stack callee S (xs ++ ys) = stack callee (stack callee S xs) ys := by
  induction xs generalizing S with
  | nil => rfl
  | cons x xs ih => exact ih _

@[simp] theorem checked_append (S : List Source) (xs ys : List Instr) :
    Checked callee out base S (xs ++ ys) ↔
      Checked callee out base S xs ∧ Checked callee out base (stack callee S xs) ys := by
  induction xs generalizing S with
  | nil => simp [Checked]
  | cons x xs ih => simp [Checked, ih, and_assoc]

theorem Checked.fits {S : List Source} {pre post : List Instr} {i : Instr}
    (hc : Checked callee out base S (pre ++ i :: post)) :
    i.Fits callee out base (stack callee S pre) :=
  ((checked_append ..).mp hc).2.1

theorem stackAt_zero (S : List Source) (code : List Instr) : stackAt callee S code 0 = S := by
  induction code generalizing S with
  | nil => rfl
  | cons i is ih =>
      rw [stackAt]
      split
      · rfl
      · rw [Nat.zero_sub, ih, Instr.after_of_width callee (by omega)]

theorem stackAt_append (S : List Source) (pre post : List Instr) (a : Nat) :
    stackAt callee S (pre ++ post) (size pre + a) = stackAt callee (stack callee S pre) post a := by
  induction pre generalizing S with
  | nil => simp
  | cons i pre ih =>
      rw [List.cons_append, stackAt, if_neg (by simp; omega), size_cons, stack_cons]
      have hsub : i.width + size pre + a - i.width = size pre + a := by omega
      rw [hsub, ih]

theorem stackAt_size (S : List Source) (pre post : List Instr) :
    stackAt callee S (pre ++ post) (size pre) = stack callee S pre := by
  rw [← Nat.add_zero (size pre), stackAt_append, stackAt_zero]

theorem stack_of_size_zero {code : List Instr} (hs : size code = 0) (S : List Source) :
    stack callee S code = S := by
  induction code generalizing S with
  | nil => rfl
  | cons i is ih =>
      rw [size_cons, Nat.add_eq_zero_iff] at hs
      rw [stack_cons, ih hs.2, Instr.after_of_width callee hs.1]

theorem exists_split_of_fetch {code : List Instr} {a : Nat} {i : Instr}
    (h : fetch code a = some i) :
    ∃ pre post, code = pre ++ i :: post ∧ a = size pre ∧ i.width ≠ 0 := by
  induction code generalizing a with
  | nil => cases h
  | cons j is ih =>
      rw [fetch] at h
      split at h
      case isTrue hw =>
        obtain ⟨pre, post, rfl, rfl, hi⟩ := ih h
        exact ⟨j :: pre, post, rfl, by simp [hw], hi⟩
      case isFalse hw =>
        split at h
        case isTrue ha =>
          cases h
          exact ⟨[], is, rfl, by simp [ha], hw⟩
        case isFalse ha =>
          split at h
          case isTrue => cases h
          case isFalse hlt =>
            obtain ⟨pre, post, rfl, hsub, hi⟩ := ih h
            exact ⟨j :: pre, post, rfl, by rw [size_cons, ← hsub]; omega, hi⟩

theorem At.split_of_fetch {code block : List Instr} {a x : Nat} {i : Instr} (h : At code a block)
    (hf : Code.fetch code x = some i) (hx : a ≤ x) (hb : x < a + size block) :
    ∃ pre post, block = pre ++ i :: post ∧ x = a + size pre ∧ i.width ≠ 0 := by
  obtain ⟨front, back, rfl, rfl⟩ := h
  obtain ⟨y, rfl⟩ := Nat.exists_eq_add_of_le hx
  rw [fetch_append] at hf
  obtain ⟨pre, post, he, rfl, hw⟩ := exists_split_of_fetch hf
  obtain ⟨rest, rfl, hr⟩ | ⟨rest, rfl, hr⟩ := List.append_eq_append_iff.mp he
  · simp only [size_append] at hb
    omega
  · cases rest with
    | nil => simp at hb
    | cons j rest =>
        cases hr
        exact ⟨pre, rest, rfl, rfl, hw⟩

end Code

namespace Draft

variable {fs : Functions} {F : Draft}

theorem Bound.unique {l a b : Nat} (ha : F.Bound l a) (hb : F.Bound l b) : a = b := by
  rw [Bound, ha] at hb
  cases hb
  rfl

theorem Flow.cases {a b : Nat} {i : Instr} (h : F.Flow fs a b) (hi : Code.fetch F.code a = some i) :
    i.isExit = false ∧ (b = a + i.width ∨ ∃ l, i.branch? (F.callee fs) = some l ∧ F.Bound l b) := by
  cases h with
  | @next j h ht hj =>
      obtain rfl : j = i := by simpa [h] using hi
      exact ⟨Instr.isExit_of_noTarget ht hj, .inl rfl⟩
  | pass h =>
      rw [h] at hi
      cases hi
      exact ⟨rfl, .inl rfl⟩
  | @branch j l _ h hl hb =>
      obtain rfl : j = i := by simpa [h] using hi
      refine ⟨?_, .inr ⟨l, hl, hb⟩⟩
      cases j with
      | jump t =>
          cases t with
          | addr => cases hl
          | label => rfl
      | jumpIndirect => cases hl
      | _ => rfl
  | call h =>
      rw [h] at hi
      cases hi
      exact ⟨rfl, .inl rfl⟩

end Draft
end StackScript
