import Mathlib.Logic.Function.Basic
import StackScript.Code.Block
import StackScript.Code.Resolve

namespace StackScript

/-- What a variable holds: an address, a truth value, or something of the host's. -/
inductive Value (D : Type) where
  | addr (a : Nat)
  | truth (b : Bool)
  | datum (d : D)
  deriving DecidableEq

def Value.isFalse {D : Type} : Value D → Bool
  | .truth false => true
  | _ => false

/-- A place on the stack: what was pushed, and the variable it was pushed from. -/
structure Cell (D : Type) where
  name : Option String
  value : Value D
  deriving DecidableEq

abbrev Store (D : Type) := String → Value D

/-- The operations of the host by their symbols. Only an operation that answers has a result. -/
structure Host (D H : Type) where
  answers : String → Bool
  call : String → List (Value D) → H → Value D × H

namespace Code

/-- The instruction at an address. A marker takes no room, so it is never the one. -/
def fetch : List Instr → Nat → Option Instr
  | [], _ => none
  | i :: is, a =>
    if i.width = 0 then fetch is a
    else if a = 0 then some i
    else if a < i.width then none
    else fetch is (a - i.width)

end Code

namespace Machine

structure State (D H : Type) where
  pc : Nat
  store : Store D
  stack : List (Cell D)
  host : H

variable {D H : Type} (E : Host D H)

/-- A host operation on its operands, the first one pushed first. The result goes into the variable
of the last operand, and nowhere else. -/
def invoke (symbol : String) (operands : List (Cell D)) (σ : Store D) (h : H) :
    Option (Store D × H) :=
  if E.answers symbol then
    match operands.getLast? with
    | some ⟨some x, _⟩ =>
      let (v, h') := E.call symbol (operands.dropLast.map Cell.value) h
      some (Function.update σ x v, h')
    | _ => none
  else some (σ, (E.call symbol (operands.map Cell.value) h).2)

/-- What one instruction does. A state in which it cannot be carried out has no successor. -/
def execute (i : Instr) (s : State D H) : Option (State D H) :=
  let next := s.pc + i.width
  match i, s.stack with
  | .push x, st => some ⟨next, s.store, ⟨some x, s.store x⟩ :: st, s.host⟩
  | .pushAddr a, st => some ⟨next, s.store, ⟨none, .addr a⟩ :: st, s.host⟩
  | .pop, _ :: st => some ⟨next, s.store, st, s.host⟩
  | .copy, ⟨some x, _⟩ :: src :: st => some ⟨next, Function.update s.store x src.value, st, s.host⟩
  | .jump (.addr a), st => some ⟨a, s.store, st, s.host⟩
  | .jumpIfFalse (.addr a), c :: st =>
    some ⟨if c.value.isFalse then a else next, s.store, st, s.host⟩
  | .jumpIndirect x, st =>
    match s.store x with
    | .addr a => some ⟨a, s.store, st, s.host⟩
    | _ => none
  | .invoke symbol arity, st =>
    if arity ≤ st.length then
      (invoke E symbol (st.take arity).reverse s.store s.host).map fun (σ, h) =>
        ⟨next, σ, st.drop arity, h⟩
    else none
  | .eventHead _, st => some ⟨next, s.store, st, s.host⟩
  | _, _ => none

def step (code : List Instr) (s : State D H) : Option (State D H) :=
  (Code.fetch code s.pc).bind fun i => execute E i s

inductive Runs (code : List Instr) : Nat → State D H → State D H → Prop
  | refl (s) : Runs code 0 s s
  | step {n s t u} (h : step E code s = some t) (r : Runs code n t u) : Runs code (n + 1) s u

def Reaches (code : List Instr) (s t : State D H) : Prop := ∃ n, Runs E code n s t

def Pushes (code : List Instr) (s t : State D H) : Prop :=
  ∃ n, Runs E code n s t ∧
    ∀ k < n, ∀ u, Runs E code k s u → ∃ x, Code.fetch code u.pc = some (.push x)

def Endless (code : List Instr) (s : State D H) : Prop := ∀ n, ∃ t, Runs E code n s t

end Machine

namespace Code

def At (code : List Instr) (a : Nat) (block : List Instr) : Prop :=
  ∃ pre post, code = pre ++ (block ++ post) ∧ size pre = a

@[simp] theorem size_nil : size [] = 0 := rfl

@[simp] theorem size_cons (i : Instr) (is : List Instr) : size (i :: is) = i.width + size is := rfl

@[simp] theorem size_append (xs ys : List Instr) : size (xs ++ ys) = size xs + size ys := by
  induction xs with
  | nil => simp
  | cons x xs ih => rw [List.cons_append, size_cons, size_cons, ih, Nat.add_assoc]

theorem add_size_append (a : Nat) (xs ys : List Instr) :
    a + size (xs ++ ys) = a + size xs + size ys := by
  rw [size_append, Nat.add_assoc]

theorem fetch_append (pre rest : List Instr) (a : Nat) :
    fetch (pre ++ rest) (size pre + a) = fetch rest a := by
  induction pre with
  | nil => simp
  | cons i pre ih =>
      rw [List.cons_append, size_cons, fetch]
      by_cases hw : i.width = 0
      · simp [hw, ih]
      · have hsub : i.width + size pre + a - i.width = size pre + a := by omega
        rw [if_neg hw, if_neg (by omega), if_neg (by omega), hsub, ih]

variable {code : List Instr} {a : Nat}

theorem At.left {xs ys : List Instr} (h : At code a (xs ++ ys)) : At code a xs := by
  obtain ⟨pre, post, rfl, rfl⟩ := h
  exact ⟨pre, ys ++ post, by simp, rfl⟩

theorem At.right {xs ys : List Instr} (h : At code a (xs ++ ys)) : At code (a + size xs) ys := by
  obtain ⟨pre, post, rfl, rfl⟩ := h
  exact ⟨pre ++ xs, post, by simp, by simp⟩

theorem At.tail {i : Instr} {is : List Instr} (h : At code a (i :: is)) :
    At code (a + i.width) is := by
  have h' : At code a ([i] ++ is) := h
  simpa using h'.right

theorem At.fetch {i : Instr} {is : List Instr} (h : At code a (i :: is)) (hw : i.width ≠ 0) :
    fetch code a = some i := by
  obtain ⟨pre, post, rfl, rfl⟩ := h
  have hf := fetch_append pre (i :: is ++ post) 0
  simpa [Code.fetch, hw] using hf

end Code

namespace Machine

variable {D H : Type} {E : Host D H} {code : List Instr}

theorem Runs.trans {m n : Nat} {s t u : State D H} (h : Runs E code m s t) (r : Runs E code n t u) :
    Runs E code (m + n) s u := by
  induction h with
  | refl => simpa using r
  | step hs _ ih => rw [Nat.add_right_comm]; exact .step hs (ih r)

theorem Runs.front {m n : Nat} {s u : State D H} (h : Runs E code (m + n) s u) :
    ∃ t, Runs E code m s t := by
  induction m generalizing s with
  | zero => exact ⟨s, .refl s⟩
  | succ m ih =>
      rw [Nat.add_right_comm] at h
      cases h with
      | step hs r =>
          obtain ⟨t, ht⟩ := ih r
          exact ⟨t, .step hs ht⟩

theorem Reaches.refl (s : State D H) : Reaches E code s s := ⟨0, .refl s⟩

theorem Reaches.trans {s t u : State D H} (h : Reaches E code s t) (r : Reaches E code t u) :
    Reaches E code s u := by
  obtain ⟨m, hm⟩ := h
  obtain ⟨n, hn⟩ := r
  exact ⟨m + n, hm.trans hn⟩

theorem runs_one {a : Nat} {i : Instr} {is : List Instr} {σ : Store D} {st : List (Cell D)} {h : H}
    {t : State D H} (hc : Code.At code a (i :: is)) (hw : i.width ≠ 0)
    (he : execute E i ⟨a, σ, st, h⟩ = some t) : Runs E code 1 ⟨a, σ, st, h⟩ t :=
  .step (by rw [step, hc.fetch hw]; exact he) (.refl t)

theorem reaches_one {a : Nat} {i : Instr} {is : List Instr} {σ : Store D} {st : List (Cell D)}
    {h : H} {t : State D H} (hc : Code.At code a (i :: is)) (hw : i.width ≠ 0)
    (he : execute E i ⟨a, σ, st, h⟩ = some t) : Reaches E code ⟨a, σ, st, h⟩ t :=
  ⟨1, runs_one hc hw he⟩

def cell (σ : Store D) (x : String) : Cell D := ⟨some x, σ x⟩

variable {a : Nat} {σ : Store D} {st : List (Cell D)} {h : H}

theorem reaches_push {x : String} (hc : Code.At code a [.push x]) :
    Reaches E code ⟨a, σ, st, h⟩ ⟨a + 5, σ, cell σ x :: st, h⟩ :=
  reaches_one hc (by simp [Instr.width]) rfl

@[simp] theorem size_pushAll (xs : List String) : Code.size (Block.pushAll xs) = 5 * xs.length := by
  induction xs with
  | nil => rfl
  | cons x xs ih => simp only [Block.pushAll, List.map_cons] at ih ⊢; simp [ih, Instr.width]; omega

theorem Pushes.refl (s : State D H) : Pushes E code s s :=
  ⟨0, .refl s, fun _ hk => absurd hk (Nat.not_lt_zero _)⟩

theorem Pushes.cons {x : String} {t : State D H} (hx : Code.fetch code a = some (.push x))
    (ht : Pushes E code ⟨a + 5, σ, cell σ x :: st, h⟩ t) : Pushes E code ⟨a, σ, st, h⟩ t := by
  obtain ⟨n, hn, hpush⟩ := ht
  have hstep : step E code ⟨a, σ, st, h⟩ = some ⟨a + 5, σ, cell σ x :: st, h⟩ := by
    rw [step, hx]
    rfl
  refine ⟨n + 1, .step hstep hn, fun k hk u hu => ?_⟩
  cases hu with
  | refl => exact ⟨x, hx⟩
  | step hs hu =>
      rw [hstep] at hs
      cases hs
      exact hpush _ (Nat.lt_of_succ_lt_succ hk) u hu

theorem Pushes.reaches {s t : State D H} (h : Pushes E code s t) : Reaches E code s t := by
  obtain ⟨n, hn, -⟩ := h
  exact ⟨n, hn⟩

theorem pushes_pushAll (xs : List String) {a : Nat} {st : List (Cell D)}
    (hc : Code.At code a (Block.pushAll xs)) :
    Pushes E code ⟨a, σ, st, h⟩
      ⟨a + Code.size (Block.pushAll xs), σ, (xs.map (cell σ)).reverse ++ st, h⟩ := by
  induction xs generalizing a st with
  | nil => exact .refl _
  | cons x xs ih =>
      have hx : Code.At code a (.push x :: Block.pushAll xs) := hc
      refine .cons (hx.fetch (by simp [Instr.width])) ?_
      simpa [Nat.mul_succ, Nat.add_assoc, Nat.add_comm, Instr.width] using ih hx.tail

theorem reaches_pushAll (xs : List String) (hc : Code.At code a (Block.pushAll xs)) :
    Reaches E code ⟨a, σ, st, h⟩
      ⟨a + Code.size (Block.pushAll xs), σ, (xs.map (cell σ)).reverse ++ st, h⟩ :=
  (pushes_pushAll xs hc).reaches

theorem reaches_popInto {x : String} {c : Cell D} (hc : Code.At code a (Block.popInto x)) :
    Reaches E code ⟨a, σ, c :: st, h⟩ ⟨a + 6, Function.update σ x c.value, st, h⟩ := by
  have hx : Code.At code a ([.push x] ++ [.copy]) := hc
  exact (reaches_push hx.left).trans (reaches_one hx.right (by decide) rfl)

theorem reaches_assign {dst src : String} (hc : Code.At code a (Block.assign dst src)) :
    Reaches E code ⟨a, σ, st, h⟩ ⟨a + 11, Function.update σ dst (σ src), st, h⟩ := by
  have hx : Code.At code a ([.push src] ++ Block.popInto dst) := hc
  exact (reaches_push hx.left).trans (reaches_popInto hx.right)

theorem execute_invoke {symbol : String} (ops : List (Cell D)) :
    execute E (.invoke symbol ops.length) ⟨a, σ, ops.reverse ++ st, h⟩ =
      (invoke E symbol ops σ h).map fun (σ, h) => ⟨a + 5, σ, st, h⟩ := by
  have hle : ops.length ≤ (ops.reverse ++ st).length := by simp
  have hdrop : (ops.reverse ++ st).drop ops.length = st := by
    rw [← List.length_reverse, List.drop_left]
  have htake : ((ops.reverse ++ st).take ops.length).reverse = ops := by
    rw [← List.length_reverse, List.take_left, List.reverse_reverse]
  simp only [execute, if_pos hle, hdrop, htake, Instr.width]

theorem reaches_invoke {symbol : String} {xs : List String} {x : String} (ha : E.answers symbol)
    (hc : Code.At code a (Block.invoke symbol (xs ++ [x]))) :
    Reaches E code ⟨a, σ, st, h⟩
      ⟨a + Code.size (Block.invoke symbol (xs ++ [x])),
        Function.update σ x (E.call symbol (xs.map σ) h).1, st,
        (E.call symbol (xs.map σ) h).2⟩ := by
  rw [Block.invoke, Code.add_size_append]
  refine (reaches_pushAll _ hc.left).trans (reaches_one hc.right (by simp [Instr.width]) ?_)
  rw [← List.length_map (cell σ), execute_invoke, List.map_append, invoke, if_pos ha]
  simp [cell, Function.comp_def, Instr.width]

theorem reaches_invoke_silent {symbol : String} {xs : List String} (ha : E.answers symbol = false)
    (hc : Code.At code a (Block.invoke symbol xs)) :
    Reaches E code ⟨a, σ, st, h⟩
      ⟨a + Code.size (Block.invoke symbol xs), σ, st, (E.call symbol (xs.map σ) h).2⟩ := by
  rw [Block.invoke, Code.add_size_append]
  refine (reaches_pushAll _ hc.left).trans (reaches_one hc.right (by simp [Instr.width]) ?_)
  rw [← List.length_map (cell σ), execute_invoke, invoke, ha]
  simp [cell, Function.comp_def, Instr.width]

end Machine

namespace Store

variable {D : Type}

def assign (σ : Store D) : List String → List (Value D) → Store D
  | x :: xs, v :: vs => assign (Function.update σ x v) xs vs
  | _, _ => σ

theorem assign_of_not_mem {σ : Store D} {xs : List String} {vs : List (Value D)} {y : String}
    (hy : y ∉ xs) : assign σ xs vs y = σ y := by
  induction xs generalizing σ vs with
  | nil => rfl
  | cons x xs ih =>
      rw [List.mem_cons, not_or] at hy
      cases vs with
      | nil => rfl
      | cons v vs => rw [assign, ih hy.2, Function.update_of_ne hy.1]

theorem map_assign {σ : Store D} {xs : List String} {vs : List (Value D)} (hn : xs.Nodup)
    (hl : xs.length = vs.length) : xs.map (assign σ xs vs) = vs := by
  induction xs generalizing σ vs with
  | nil => exact (List.length_eq_zero_iff.mp hl.symm).symm
  | cons x xs ih =>
      obtain ⟨hx, hn⟩ := List.nodup_cons.mp hn
      cases vs with
      | nil => simp at hl
      | cons v vs =>
          rw [List.map_cons, assign, assign_of_not_mem hx, Function.update_self,
            ih hn (by simpa using hl)]

end Store

namespace Machine

variable {D H : Type} {E : Host D H} {code : List Instr} {st : List (Cell D)} {h : H}

theorem reaches_popInto_each (xs : List String) (cs : List (Cell D)) {a : Nat} {σ : Store D}
    (hl : xs.length = cs.length) (hc : Code.At code a (xs.flatMap Block.popInto)) :
    Reaches E code ⟨a, σ, cs ++ st, h⟩
      ⟨a + Code.size (xs.flatMap Block.popInto), σ.assign xs (cs.map Cell.value), st, h⟩ := by
  induction xs generalizing a σ cs with
  | nil =>
      rw [List.length_eq_zero_iff.mp hl.symm]
      exact .refl _
  | cons x xs ih =>
      cases cs with
      | nil => simp at hl
      | cons c cs =>
          rw [List.flatMap_cons] at hc
          have h₁ : Reaches E code ⟨a, σ, c :: (cs ++ st), h⟩
            ⟨a + 6, Function.update σ x c.value, cs ++ st, h⟩ := reaches_popInto hc.left
          rw [List.flatMap_cons, Code.size_append, ← Nat.add_assoc]
          exact h₁.trans (ih cs (by simpa using hl) hc.right)

/-- What was pushed in order comes back in order. -/
theorem reaches_popIntoAll (xs : List String) (cs : List (Cell D)) {a : Nat} {σ : Store D}
    (hl : xs.length = cs.length) (hc : Code.At code a (Block.popIntoAll xs)) :
    Reaches E code ⟨a, σ, cs.reverse ++ st, h⟩
      ⟨a + Code.size (Block.popIntoAll xs),
        σ.assign xs.reverse (cs.reverse.map Cell.value), st, h⟩ :=
  reaches_popInto_each xs.reverse cs.reverse (by simpa using hl) hc

end Machine
end StackScript
