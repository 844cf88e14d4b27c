import Mathlib.Data.List.Forall2
import StackScript.Proofs.Machine

namespace StackScript

theorem forall₂_of_mapM {α β ε : Type} {f : α → Except ε β} {xs : List α} {ys : List β}
    (h : xs.mapM f = .ok ys) : List.Forall₂ (fun x y => f x = .ok y) xs ys := by
  induction xs generalizing ys with
  | nil => cases h; exact .nil
  | cons x xs ih =>
      rw [List.mapM_cons] at h
      cases hx : f x with
      | error e => rw [hx] at h; cases h
      | ok y =>
          cases hys : xs.mapM f with
          | error e => rw [hx, hys] at h; cases h
          | ok zs =>
              rw [hx, hys] at h
              cases h
              exact .cons hx (ih hys)

theorem exists_of_mem_forall₂ {α β : Type} {R : α → β → Prop} {xs : List α} {ys : List β}
    (h : List.Forall₂ R xs ys) {x : α} (hx : x ∈ xs) : ∃ y ∈ ys, R x y := by
  induction h with
  | nil => cases hx
  | @cons a b xs ys hr _ ih =>
      obtain rfl | hx := List.mem_cons.mp hx
      · exact ⟨b, by simp, hr⟩
      · obtain ⟨y, hy, hr⟩ := ih hx
        exact ⟨y, by simp [hy], hr⟩

theorem Label.address_eq_ok_iff {labels : List Label} {id a : Nat} :
    Label.address labels id = .ok a ↔ ∃ l, labels[id]? = some l ∧ l.addr = some a := by
  rw [Label.address, Label.get]
  cases labels[id]? with
  | none => simp [bind, Except.bind]
  | some l => cases hl : l.addr <;> simp [bind, Except.bind, hl]

namespace Instr

variable {labels : List Label} {i j : Instr}

theorem resolve_cases (h : i.resolve labels = .ok j) :
    j = i ∨ ∃ id a, Label.address labels id = .ok a ∧
      (i = .jump (.label id) ∧ j = .jump (.addr a) ∨
        i = .jumpIfFalse (.label id) ∧ j = .jumpIfFalse (.addr a)) := by
  cases i with
  | jump t =>
      cases t with
      | addr a => cases h; exact .inl rfl
      | label id =>
          simp only [resolve, Target.resolve] at h
          cases ha : Label.address labels id with
          | error e => rw [ha] at h; cases h
          | ok a => rw [ha] at h; cases h; exact .inr ⟨id, a, ha, .inl ⟨rfl, rfl⟩⟩
  | jumpIfFalse t =>
      cases t with
      | addr a => cases h; exact .inl rfl
      | label id =>
          simp only [resolve, Target.resolve] at h
          cases ha : Label.address labels id with
          | error e => rw [ha] at h; cases h
          | ok a => rw [ha] at h; cases h; exact .inr ⟨id, a, ha, .inr ⟨rfl, rfl⟩⟩
  | _ => cases h; exact .inl rfl

theorem width_resolve (h : i.resolve labels = .ok j) : j.width = i.width := by
  obtain rfl | ⟨_, _, _, ⟨rfl, rfl⟩ | ⟨rfl, rfl⟩⟩ := resolve_cases h <;> rfl

end Instr

abbrev Linked (labels : List Label) : List Instr → List Instr → Prop :=
  List.Forall₂ fun i j => i.resolve labels = .ok j

namespace Linked

variable {labels : List Label} {xs ys : List Instr}

theorem size_eq (h : Linked labels xs ys) : Code.size ys = Code.size xs := by
  induction h with
  | nil => rfl
  | cons hi _ ih => rw [Code.size_cons, Code.size_cons, ih, Instr.width_resolve hi]

theorem eq_of_noTarget (h : Linked labels xs ys) (hx : ∀ i ∈ xs, i.target? = none) : ys = xs := by
  induction h with
  | nil => rfl
  | @cons i j xs ys hi _ ih =>
      have hi' : i.target? = none := hx i (by simp)
      obtain rfl | ⟨_, _, _, ⟨rfl, rfl⟩ | ⟨rfl, rfl⟩⟩ := Instr.resolve_cases hi
      · rw [ih fun k hk => hx k (by simp [hk])]
      · cases hi'
      · cases hi'

theorem split {zs : List Instr} (h : Linked labels (xs ++ ys) zs) :
    ∃ us vs, zs = us ++ vs ∧ Linked labels xs us ∧ Linked labels ys vs := by
  have hu := List.forall₂_take xs.length h
  have hv := List.forall₂_drop xs.length h
  rw [List.take_left] at hu
  rw [List.drop_left] at hv
  exact ⟨_, _, (List.take_append_drop _ zs).symm, hu, hv⟩

theorem split_right {zs : List Instr} (h : Linked labels zs (xs ++ ys)) :
    ∃ us vs, zs = us ++ vs ∧ Linked labels us xs ∧ Linked labels vs ys := by
  have hu := List.forall₂_take xs.length h
  have hv := List.forall₂_drop xs.length h
  rw [List.take_left] at hu
  rw [List.drop_left] at hv
  exact ⟨_, _, (List.take_append_drop _ zs).symm, hu, hv⟩

end Linked

namespace Block

theorem enter_eq (f : Frame) :
    enter f = pushAll (f.returnSlot :: f.env) ++
    (pushAll (f.returnConst :: f.args) ++ goto f.entry) := by
  simp [enter, pushAll]

theorem enter_eq_single (f : Frame) :
    enter f = pushAll (f.returnSlot :: f.env ++ f.returnConst :: f.args) ++
    [.jump (.label f.entry)] := by
  rw [enter_eq, ← List.append_assoc, goto, pushAll, pushAll, ← List.map_append]
  rfl

/-- The return address is what the caller pops last, as if it were its first parameter. -/
theorem leave_eq (result : Outcome) (env : List String) (slot : String) :
    leave result env slot = collect result ++ popIntoAll (slot :: env) := by
  simp [leave, popIntoAll]

theorem target_pushAll {xs : List String} : ∀ i ∈ pushAll xs, i.target? = none := by
  intro i hi
  obtain ⟨x, _, rfl⟩ := List.mem_map.mp hi
  rfl

theorem target_popInto {x : String} : ∀ i ∈ popInto x, i.target? = none := by
  simp [popInto, Instr.target?]

theorem target_assign {dst src : String} : ∀ i ∈ assign dst src, i.target? = none := by
  simp [assign, Instr.target?]

theorem target_invoke {symbol : String} {operands : List String} :
    ∀ i ∈ invoke symbol operands, i.target? = none := by
  rw [invoke, List.forall_mem_append, List.forall_mem_singleton]
  exact ⟨target_pushAll, rfl⟩

theorem target_popIntoAll {xs : List String} : ∀ i ∈ popIntoAll xs, i.target? = none := by
  intro i hi
  obtain ⟨x, _, hx⟩ := List.mem_flatMap.mp hi
  exact target_popInto i hx

theorem target_collect {result : Outcome} : ∀ i ∈ collect result, i.target? = none := by
  cases result <;> simp [collect, popInto, Instr.target?]

theorem target_exit {slot : String} {value : Option String} :
    ∀ i ∈ exit slot value, i.target? = none := by
  rw [exit, List.forall_mem_append, List.forall_mem_singleton]
  exact ⟨target_pushAll, rfl⟩

theorem target_ret {slot : String} {value : Option String} :
    ∀ i ∈ ret slot value, i.target? = none := by
  rw [ret, List.forall_mem_append]
  exact ⟨target_popInto, target_exit⟩

theorem target_leave {result : Outcome} {env : List String} {slot : String} :
    ∀ i ∈ leave result env slot, i.target? = none := by
  rw [leave_eq, List.forall_mem_append]
  exact ⟨target_collect, target_popIntoAll⟩

end Block

theorem DataVar.resolve_cases {labels : List Label} {v w : DataVar} (h : v.resolve labels = .ok w) :
    (∀ id, v.init ≠ .label id) ∧ w = v ∨
      ∃ id a, v.init = .label id ∧ Label.address labels id = .ok a ∧
      w = { v with init := .addr a } := by
  rw [resolve.eq_def] at h
  split at h
  case h_1 id hid =>
    cases ha : Label.address labels id with
    | error f => rw [ha] at h; cases h
    | ok a => rw [ha] at h; cases h; exact .inr ⟨id, a, hid, ha, rfl⟩
  case h_2 hi => cases h; exact .inl ⟨hi, rfl⟩

theorem Program.link_eq_ok {p q : Program} (h : p.link = .ok q) :
    ∃ code vars, q = { p with code := code, vars := vars } ∧ Linked p.labels p.code code ∧
      List.Forall₂ (fun v w => v.resolve p.labels = .ok w) p.vars vars := by
  rw [link] at h
  cases hc : p.code.mapM (Instr.resolve p.labels) with
  | error e => rw [hc] at h; cases h
  | ok code =>
      cases hv : p.vars.mapM (DataVar.resolve p.labels) with
      | error e => rw [hc, hv] at h; cases h
      | ok vars =>
          rw [hc, hv] at h
          cases h
          exact ⟨code, vars, rfl, forall₂_of_mapM hc, forall₂_of_mapM hv⟩

/-- A block stands in the program at an address, with addresses for its labels. -/
def Program.Has (p : Program) (a : Nat) (block : List Instr) : Prop :=
  ∃ linked, Linked p.labels block linked ∧ Code.At p.code a linked

namespace Program.Has

variable {p : Program} {a : Nat} {xs ys : List Instr}

theorem left (h : p.Has a (xs ++ ys)) : p.Has a xs := by
  obtain ⟨linked, hl, hc⟩ := h
  obtain ⟨us, vs, rfl, hu, _⟩ := hl.split
  exact ⟨us, hu, hc.left⟩

theorem right (h : p.Has a (xs ++ ys)) : p.Has (a + Code.size xs) ys := by
  obtain ⟨linked, hl, hc⟩ := h
  obtain ⟨us, vs, rfl, hu, hv⟩ := hl.split
  exact ⟨vs, hv, by rw [← hu.size_eq]; exact hc.right⟩

theorem at_of_noTarget (h : p.Has a xs) (hx : ∀ i ∈ xs, i.target? = none) :
    Code.At p.code a xs := by
  obtain ⟨linked, hl, hc⟩ := h
  rwa [hl.eq_of_noTarget hx] at hc

theorem goto {id b : Nat} (h : p.Has a (Block.goto id)) (hb : Label.address p.labels id = .ok b) :
    Code.At p.code a [.jump (.addr b)] := by
  obtain ⟨linked, hl, hc⟩ := h
  obtain ⟨j, us, hj, hu, rfl⟩ := List.forall₂_cons_left_iff.mp hl
  cases hu
  rw [Instr.resolve, Target.resolve, hb] at hj
  cases hj
  exact hc

theorem halt (h : p.Has a Block.halt) : Code.At p.code a Block.halt := by
  obtain ⟨linked, hl, hc⟩ := h
  obtain ⟨j, us, hj, hu, rfl⟩ := List.forall₂_cons_left_iff.mp hl
  cases hu
  cases hj
  exact hc

theorem branchUnless {id b : Nat} {x : String} (h : p.Has a (Block.branchUnless x id))
    (hb : Label.address p.labels id = .ok b) :
    Code.At p.code a [.push x, .jumpIfFalse (.addr b)] := by
  obtain ⟨linked, hl, hc⟩ := h
  obtain ⟨i, us, hi, hu, rfl⟩ := List.forall₂_cons_left_iff.mp hl
  obtain ⟨j, vs, hj, hv, rfl⟩ := List.forall₂_cons_left_iff.mp hu
  cases hv
  cases hi
  rw [Instr.resolve, Target.resolve, hb] at hj
  cases hj
  exact hc

theorem jump {b l : Nat} (h : p.Has a (xs ++ .jump (.label l) :: ys))
    (hx : ∀ i ∈ xs, i.target? = none) (hy : ∀ i ∈ ys, i.target? = none)
    (hb : Label.address p.labels l = .ok b) :
    Code.At p.code a (xs ++ .jump (.addr b) :: ys) := by
  obtain ⟨linked, hl, hat⟩ := h
  obtain ⟨us, vs, rfl, hu, hv⟩ := hl.split
  obtain ⟨j, ws, hj, hw, rfl⟩ := List.forall₂_cons_left_iff.mp hv
  rw [Instr.resolve, Target.resolve, hb] at hj
  cases hj
  rwa [hu.eq_of_noTarget hx, Linked.eq_of_noTarget hw hy] at hat

theorem enter {b l : Nat} {xs : List String}
    (h : p.Has a (Block.pushAll xs ++ [.jump (.label l)])) (hb : Label.address p.labels l = .ok b) :
    Code.At p.code a (Block.pushAll xs ++ [.jump (.addr b)]) :=
  h.jump Block.target_pushAll (List.forall_mem_nil _) hb

end Program.Has
end StackScript
