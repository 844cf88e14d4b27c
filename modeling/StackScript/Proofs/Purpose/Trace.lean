import StackScript.Proofs.Purpose.Stmt

namespace StackScript

open Draft

namespace Draft

variable {s t : Draft}

/-- All variables that the code names are known. -/
def Grounded (s : Draft) : Prop :=
  ∀ x, .push x ∈ s.code ∨ .jumpIndirect x ∈ s.code → s.vars.contains x

theorem Grounded.of_code (hs : s.Grounded) (hm : Moves s t) (hc : t.code = s.code) :
    t.Grounded := by
  intro x hx
  rw [hc] at hx
  exact hm.contains (hs x hx)

theorem Grounded.piece {xs : List String} {i : Instr} (hs : s.Grounded)
    (e : Emits s t (Block.pushAll xs ++ [i])) (hx : ∀ x ∈ xs, t.vars.contains x)
    (hi : ∀ x, i ≠ .push x) (hj : ∀ x, i = .jumpIndirect x → t.vars.contains x) :
    t.Grounded := by
  intro x h
  simp only [e.code, List.mem_append, Block.pushAll, List.mem_map, List.mem_singleton] at h
  obtain (h | ⟨y, hy, h⟩ | h) | (h | ⟨y, hy, h⟩ | h) := h
  · exact e.moves.contains (hs x (.inl h))
  · cases h
    exact hx x hy
  · exact absurd h.symm (hi x)
  · exact e.moves.contains (hs x (.inr h))
  · cases h
  · exact hj x h.symm

end Draft

namespace Module

variable {c : Catalog} {m : Module} {p : Program} {fs : Functions} {d : Nat → Draft} {F s t : Draft}
  {k : Nat} {st : Stmt}

theorem Purpose.jumpIndirect {front : List Instr} {xs : List String} {x : String}
    (h : m.Purpose c fs F k st front xs (.jumpIndirect x)) : x = Names.returnAddress := by
  cases h with
  | back | value => rfl

theorem Act.grounded (h : m.Act c fs F k st s t) (hr : s.vars.contains Names.returnAddress)
    (hs : s.Grounded) :
    t.Grounded := by
  have hm := h.moves
  cases h with
  | quiet h => exact hs.of_code hm (by simpa using h.emits.code)
  | const _ h => exact hs.of_code hm (by simpa using (Lower.generate_emits h).code)
  | name _ _ h => exact hs.of_code hm (by simpa using (Lower.declare_emits h).code)
  | code xs hi h =>
      refine hs.piece (Lower.emit_emits h) (fun x hx => hm.contains (hi.known x hx))
        hi.purpose.ne_push ?_
      rintro x rfl
      rw [hi.purpose.jumpIndirect]
      exact hm.contains hr
  | run hf hv hx h =>
      refine hs.piece (Lower.emit_emits h) (fun x hx' => hm.contains ?_) (by simp) (by simp)
      obtain ⟨_, _, hty⟩ := exists_of_mem_forall₂ hx hx'
      exact hty.contains
  | fill zs hk hx hz hi hst h =>
      have e := (Lower.generate_emits hx).skip (Lower.emit_emits h)
      refine hs.piece e (fun x hx' => ?_) hi.ne_push ?_
      · obtain hx' | hx' := List.mem_append.mp hx'
        · exact hm.contains (hz x hx')
        · obtain rfl := List.mem_singleton.mp hx'
          exact (Lower.emit_emits h).moves.contains (Lower.generate_contains hx)
      · rintro x rfl
        rw [hi.jumpIndirect]
        exact hm.contains hr

/-- An act of the lowering of the `k`-th statement, with its place between the drafts `d`. -/
structure Step (c : Catalog) (m : Module) (fs : Functions) (d : Nat → Draft) (k : Nat) (st : Stmt)
    (s t : Draft) :
    Prop where
  stands : m.body[k]? = some st
  after : Moves (d k) s
  act : m.Act c fs (d m.body.length) k st s t
  before : Moves t (d (k + 1))

/-- What lowering passes before the draft `s`, from the end of the first pass on. -/
abbrev Trace (c : Catalog) (m : Module) (fs : Functions) (d : Nat → Draft) (s : Draft) : Prop :=
  Relation.ReflTransGen (fun s t => ∃ k st, m.Step c fs d k st s t) (d 0) s

theorem Trace.acts {u : Draft} (hs : m.Trace c fs d s) (hk : m.body[k]? = some st)
    (hm : Moves (d k) s) (h : m.Acts c fs (d m.body.length) k st s u) (hu : Moves u (d (k + 1))) :
    m.Trace c fs d u := by
  induction h with
  | refl => exact hs
  | @tail v u h ha ih =>
      exact (ih (ha.moves.trans hu)).tail ⟨k, st, hk, hm.trans (Acts.moves h), ha, hu⟩

/-- Each variable is there from the first pass on, or from one act on. -/
theorem Trace.step_of_variable {v : Variable} (hs : m.Trace c fs d s) (hv : v ∈ s.vars.declared) :
    v ∈ (d 0).vars.declared ∨ ∃ k st u w, m.Trace c fs d u ∧ m.Step c fs d k st u w ∧
    v ∈ w.vars.declared ∧
      v ∉ u.vars.declared := by
  induction hs with
  | refl => exact .inl hv
  | @tail u w hu h ih =>
      obtain ⟨k, st, h⟩ := h
      by_cases hold : v ∈ u.vars.declared
      · exact ih hold
      · exact .inr ⟨k, st, u, w, hu, h, hv, hold⟩

namespace Layout

variable (L : Layout c m p fs d)
include L

theorem trace (hk : k ≤ m.body.length) : m.Trace c fs d (d k) := by
  induction k with
  | zero => exact .refl
  | succ k ih =>
      have hst := List.getElem?_eq_getElem hk
      exact (ih (Nat.le_of_succ_le hk)).acts hst .refl (L.acts hst) .refl

theorem moves_step (h : m.Step c fs d k st s t) : Moves (d 0) s ∧ Moves t (d m.body.length) := by
  have hlt := (List.getElem?_eq_some_iff.mp h.stands).1
  exact ⟨(L.moves (Nat.zero_le k) hlt.le).trans h.after, h.before.trans (L.moves hlt le_rfl)⟩

theorem grounded (h : m.Trace c fs d s) : s.Grounded := by
  induction h with
  | refl =>
      intro x hx
      rw [L.code_zero] at hx
      simp at hx
  | tail _ h ih =>
      obtain ⟨k, st, h⟩ := h
      exact h.act.grounded ((L.moves_step h).1.contains (L.known (Nat.zero_le _)).1) ih

end Layout
end Module
end StackScript
