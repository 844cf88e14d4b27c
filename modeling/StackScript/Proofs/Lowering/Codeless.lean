import StackScript.Proofs.Lowering.Units

namespace StackScript

namespace Draft

/-- A relation that a change of the code alone keeps to, and the lowering of a call. -/
class Codeless (R : Draft → Draft → Prop) : Prop extends Closed R where
  move : ∀ {s t}, Moves s t → t.vars = s.vars → R s t
  userCall : ∀ cx name args discard, Lower.Along R (Lower.userCall cx name args discard)

instance : Codeless Moves where
  still h := h.emits.moves
  trans := .trans
  move h _ := h
  userCall _ _ _ _ := ⟨.userCall .., fun h => by
    obtain ⟨_, _, _, _, _, _, _, S, _⟩ := Lower.userCall_eq_ok h
    exact S.emits.moves⟩

end Draft

namespace Lower

open Draft

variable {cx : Context} {R : Draft → Draft → Prop} [Codeless R] {s t : Draft}

theorem Along.emit_codeless (block : List Instr) : Along R (Lower.emit block) :=
  ⟨.modify _, fun h => Codeless.move (emit_emits h).moves (emit_vars h)⟩

instance : EmitClosed cx R := .of_emit .emit_codeless (Codeless.userCall cx)

omit [Codeless R] in
theorem emit_bindLabel_vars {block : List Instr} {l : Nat} {u : Unit}
    (h : (do emit block; bindLabel l : Lower Unit) s = .ok u t) : Moves s t ∧ t.vars = s.vars := by
  obtain ⟨_, s₁, he, hb⟩ := bind_eq_ok.mp h
  exact ⟨(emit_emits he).moves.trans (bindLabel_emits hb).1.moves,
    (bindLabel_vars hb).trans (emit_vars he)⟩

theorem loopHead_along {test : Expr} {labels : Nat × Nat} (h : loopHead cx test s = .ok labels t) :
    R s t := by
  simp only [loopHead, bind_eq_ok, pure_eq_ok] at h
  obtain ⟨l₁, s₁, h₁, l₂, s₂, h₂, _, s₃, hb, x, s₄, hx, _, s₅, hem, _, rfl⟩ := h
  have hlabels : R s s₂ :=
    Closed.trans ((Along.freshLabel _).of_ok h₁) ((Along.freshLabel _).of_ok h₂)
  have hbind : R s₂ s₃ := Codeless.move (bindLabel_emits hb).1.moves (bindLabel_vars hb)
  have hrest : R s₃ s₅ :=
    Closed.trans ((Along.condition test).of_ok hx) ((Along.emit_codeless _).of_ok hem)
  exact Closed.trans hlabels (Closed.trans hbind hrest)

theorem Lowered.along {ss : List Stmt} (h : Lowered cx ss s t) : R s t := by
  induction h with
  | nil s => exact Closed.still (.refl s)
  | plain hp h _ ih => exact Closed.trans ((Along.stmt hp).of_ok h) ih
  | leave h _ ih =>
      rw [stmt, noted, lowerStmt] at h
      obtain ⟨_, _, hn, h⟩ := bind_eq_ok.mp h
      have hret := Closed.trans (R := R) ((Along.note _).of_ok hn) ((Along.lowerReturn _).of_ok h)
      exact Closed.trans hret ih
  | branch hn hh _ ht _ he _ ihb iho ihr =>
      have hhead := Closed.trans (R := R) ((Along.note _).of_ok hn) ((Along.branchHead _).of_ok hh)
      obtain ⟨mt, vt⟩ := emit_bindLabel_vars ht
      have hturn := Closed.trans ihb (Closed.trans (Codeless.move mt vt) iho)
      have hend := Closed.trans (Codeless.move (bindLabel_emits he).1.moves (bindLabel_vars he)) ihr
      exact Closed.trans hhead (Closed.trans hturn hend)
  | loop hn hh _ ht _ ihb ihr =>
      have hhead := Closed.trans (R := R) ((Along.note _).of_ok hn) (loopHead_along hh)
      obtain ⟨mt, vt⟩ := emit_bindLabel_vars ht
      exact Closed.trans hhead (Closed.trans ihb (Closed.trans (Codeless.move mt vt) ihr))

variable {c : Catalog} {fs : Functions}

theorem event_along {name : String} {params : List Param} {body : List Stmt} {u : Unit}
    (h : event c fs name params body s = .ok u t) : R s t := by
  simp only [event, bind_eq_ok] at h
  obtain ⟨_, s₁, h₁, _, s₂, h₂, _, s₃, h₃, _, s₄, hb, h₄⟩ := h
  have he {block u s t} (h : emit block s = .ok u t) : R s t := (Along.emit_codeless block).of_ok h
  exact Closed.trans (Closed.trans (he h₁) (Closed.trans (he h₂) (he h₃)))
    (Closed.trans (lowered_block hb).along (he h₄))

theorem function_along {name : String} {params : List Param} {returns : Option String}
    {body : List Stmt} {u : Unit} (h : function c fs name params returns body s = .ok u t) :
    R s t := by
  simp only [function, bind_eq_ok, accept_eq_ok] at h
  obtain ⟨⟨types, ret⟩, _, ⟨_, rfl⟩, h⟩ := h
  cases hg : fs.find? name types with
  | none => simp only [hg, reject_eq_ok] at h
  | some g =>
      simp only [hg, bind_eq_ok] at h
      obtain ⟨l, s₁, hl, _, s₂, hb, _, s₃, hp, _, s₄, hy, hr⟩ := h
      have hlabel : R s s₂ := Closed.trans
        (Codeless.move (namedLabel_emits hl).1.moves (namedLabel_vars hl))
        (Codeless.move (bindLabel_emits hb).1.moves (bindLabel_vars hb))
      have he {block u s t} (h : emit block s = .ok u t) : R s t :=
        (Along.emit_codeless block).of_ok h
      exact Closed.trans hlabel
        (Closed.trans (he hp) (Closed.trans (lowered_block hy).along (he hr)))

theorem topLevel_along {st : Stmt} {u : Unit} (h : topLevel c fs st s = .ok u t) : R s t := by
  cases st with
  | define p name params returns body =>
      rw [topLevel] at h
      split at h
      · exact event_along h
      · exact function_along h
  | assign p target e =>
      rw [topLevel] at h
      obtain ⟨b, s₁, hi, h⟩ := bind_eq_ok.mp h
      have hdata : R s s₁ := (Along.dataInit target e).of_ok hi
      split at h
      · obtain ⟨_, rfl⟩ := pure_eq_ok.mp h
        exact hdata
      · exact Closed.trans hdata (lowered_stmt h).along
  | _ => exact (lowered_stmt h).along

theorem topLevelAll_along {ss : List Stmt} {u : Unit} (h : topLevelAll c fs ss s = .ok u t) :
    R s t := by
  induction ss generalizing s with
  | nil =>
      obtain ⟨_, rfl⟩ := pure_eq_ok.mp h
      exact Closed.still (.refl s)
  | cons st ss ih =>
      rw [topLevelAll] at h
      obtain ⟨_, s₁, hst, hss⟩ := bind_eq_ok.mp h
      exact Closed.trans (topLevel_along (located_eq_ok.mp hst)) (ih hss)

end Lower

theorem Module.along_of_lowered {R : Draft → Draft → Prop} [Draft.Codeless R] {c : Catalog}
    {m : Module} {k : Nat} {fs : Functions} {s : Draft} (h : m.lowered c k = some (fs, s)) :
    R .empty s := by
  obtain ⟨s₀, hh, ht⟩ := Lower.upTo_eq_ok.mp (lowered_eq_some.mp h)
  exact Draft.Closed.trans (Draft.Closed.still (Lower.header_eq_ok c hh).1)
    (Lower.topLevelAll_along ht)

namespace Draft

variable {s t : Draft}

/-- A variable that waits for a label waits for one with a place. -/
def Tied (s : Draft) : Prop :=
  ∀ v ∈ s.vars.declared, v.Settled ∨ ∃ l a, v.init = .label l ∧ s.Bound l a

def KeepsTied (s t : Draft) : Prop := s.Tied → t.Tied

theorem Tied.of_moves (hs : s.Tied) (hm : Moves s t) {v : Variable} (hv : v ∈ s.vars.declared) :
    v.Settled ∨ ∃ l a, v.init = .label l ∧ t.Bound l a :=
  (hs v hv).imp_right fun ⟨l, a, hl, ha⟩ => ⟨l, a, hl, (Moves.grows hm).bound ha⟩

instance : Closed KeepsTied where
  still h hs v hv := by
    obtain hv | hv := h.declared v hv
    · exact hs.of_moves h.emits.moves hv
    · exact .inl hv
  trans h k hs := k (h hs)

theorem tied_userCall {cx : Context} {name : String} {args : List String} {discard : Bool}
    {o : Operand} (h : Lower.userCall cx name args discard s = .ok o t) (hs : s.Tied) : t.Tied := by
  obtain ⟨g, k, entry, back, r, s₁, s₂, S, _⟩ := Lower.userCall_eq_ok h
  intro v hv
  rw [S.result, S.vars, S.const, List.append_assoc, List.mem_append, List.mem_append,
    List.mem_singleton] at hv
  obtain hv | rfl | hv := hv
  · exact hs.of_moves S.emits.moves hv
  · exact .inr ⟨back, _, rfl, (Moves.grows S.leave.moves).bound S.bound⟩
  · cases r with
    | into x =>
        obtain rfl := List.mem_singleton.mp hv
        exact .inl trivial
    | _ => cases hv

instance : Codeless KeepsTied where
  move hm hv hs _ h := hs.of_moves hm (hv ▸ h)
  userCall _ _ _ _ := ⟨.userCall .., tied_userCall⟩

end Draft

theorem Module.tied_of_lowered {c : Catalog} {m : Module} {k : Nat} {fs : Functions} {s : Draft}
    (h : m.lowered c k = some (fs, s)) : s.Tied :=
  along_of_lowered (R := Draft.KeepsTied) h fun _ hv => nomatch hv

end StackScript
