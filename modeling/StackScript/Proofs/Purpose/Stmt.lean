import StackScript.Proofs.Purpose.Expr

namespace StackScript

open Draft

namespace Stmt

theorem assignment?_eq_some {x : Stmt} {target e : Expr} (h : x.assignment? = some (target, e)) :
    (∀ cx, Lower.lowerStmt cx x = Lower.assign cx target e) ∧
    x.operands = target.accessors ++ [e] := by
  cases x with
  | assign | update =>
      cases h
      exact ⟨fun cx => by rw [Lower.lowerStmt], rfl⟩
  | _ => cases h

end Stmt

theorem Variables.resolve_of_unknown {vs : Variables} {scope name : String}
    (h : vs.contains (vs.resolve scope name) = false) : vs.resolve scope name = name := by
  rw [resolve] at h ⊢
  split at h
  case isTrue hq =>
    rw [hq.2] at h
    cases h
  case isFalse hq => rw [if_neg hq]

theorem Variables.resolve_cases (vs : Variables) (scope name : String) :
    vs.resolve scope name = name ∨ vs.resolve scope name = Names.qualify scope name := by
  rw [resolve]
  split
  · exact .inr rfl
  · exact .inl rfl

namespace Lower

variable {cx : Context} {s t : Draft}

/-- An assignment to a name, step by step: a name that is not found is declared as it stands. -/
theorem assignName_steps {name : String} {e : Expr} {u : Unit}
    (h : assignName cx name e s = .ok u t) :
    ∃ o s₁, expr cx e s = .ok o s₁ ∧
      ((∃ src dst ty s₂, o = .var src ∧ dst = s₁.vars.resolve cx.scope.qualifier name ∧
        s₁.Typed src ty ∧ (s₁ = s₂ ∨ dst = name ∧ declare name ty .null s₁ = .ok () s₂) ∧
        s₂.Typed dst ty ∧ emit (Block.assign dst src) s₂ = .ok () t) ∨
        ∃ ty, o = .type ty ∧ declare name ty .null s₁ = .ok () t) := by
  simp only [assignName, bind_eq_ok, resolve_eq_ok] at h
  obtain ⟨o, s₁, ho, dst, _, ⟨hdst, rfl⟩, h⟩ := h
  refine ⟨o, s₁, ho, ?_⟩
  have hnew {ty s₂} (hd : declare dst ty .null s₁ = .ok () s₂) : dst = name := by
    obtain ⟨vs, hd, -⟩ := declare_eq_ok.mp hd
    rw [← hdst]
    exact Variables.resolve_of_unknown (hdst ▸ (Variables.declare_eq_ok hd).1)
  cases o with
  | nothing =>
      simp only [bind_eq_ok, contains_eq_ok] at h
      obtain ⟨known, _, ⟨-, rfl⟩, h⟩ := h
      cases known with
      | true => exact (reject_eq_ok.mp h).elim
      | false =>
          -- no variable has the type of what has no value
          obtain ⟨vs, hd, -⟩ := declare_eq_ok.mp h
          cases (Variables.declare_eq_ok hd).2.1
  | type ty => exact .inr ⟨ty, rfl, hnew h ▸ h⟩
  | var src =>
      obtain ⟨s₀, _, ho⟩ := expr_eq_ok ho
      obtain ⟨ty, hsrc⟩ := exists_type (lowerExpr_contains ho)
      simp only [bind_eq_ok, typeOf_eq_ok, get_eq_ok] at h
      obtain ⟨ty', _, ⟨hty, rfl⟩, _, _, ⟨rfl, rfl⟩, h⟩ := h
      obtain rfl := hsrc.typeOf hty
      cases hch : s₁.vars.check dst ty' with
      | differs =>
          simp only [hch, bind_eq_ok, reject_eq_ok, false_and, and_false, exists_false] at h
      | agrees =>
          rw [hch] at h
          exact .inl ⟨src, dst, ty', s₁, rfl, hdst.symm, hsrc, .inl rfl, .of_check hch, h⟩
      | unknown =>
          rw [hch] at h
          obtain ⟨_, s₂, hd, h⟩ := bind_eq_ok.mp h
          exact .inl ⟨src, dst, ty', s₂, rfl, hdst.symm, hsrc, .inr ⟨hnew hd, hnew hd ▸ hd⟩,
            (declare_learns hd).2, h⟩

theorem assignName_eq_ok {name : String} {e : Expr} {u : Unit}
    (h : assignName cx name e s = .ok u t) :
    ∃ o s₁, expr cx e s = .ok o s₁ ∧
      ((∃ src dst ty, o = .var src ∧ dst = s₁.vars.resolve cx.scope.qualifier name ∧
        s₁.Typed src ty ∧ Emits s₁ t (Block.assign dst src) ∧ t.Typed dst ty) ∨
        (∃ ty, o = .type ty) ∧ Still s₁ t) := by
  obtain ⟨o, s₁, ho, ⟨src, dst, ty, s₂, rfl, hdst, hsrc, hd, hty, hem⟩ | ⟨ty, rfl, hd⟩⟩ :=
    assignName_steps h
  · have em := emit_emits hem
    refine ⟨_, s₁, ho, .inl ⟨src, dst, ty, rfl, hdst, hsrc, ?_, hty.moves em.moves⟩⟩
    obtain rfl | ⟨-, hd⟩ := hd
    · exact em
    · exact (declare_emits hd).skip em
  · have hdecl : Along Still (declare name ty .null) := .declare trivial
    exact ⟨_, s₁, ho, .inr ⟨⟨ty, rfl⟩, hdecl.of_ok hd⟩⟩

theorem dataInit_eq_ok {q : Pos} {name : String} {e : Expr} {b : Bool}
    (h : dataInit (.name q name) e s = .ok b t) :
    (b = false ∧ s = t) ∨ b = true ∧ ∃ ty init, declare name ty init s = .ok () t := by
  simp only [dataInit, bind_eq_ok, contains_eq_ok] at h
  obtain ⟨known, _, ⟨-, rfl⟩, h⟩ := h
  split at h
  · obtain ⟨rfl, rfl⟩ := pure_eq_ok.mp h
    exact .inl ⟨rfl, rfl⟩
  · obtain ⟨found, _, hacc, h⟩ := bind_eq_ok.mp h
    obtain ⟨-, rfl⟩ := accept_eq_ok.mp hacc
    cases found with
    | none =>
        obtain ⟨rfl, rfl⟩ := pure_eq_ok.mp h
        exact .inl ⟨rfl, rfl⟩
    | some v =>
        obtain ⟨_, u, hd, hp⟩ := bind_eq_ok.mp h
        obtain ⟨rfl, rfl⟩ := pure_eq_ok.mp hp
        exact .inr ⟨rfl, v.1, v.2, hd⟩

theorem returnValue_eq_ok {ret : Ty} {e : Expr} {u : Unit} (h : returnValue cx ret e s = .ok u t) :
    ∃ s₁ x s₂, Emits s s₁ (Block.popInto Names.returnAddress) ∧ value cx e s₁ = .ok x s₂ ∧
    s₂.Typed x ret ∧
      Emits s₂ t (Block.exit Names.returnAddress (some x)) := by
  obtain ⟨s₁, x, s₂, hpop, hx, hty, hexit⟩ := returnValue_steps h
  exact ⟨s₁, x, s₂, emit_emits hpop, hx, hty, emit_emits hexit⟩

theorem markAll_quiet {names : List String} {u : Unit}
    (h : (modify fun s => { s with vars := names.foldl Variables.markExported s.vars } : Lower Unit)
      s = .ok u t) :
    Quiet s t := by
  have hstill : Still s t := (Along.markAll names).of_ok h
  obtain rfl := modify_eq_ok.mp h
  refine ⟨hstill.emits, ?_, rfl⟩
  have hmark (vs : Variables) : (names.foldl Variables.markExported vs).declared = vs.declared := by
    clear h hstill
    induction names generalizing vs with
    | nil => rfl
    | cons name names ih => rw [List.foldl_cons, ih, Variables.declared_markExported]
  exact hmark s.vars

end Lower

theorem Module.Runs.returnValue {c : Catalog} {m : Module} {fs : Functions} {k : Nat} {st : Stmt}
    {s t : Draft} {q : Pos} {e : Expr} {ret : Ty} (h : m.Runs c fs k st (.ret q (some e)) s t)
    (hp : st.place c = .function ret) :
    ∃ s₀, Emits s s₀ [] ∧ Lower.returnValue ⟨c, fs, st.scope c⟩ ret e s₀ = .ok () t := by
  have hr := h.runs
  rw [Lower.stmt, Lower.noted, Lower.lowerStmt] at hr
  obtain ⟨_, s₀, hn, hr⟩ := Lower.bind_eq_ok.mp hr
  refine ⟨s₀, Lower.note_emits hn, ?_⟩
  rw [← st.place_scope c] at hp
  simp only [Lower.lowerReturn, hp] at hr
  split at hr
  · exact (Lower.reject_eq_ok.mp hr).elim
  · exact hr

namespace Module.Layout

open Lower

variable {c : Catalog} {m : Module} {p : Program} {fs : Functions} {d : Nat → Draft}
  (L : Layout c m p fs d) {k : Nat} {st x : Stmt} {s t : Draft} {e : Expr}
include L

theorem acts_value {y : String} (h : value ⟨c, fs, st.scope c⟩ e s = .ok y t) (he : st.Holds e)
    (hd : m.During c k st s t) : m.Acts c fs (d m.body.length) k st s t := by
  obtain ⟨s₁, hn, h⟩ := value_eq_ok h
  exact .head (.quiet (note_quiet hn))
    (L.acts_lowerExpr ⟨he, hd.narrow (note_emits hn).moves .refl, h⟩)

theorem acts_expr {o : Operand} (h : expr ⟨c, fs, st.scope c⟩ e s = .ok o t) (he : st.Holds e)
    (hd : m.During c k st s t) : m.Acts c fs (d m.body.length) k st s t := by
  obtain ⟨s₁, hn, h⟩ := expr_eq_ok h
  exact .head (.quiet (note_quiet hn))
    (L.acts_lowerExpr ⟨he, hd.narrow (note_emits hn).moves .refl, h⟩)

theorem acts_assignment {target : Expr} (h : m.Runs c fs k st x s t)
    (hx : x.assignment? = some (target, e)) :
    m.Acts c fs (d m.body.length) k st s t := by
  obtain ⟨hl, ho⟩ := Stmt.assignment?_eq_some hx
  have hr := h.runs
  rw [stmt, noted, hl] at hr
  obtain ⟨_, s₀, hn, hr⟩ := bind_eq_ok.mp hr
  have en := note_emits hn
  have hd := h.during.narrow en.moves .refl
  have hF := (L.moves_during h.during).2
  have hop {e'} (he : e' ∈ target.accessors ++ [e]) : st.Holds e' := h.stands.holds (ho ▸ he)
  refine .head (.quiet (note_quiet hn)) ?_
  cases target with
  | name q name =>
      obtain ⟨o, s₁, hv, ⟨src, dst, ty, s₂, rfl, hdst, hsrc, hdecl, hty, hem⟩ | ⟨ty, rfl, hdecl⟩⟩ :=
        assignName_steps hr
      · have em := emit_emits hem
        have hname : m.Acts c fs (d m.body.length) k st s₁ s₂ := by
          obtain rfl | ⟨-, hdecl⟩ := hdecl
          · exact .refl
          · exact .single (.name h.stands hx hdecl)
        have hsrc₂ := hsrc.moves hname.moves
        have hset : m.Acts c fs (d m.body.length) k st s₂ t := by
          have hF₂ := em.moves.trans hF
          refine .single
            (.code [src, dst] ⟨.assign h hx (hty.moves hF₂) (hsrc₂.moves hF₂) em.code, ?_, ?_,
              by simp⟩ hem)
          · exact List.forall_mem_cons.mpr
              ⟨hsrc₂.contains, List.forall_mem_singleton.mpr hty.contains⟩
          · exact fun _ => ⟨[src], dst, rfl, .name h.stands hx (hdst ▸ Variables.resolve_cases ..)⟩
        have hd₁ := hd.narrow .refl (hname.moves.trans em.moves)
        exact (L.acts_expr hv (hop (by simp)) hd₁).trans (hname.trans hset)
      · have hd₁ := hd.narrow .refl (declare_emits hdecl).moves
        exact (L.acts_expr hv (hop (by simp)) hd₁).tail (.name h.stands hx hdecl)
  | subscript q container index =>
      simp only [assign, bind_eq_ok, located_eq_ok, pure_eq_ok] at hr
      obtain ⟨a, s₁, ha, i, s₂, hi, b, s₃, hb, _, s₄, hm, _, rfl⟩ := hr
      have m₁ : Moves s₀ s₁ := (Along.value _).of_ok ha
      have m₂ : Moves s₁ s₂ := (Along.value _).of_ok hi
      have m₃ : Moves s₂ s₃ := (Along.value _).of_ok hb
      have m₄ : Moves s₃ s₄ := (Along.methodCall _ _ _).of_ok hm
      have hs₀ := (L.moves_during hd).1
      have hc : ∀ y ∈ [a, i, b], s₃.vars.contains y := by
        simp only [List.forall_mem_cons]
        exact ⟨Moves.contains (m₂.trans m₃) (value_contains ha),
          Moves.contains m₃ (value_contains hi), value_contains hb, List.forall_mem_nil _⟩
      have h₁ :=
        L.acts_value ha (hop (by simp [Expr.accessors])) (hd.narrow .refl (m₂.trans (m₃.trans m₄)))
      have h₂ := L.acts_value hi (hop (by simp [Expr.accessors])) (hd.narrow m₁ (m₃.trans m₄))
      have h₃ := L.acts_value hb (hop (by simp)) (hd.narrow (m₁.trans m₂) m₄)
      have h₄ : m.Acts c fs (d m.body.length) k st s₃ s₄ :=
        acts_methodCall hc (hs₀.trans (m₁.trans (m₂.trans m₃))) hm hF
      exact h₁.trans (h₂.trans (h₃.trans h₄))
  | _ => exact (reject_eq_ok.mp (located_eq_ok.mp hr)).elim

theorem acts_plain (hp : x.isPlain) (h : m.Runs c fs k st x s t) :
    m.Acts c fs (d m.body.length) k st s t := by
  cases hx : x.assignment? with
  | some a => exact L.acts_assignment h hx
  | none =>
      have hr := h.runs
      rw [stmt, noted] at hr
      obtain ⟨_, s₀, hn, hr⟩ := bind_eq_ok.mp hr
      have hd := h.during.narrow (note_emits hn).moves .refl
      refine .head (.quiet (note_quiet hn)) ?_
      cases x with
      | branch | loop | ret => cases hp
      | assign | update => cases hx
      | eval p e =>
          have he : st.Holds e := h.stands.holds (List.mem_singleton_self e)
          rw [lowerStmt, effects.eq_def] at hr
          split at hr
          · simp only [bind_eq_ok, located_eq_ok, pure_eq_ok] at hr
            obtain ⟨o, _, hv, _, rfl⟩ := hr
            exact L.acts_lowerExpr ⟨he, hd, hv⟩
          · simp only [bind_eq_ok, pure_eq_ok] at hr
            obtain ⟨o, _, hv, _, rfl⟩ := hr
            exact L.acts_expr hv he hd
      | global p names => rw [lowerStmt] at hr; exact .single (.quiet (markAll_quiet hr))
      | imports | importsFrom | pass =>
          rw [lowerStmt] at hr
          obtain ⟨_, rfl⟩ := pure_eq_ok.mp hr
          exact .refl
      | define | forLoop | breakLoop | continueLoop | other =>
          rw [lowerStmt] at hr; exact (reject_eq_ok.mp hr).elim

theorem piece_origin {vs : Variables} {front : List Instr} (h : vs.contains Names.returnAddress) :
    m.Piece c fs (d m.body.length) k st vs front [Names.returnAddress] .copy :=
  ⟨.origin (L.returnAddress_typed le_rfl), List.forall_mem_singleton.mpr h,
    fun _ => ⟨[], _, rfl, .back⟩, by simp⟩

theorem acts_return (hd : m.During c k st s t)
    (h : emit (Block.ret Names.returnAddress none) s = .ok () t) :
    m.Acts c fs (d m.body.length) k st s t := by
  have hk := L.frame_known hd _ List.mem_cons_self
  exact acts_of_pieces
    (.append (.single _ _ (L.piece_origin hk)) (.single [] _ ⟨.back, by simp, by simp, by simp⟩)) h

theorem acts_ret {q : Pos} {e : Option Expr} (h : m.Runs c fs k st (.ret q e) s t) :
    m.Acts c fs (d m.body.length) k st s t := by
  have hr := h.runs
  rw [stmt, noted, lowerStmt] at hr
  obtain ⟨_, s₀, hn, hr⟩ := bind_eq_ok.mp hr
  cases hp : (st.scope c).place with
  | module => simp only [lowerReturn, hp, reject_eq_ok] at hr
  | event =>
      cases e with
      | some e => simp only [lowerReturn, hp, reject_eq_ok] at hr
      | none =>
          simp only [lowerReturn, hp] at hr
          rw [st.place_scope c] at hp
          exact .head (.quiet (note_quiet hn))
            (.single (.code [] ⟨.halt hp, by simp, by simp, by simp⟩ hr))
  | function ret =>
      cases e with
      | none =>
          simp only [lowerReturn, hp] at hr
          split at hr
          · exact .head (.quiet (note_quiet hn))
              (L.acts_return (h.during.narrow (note_emits hn).moves .refl) hr)
          · exact (reject_eq_ok.mp hr).elim
      | some e =>
          simp only [lowerReturn, hp] at hr
          split at hr
          · exact (reject_eq_ok.mp hr).elim
          · rw [st.place_scope c] at hp
            obtain ⟨s₁, y, s₂, hpop, hy, hty, hexit⟩ := returnValue_steps hr
            have en := note_emits hn
            have ep := emit_emits hpop
            have ee := emit_emits hexit
            have hF := (L.moves_during h.during).2
            have hk := L.frame_known (h.during.narrow en.moves .refl) _ List.mem_cons_self
            have hval := L.acts_value hy (h.stands.holds (by simp [Stmt.operands]))
              (h.during.narrow (en.moves.trans ep.moves) ee.moves)
            have hend : m.Act c fs (d m.body.length) k st s₂ t := by
              refine .code [y] ⟨.value h hp (hty.moves (ee.moves.trans hF)) ee.code, ?_,
                by simp, by simp⟩ hexit
              exact List.forall_mem_singleton.mpr hty.contains
            exact .head (.quiet (note_quiet hn))
              (.head (.code _ (L.piece_origin hk) hpop) (hval.tail hend))

theorem acts_condition {test : Expr} {y : String}
    (h : condition ⟨c, fs, st.scope c⟩ test s = .ok y t) (he : st.Holds test)
    (hd : m.During c k st s t) :
    m.Acts c fs (d m.body.length) k st s t ∧ t.Typed y .boolean := by
  simp only [condition, bind_eq_ok, typeOf_eq_ok] at h
  obtain ⟨y', s₁, hy, ty, _, ⟨hty, rfl⟩, h⟩ := h
  split at h
  case isFalse => exact (reject_eq_ok.mp (located_eq_ok.mp h)).elim
  case isTrue hb =>
    obtain ⟨rfl, rfl⟩ := pure_eq_ok.mp h
    obtain ⟨ty', hty'⟩ := exists_type (value_contains hy)
    obtain rfl := hty'.typeOf hty
    exact ⟨L.acts_value hy he hd, hb ▸ hty'⟩

omit L in
theorem act_test {y : String} {l : Nat} (hy : s.Typed y .boolean) (hl : (d m.body.length).Private l)
    (hF : Moves t (d m.body.length)) (h : emit (Block.branchUnless y l) s = .ok () t) :
    m.Act c fs (d m.body.length) k st s t := by
  have ht := hy.moves ((emit_emits h).moves.trans hF)
  exact .code [y] ⟨.test ht hl, List.forall_mem_singleton.mpr hy.contains, by simp, by simp⟩ h

theorem acts_branchHead {test : Expr} {labels : Nat × Nat}
    (h : branchHead ⟨c, fs, st.scope c⟩ test s = .ok labels t) (he : st.Holds test)
    (hd : m.During c k st s t) :
    m.Acts c fs (d m.body.length) k st s t ∧ (d m.body.length).Private labels.2 := by
  obtain ⟨hs, hF⟩ := L.moves_during hd
  obtain ⟨_, _, _, hx⟩ := branchHead_emits h (Moves.numbered hs numbered_empty)
  obtain ⟨_, h₁, h₂⟩ := hx _ hF
  refine ⟨?_, h₂⟩
  simp only [branchHead, bind_eq_ok, pure_eq_ok] at h
  obtain ⟨l₁, u₁, hl₁, l₂, u₂, hl₂, y, u₃, hy, _, u₄, hem, rfl, rfl⟩ := h
  have q₂ := (freshLabel_quiet hl₁).trans (freshLabel_quiet hl₂)
  obtain ⟨hc, hty⟩ := L.acts_condition hy he (hd.narrow q₂.emits.moves (emit_emits hem).moves)
  exact .head (.quiet q₂) (hc.tail (act_test hty h₁ hF hem))

theorem acts_loopHead {test : Expr} {labels : Nat × Nat}
    (h : loopHead ⟨c, fs, st.scope c⟩ test s = .ok labels t) (he : st.Holds test)
    (hd : m.During c k st s t) :
    m.Acts c fs (d m.body.length) k st s t ∧ (d m.body.length).Private labels.1 := by
  obtain ⟨hs, hF⟩ := L.moves_during hd
  obtain ⟨_, _, _, _, hx⟩ := loopHead_emits h (Moves.numbered hs numbered_empty)
  obtain ⟨_, h₁, h₂⟩ := hx _ hF
  refine ⟨?_, h₁⟩
  simp only [loopHead, bind_eq_ok, pure_eq_ok] at h
  obtain ⟨l₁, u₁, hl₁, l₂, u₂, hl₂, _, u₃, hb, y, u₄, hy, _, u₅, hem, rfl, rfl⟩ := h
  have q₃ := (freshLabel_quiet hl₁).trans ((freshLabel_quiet hl₂).trans (bindLabel_quiet hb))
  obtain ⟨hc, hty⟩ := L.acts_condition hy he (hd.narrow q₃.emits.moves (emit_emits hem).moves)
  exact .head (.quiet q₃) (hc.tail (act_test hty h₂ hF hem))

omit L in
theorem acts_turn {l l' : Nat} (hl : (d m.body.length).Private l)
    (h : (do emit (Block.goto l); bindLabel l' : Lower Unit) s = .ok () t) :
    m.Acts c fs (d m.body.length) k st s t := by
  obtain ⟨_, u, hem, hb⟩ := bind_eq_ok.mp h
  exact .head (.code [] ⟨.goto hl, by simp, by simp, by simp⟩ hem)
    (.single (.quiet (bindLabel_quiet hb)))

theorem acts_lowered {ss : List Stmt} (h : Lowered ⟨c, fs, st.scope c⟩ ss s t)
    (hst : ∀ x ∈ ss, st.Includes x) (hd : m.During c k st s t) :
    m.Acts c fs (d m.body.length) k st s t := by
  induction h with
  | nil s => exact .refl
  | plain hp h hr ih =>
      rw [List.forall_mem_cons] at hst
      have hm : Moves _ _ := (lowered_stmt h).along
      exact (L.acts_plain hp ⟨hst.1, hd.narrow .refl hr.along, h⟩).trans
        (ih hst.2 (hd.narrow hm .refl))
  | leave h hr ih =>
      rw [List.forall_mem_cons] at hst
      have hm : Moves _ _ := (lowered_stmt h).along
      exact (L.acts_ret ⟨hst.1, hd.narrow .refl hr.along, h⟩).trans (ih hst.2 (hd.narrow hm .refl))
  | @branch q test body orelse ss s s₀ s₁ s₂ s₃ s₄ t u labels entry hn hh hb ht ho he hr
      ihb iho ihr =>
      rw [List.forall_mem_cons] at hst
      have hpart {x : Stmt} (hx : x ∈ body ++ orelse) : st.Includes x := hst.1.tail hx
      have en := note_emits hn
      have et := (branchTurn_emits ht).1
      have ee := (bindLabel_emits he).1
      have m₁ : Moves s₀ s₁ := (branchHead_shelters hh).1.moves
      have m₂ : Moves s₁ s₂ := hb.along
      have m₄ : Moves s₃ s₄ := ho.along
      have mu : Moves s₄ u := ee.moves.trans hr.along
      have ms₁ : Moves s s₁ := en.moves.trans m₁
      have ms₃ : Moves s s₃ := ms₁.trans (m₂.trans et.moves)
      have m₃u : Moves s₃ u := m₄.trans mu
      have m₁u : Moves s₁ u := m₂.trans (et.moves.trans m₃u)
      obtain ⟨hhead, hl⟩ :=
        L.acts_branchHead hh (hst.1.holds (List.mem_singleton_self test)) (hd.narrow en.moves m₁u)
      have hbody :=
        ihb (fun x hx => hpart (List.mem_append_left _ hx)) (hd.narrow ms₁ (et.moves.trans m₃u))
      have hother := iho (fun x hx => hpart (List.mem_append_right _ hx)) (hd.narrow ms₃ mu)
      have hrest := ihr hst.2 (hd.narrow (ms₃.trans (m₄.trans ee.moves)) .refl)
      exact .head (.quiet (note_quiet hn)) (hhead.trans (hbody.trans ((acts_turn hl ht).trans
        (hother.trans (.head (.quiet (bindLabel_quiet he)) hrest)))))
  | @loop q test body ss s s₀ s₁ s₂ t u labels entry hn hh hb ht hr ihb ihr =>
      rw [List.forall_mem_cons] at hst
      have hpart {x : Stmt} (hx : x ∈ body ++ []) : st.Includes x := hst.1.tail hx
      have en := note_emits hn
      have et := (loopTail_emits ht).1
      have m₁ : Moves s₀ s₁ := (loopHead_shelters hh).1.moves
      have m₂ : Moves s₁ s₂ := hb.along
      have m₂u : Moves s₂ u := et.moves.trans hr.along
      have ms₁ : Moves s s₁ := en.moves.trans m₁
      obtain ⟨hhead, hl⟩ := L.acts_loopHead hh (hst.1.holds (List.mem_singleton_self test))
        (hd.narrow en.moves (m₂.trans m₂u))
      have hbody := ihb (fun x hx => hpart (List.mem_append_left _ hx)) (hd.narrow ms₁ m₂u)
      have hrest := ihr hst.2 (hd.narrow (ms₁.trans (m₂.trans et.moves)) .refl)
      exact .head (.quiet (note_quiet hn))
        (hhead.trans (hbody.trans ((acts_turn hl ht).trans hrest)))

end Module.Layout

namespace Module.Layout

open Lower

variable {c : Catalog} {m : Module} {p : Program} {fs : Functions} {d : Nat → Draft}
  (L : Layout c m p fs d) {k : Nat} {st : Stmt} {s t : Draft} {q : Pos} {name : String}
  {params : List Param} {returns : Option String} {body : List Stmt}
include L

theorem during (hk : m.body[k]? = some st) (hs : Moves (d k) s) (ht : Moves t (d (k + 1))) :
    m.During c k st s t := ⟨d k, d (k + 1), L.spans_iff.mpr ⟨hk, rfl, rfl⟩, hs, ht⟩

theorem slots_known {slot : Slot} {param : Param}
    (hk : m.body[k]? = some (.define q name params returns body)) (he : Names.isEvent name)
    (hs : (slot, param) ∈ ((c.event? name).getD []).zip params) :
    (d k).vars.contains slot.name ∧ (d k).vars.contains (Names.qualify name param.name) := by
  have hle := (List.getElem?_eq_some_iff.mp hk).1.le
  have hst := List.mem_of_getElem? hk
  cases hev : c.event? name with
  | none => rw [hev] at hs; cases hs
  | some slots =>
      rw [hev, Option.getD_some] at hs
      obtain ⟨hslot, hparam⟩ := List.of_mem_zip hs
      have hty := (List.forall₂_iff_zip.mp (L.annotated hst he hev)).2 hs
      have hknown := lookup_announces hst (mem_slots he hev hslot)
      obtain ⟨ty, hx⟩ := Option.isSome_iff_exists.mp hknown
      exact ⟨((L.typed_iff hknown hle).mpr hx).contains,
        (L.locals hst (mem_locals he hparam hty) hle).contains⟩

theorem acts_slots (hk : m.body[k]? = some (.define q name params returns body))
    (he : Names.isEvent name) (hs : Moves (d k) s)
    (h : emit (receiveSlots c name params) s = .ok () t) :
    m.Acts c fs (d m.body.length) k (.define q name params returns body) s t := by
  have hscope : Stmt.scope c (.define q name params returns body) = .event name := by
    rw [Stmt.scope, Stmt.function?, if_pos he]
  refine acts_of_pieces (.flatMap
    (fun v hv front => .single [v.1.name, _] .copy ⟨.slot rfl he hv, ?_, ?_, by simp⟩) _) h
  · obtain ⟨hslot, hparam⟩ := L.slots_known hk he hv
    exact List.forall_mem_cons.mpr
      ⟨hs.contains hslot, List.forall_mem_singleton.mpr (hs.contains hparam)⟩
  · refine fun _ =>
      ⟨[v.1.name], _, rfl, .param (List.mem_map.mpr ⟨v.2, (List.of_mem_zip hv).2, ?_⟩)⟩
    rw [hscope]
    rfl

theorem acts_event (hk : m.body[k]? = some (.define q name params returns body))
    (he : Names.isEvent name) (h : event c fs name params body (d k) = .ok () (d (k + 1))) :
    m.Acts c fs (d m.body.length) k (.define q name params returns body) (d k) (d (k + 1)) := by
  have hn : Stmt.function? c (.define q name params returns body) = none := by
    rw [Stmt.function?, if_pos he]
  have hplace : Stmt.place c (.define q name params returns body) = .event := by
    rw [Stmt.place, hn]; rfl
  have hscope : Stmt.scope c (.define q name params returns body) = .event name := by
    rw [Stmt.scope, hn]
  simp only [event, bind_eq_ok] at h
  obtain ⟨_, u₁, h₁, _, u₂, h₂, _, s₁, h₃, _, s₂, hb, h₄⟩ := h
  have e₁ := emit_emits h₁
  have e₂ := e₁.trans (emit_emits h₂)
  rw [← hscope] at hb
  have hbody := L.acts_lowered (lowered_block hb) (fun x hx => .single hx)
    (L.during hk (e₂.trans (emit_emits h₃)).moves (emit_emits h₄).moves)
  have hret := e₁.moves.contains (L.known (List.getElem?_eq_some_iff.mp hk).1.le).1
  have hstart : m.Acts c fs (d m.body.length) k (.define q name params returns body) u₁ u₂ :=
    acts_of_pieces (.append (.single [] _ ⟨.start, by simp, by simp, by simp⟩)
      (.single [_] _ (L.piece_origin hret))) h₂
  refine .head (.code [] ⟨.head name, by simp, by simp, by simp⟩ h₁) ?_
  exact hstart.trans ((L.acts_slots hk he e₂.moves h₃).trans
    (hbody.tail (.code [] ⟨.halt hplace, by simp, by simp, by simp⟩ h₄)))

theorem acts_function {f : Function} (hk : m.body[k]? = some (.define q name params returns body))
    (hf : Stmt.function? c (.define q name params returns body) = some f)
    (h : function c fs name params returns body (d k) = .ok () (d (k + 1))) :
    m.Acts c fs (d m.body.length) k (.define q name params returns body) (d k) (d (k + 1)) := by
  have hscope : Stmt.scope c (.define q name params returns body) =
      .function (Names.functionId f.name f.types) f.ret f.params := by rw [Stmt.scope, hf]
  have hle := (List.getElem?_eq_some_iff.mp hk).1.le
  have hmem := L.mem_functions hk hf
  obtain ⟨l, u₁, u₂, s₁, s₂, hl, hb, hp, hy, hr⟩ := function_eq_ok hf (L.distinct.find? hmem) h
  have q₂ := (namedLabel_quiet hl).trans (bindLabel_quiet hb)
  have ep := emit_emits hp
  rw [← hscope] at hy
  have m₁ := q₂.emits.moves.trans ep.moves
  have hbody := L.acts_lowered (lowered_block hy) (fun x hx => .single hx)
    (L.during hk m₁ (emit_emits hr).moves)
  obtain ⟨hlen, htyped⟩ := List.forall₂_iff_zip.mp (L.params hmem le_rfl)
  have hreceive : m.Acts c fs (d m.body.length) k (.define q name params returns body) u₂ s₁ := by
    refine acts_of_pieces
      (.popIntoAll (fun y hy front => ⟨?_, ?_, fun _ => ⟨[], y, rfl, .param ?_⟩, by simp⟩) _) hp
    · rw [← List.map_fst_zip hlen.le] at hy
      obtain ⟨⟨_, ty⟩, hv, rfl⟩ := List.mem_map.mp hy
      exact .receive hf hv (htyped hv)
    · exact List.forall_mem_singleton.mpr (q₂.emits.moves.contains ((L.known hle).2 f hmem y hy))
    · rwa [Stmt.paramVars_eq hf]
  have m₂ : Moves s₁ s₂ := (lowered_block hy).along
  exact .head (.quiet q₂)
    (hreceive.trans (hbody.trans (L.acts_return (L.during hk (m₁.trans m₂) .refl) hr)))

omit L in
theorem acts_dataInit {target e : Expr} {b : Bool} (h : dataInit target e s = .ok b t) :
    m.Acts c fs (d m.body.length) k (.assign q target e) s t := by
  cases target with
  | name q' x =>
      obtain ⟨-, rfl⟩ | ⟨-, ty, init, hd⟩ := dataInit_eq_ok h
      · exact .refl
      · exact .single (.name .refl rfl hd)
  | _ =>
      obtain ⟨_, rfl⟩ := pure_eq_ok.mp h
      exact .refl

theorem acts (hk : m.body[k]? = some st) :
    m.Acts c fs (d m.body.length) k st (d k) (d (k + 1)) := by
  have hlt := (List.getElem?_eq_some_iff.mp hk).1
  have h := topLevel_of_lowered (L.lowered k hlt.le) (L.lowered (k + 1) hlt) hk
  have hloose {s : Draft} (hs : st.scope c = .module) (hm : Moves (d k) s)
      (h : stmt ⟨c, fs, .module⟩ st s = .ok () (d (k + 1))) :
      m.Acts c fs (d m.body.length) k st s (d (k + 1)) := by
    rw [← hs] at h
    exact L.acts_lowered (lowered_stmt h) (List.forall_mem_singleton.mpr .refl)
      (L.during hk hm .refl)
  cases st with
  | define q name params returns body =>
      rw [topLevel] at h
      split at h
      case isTrue he => exact L.acts_event hk he h
      case isFalse he =>
        obtain ⟨f, hf⟩ := function?_of_ok he h
        exact L.acts_function hk (hf q) h
  | assign q target e =>
      rw [topLevel] at h
      obtain ⟨b, s₁, hi, h⟩ := bind_eq_ok.mp h
      have hdata : m.Acts c fs (d m.body.length) k (.assign q target e) (d k) s₁ := acts_dataInit hi
      cases b with
      | true =>
          obtain ⟨_, rfl⟩ := pure_eq_ok.mp h
          exact hdata
      | false => exact hdata.trans (hloose rfl hdata.moves h)
  | _ => exact hloose rfl .refl h

theorem adds (hk : m.body[k]? = some st) :
    Adds (m.Purpose c fs (d m.body.length) k st) (d k) (d (k + 1)) :=
  (L.acts hk).adds (L.moves (List.getElem?_eq_some_iff.mp hk).1 le_rfl)

end Module.Layout

namespace Module.Layout

variable {c : Catalog} {m : Module} {p : Program} {fs : Functions} {d : Nat → Draft}
  (L : Layout c m p fs d)
include L

/-- Each instruction belongs to the code of one statement. -/
theorem exists_region {k : Nat} {front rest : List Instr} {i : Instr} (hk : k ≤ m.body.length)
    (hc : (d k).code = front ++ i :: rest) :
    ∃ j st pre post, m.body[j]? = some st ∧ front = (d j).code ++ pre ∧
      Emits (d j) (d (j + 1)) (pre ++ i :: post) := by
  induction k generalizing rest with
  | zero =>
      rw [L.code_zero] at hc
      simp at hc
  | succ k ih =>
      have hst := List.getElem?_eq_getElem hk
      obtain ⟨code, e, -⟩ := L.placed hst
      rw [e.code] at hc
      obtain ⟨pre, hfront, hcode⟩ | ⟨pre, hcode, hrest⟩ := List.append_eq_append_iff.mp hc
      · subst hcode
        exact ⟨k, _, pre, rest, hst, hfront, e⟩
      · cases pre with
        | nil =>
            subst hrest
            exact ⟨k, _, [], rest, hst, by simpa using hcode.symm, e⟩
        | cons j pre =>
            cases hrest
            exact ih (Nat.le_of_succ_le hk) hcode

theorem complete {k : Nat} (hk : k ≤ m.body.length) : Code.Complete (d k).code := by
  induction k with
  | zero =>
      rw [L.code_zero]
      exact Code.complete_nil
  | succ k ih =>
      obtain ⟨code, e, hp⟩ := L.adds (List.getElem?_eq_getElem hk)
      rw [e.code]
      exact hp.complete Purpose.ne_push (ih (Nat.le_of_succ_le hk))

/-- Each instruction of a compiled module that is no push has a purpose, on the variables that are
pushed just before it and on no others. -/
theorem purpose {front rest : List Instr} {i : Instr}
    (hc : (d m.body.length).code = front ++ i :: rest) (hi : ∀ x, i ≠ .push x) :
    ∃ k st pre xs post, m.body[k]? = some st ∧ front = (d k).code ++ (pre ++ Block.pushAll xs) ∧
      Emits (d k) (d (k + 1)) ((pre ++ Block.pushAll xs) ++ i :: post) ∧
      Code.Complete ((d k).code ++ pre) ∧
      m.Purpose c fs (d m.body.length) k st ((d k).code ++ pre) xs i := by
  obtain ⟨k, st, pre, post, hk, rfl, e⟩ := L.exists_region le_rfl hc
  obtain ⟨code, e', hp⟩ := L.adds hk
  obtain rfl : code = pre ++ i :: post := List.append_cancel_left (e'.code.symm.trans e.code)
  obtain ⟨before, xs, rfl, hb, h⟩ := hp.split hi
  refine ⟨k, st, before, xs, post, hk, rfl, e, ?_, h⟩
  exact hb.complete Purpose.ne_push (L.complete (List.getElem?_eq_some_iff.mp hk).1.le)

end Module.Layout
end StackScript
