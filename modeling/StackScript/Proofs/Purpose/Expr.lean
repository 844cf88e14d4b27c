import StackScript.Proofs.Purpose.Acts

namespace StackScript

open Draft

namespace Lower

variable {c : Catalog} {m : Module} {fs : Functions} {F : Draft} {k : Nat} {st : Stmt}
  {s t u v : Draft} {o : Operand} {x member : String} {xs : List String}

theorem lowerValues_contains {cx : Context} {es : List Expr} (h : lowerValues cx es s = .ok xs t) :
    ∀ x ∈ xs, t.vars.contains x := by
  induction es generalizing s xs with
  | nil =>
      obtain ⟨rfl, rfl⟩ := pure_eq_ok.mp h
      exact List.forall_mem_nil _
  | cons e es ih =>
      simp only [lowerValues, bind_eq_ok, pure_eq_ok] at h
      obtain ⟨x, u, hx, xs, w, hxs, rfl, rfl⟩ := h
      have hm : Moves u w := (Along.lowerValues es).of_ok hxs
      exact List.forall_mem_cons.mpr ⟨hm.contains (value_contains hx), ih hxs⟩

theorem acts_hostCall {f : Member} (hf : f ∈ c.members) (hx : List.Forall₂ s.Typed xs f.inputs)
    (h : hostCall ⟨c, fs, st.scope c⟩ f.toMethod xs s = .ok o t) (hF : Moves t F) :
    m.Acts c fs F k st s t := by
  obtain ⟨s₀, hn, ⟨hv, -, he⟩ | ⟨hv, y, s₁, -, hy, he⟩⟩ := hostCall_steps h
  all_goals
    have qn := note_quiet hn
    have hx₀ : List.Forall₂ s₀.Typed xs f.inputs := hx.imp fun _ _ hx => hx.moves qn.emits.moves
    refine .head (.quiet qn) ?_
  · exact .single (.run hf hv hx₀ he)
  · have hF₁ := (emit_emits he).moves.trans hF
    refine .single (.fill xs (by decide) hy (fun z hz => ?_) (.invoke hf ?_)
      (.inr ⟨f.symbol, .inl ⟨f, hf, rfl, hv⟩, rfl⟩) he)
    · obtain ⟨_, _, hz⟩ := exists_of_mem_forall₂ hx₀ hz
      exact hz.contains
    · rw [Member.operands, if_neg (by simp [hv])]
      refine List.rel_append (hx₀.imp fun _ _ hx => hx.moves ((generate_emits hy).moves.trans hF₁))
        (.cons ?_ .nil)
      exact (generate_agree hy).2.moves hF₁

theorem acts_operator (hx : ∀ y ∈ x :: xs, s.vars.contains y)
    (h : operator ⟨c, fs, st.scope c⟩ member x xs s = .ok o t) (hF : Moves t F) :
    m.Acts c fs F k st s t := by
  obtain ⟨tys, hx⟩ := exists_types hx
  obtain ⟨ty, tys, hx₁, hxs, rfl⟩ := List.forall₂_cons_left_iff.mp hx
  obtain ⟨_, hm, h⟩ := operator_eq_ok hx₁ hxs h
  obtain ⟨f, hf, rfl, hkind, _, _, hargs⟩ := Catalog.method?_eq_some hm
  refine acts_hostCall hf ?_ h hF
  rw [Member.inputs, if_neg (by simp [hkind]), List.nil_append, hargs]
  exact hx

theorem acts_methodCall (hx : ∀ y ∈ x :: xs, s.vars.contains y) (hs : Moves .empty s)
    (h : methodCall ⟨c, fs, st.scope c⟩ x member xs s = .ok o t) (hF : Moves t F) :
    m.Acts c fs F k st s t := by
  obtain ⟨tys, hx⟩ := exists_types hx
  obtain ⟨ty, tys, hx₁, hxs, rfl⟩ := List.forall₂_cons_left_iff.mp hx
  obtain ⟨_, hm, h⟩ := methodCall_eq_ok hx₁ hxs h
  obtain ⟨f, hf, rfl, hkind, howner, _, hargs⟩ := Catalog.method?_eq_some hm
  obtain ⟨n, rfl⟩ := hx₁.named hs
  refine acts_hostCall hf ?_ h hF
  rw [Member.inputs, if_pos hkind, howner, hargs]
  exact hx

theorem acts_staticCall {owner : String} (hx : ∀ y ∈ xs, s.vars.contains y)
    (h : staticCall ⟨c, fs, st.scope c⟩ owner member xs s = .ok o t) (hF : Moves t F) :
    m.Acts c fs F k st s t := by
  obtain ⟨tys, hx⟩ := exists_types hx
  obtain ⟨_, hm, h⟩ := staticCall_eq_ok hx h
  obtain ⟨kind, hk, hm⟩ := staticMember?_eq_some hm
  obtain ⟨f, hf, rfl, rfl, _, _, hargs⟩ := Catalog.method?_eq_some hm
  refine acts_hostCall hf ?_ h hF
  rw [Member.inputs, if_neg hk, List.nil_append, hargs]
  exact hx

theorem acts_literal {e : Expr} (h : literal ⟨c, fs, st.scope c⟩ e s = .ok o t) :
    m.Acts c fs F k st s t := by
  simp only [literal, bind_eq_ok, accept_eq_ok] at h
  obtain ⟨found, _, ⟨_, rfl⟩, h⟩ := h
  cases found with
  | none => exact (reject_eq_ok.mp h).elim
  | some v =>
      obtain ⟨x, _, hx, hp⟩ := bind_eq_ok.mp h
      obtain ⟨_, rfl⟩ := pure_eq_ok.mp hp
      exact .single (.const (by decide) hx)

theorem acts_boolean {b : Bool} (h : boolean ⟨c, fs, st.scope c⟩ b s = .ok o t) (hF : Moves t F) :
    m.Acts c fs F k st s t := by
  rw [boolean] at h
  cases hm : c.method? .static "SystemBoolean" "Parse" [.string] with
  | none => simp only [hm, reject_eq_ok] at h
  | some f =>
      simp only [hm, bind_eq_ok, pure_eq_ok] at h
      obtain ⟨text, s₁, ht, x, s₂, hx, _, _, he, _, rfl⟩ := h
      have hF₂ := (emit_emits he).moves.trans hF
      have htext := (generate_agree ht).2
      refine .head (.const (by decide) ht)
        (.single (.fill [text] (by decide) hx ?_ (.truth hm ?_ ?_)
        (.inr ⟨f.symbol, .inr ⟨f, hm, rfl⟩, rfl⟩) he))
      · exact List.forall_mem_singleton.mpr htext.contains
      · exact htext.moves ((generate_emits hx).moves.trans hF₂)
      · exact (generate_agree hx).2.moves hF₂

theorem Site.typed_args {cx : Context} {g : Function} {entry back : Nat} {r : Block.Outcome}
    (S : Site cx g x xs entry back r s u v t) (hx : ∀ y ∈ xs, s.vars.contains y) :
    List.Forall₂ s.Typed xs g.types := by
  obtain ⟨tys, hx⟩ := exists_types hx
  rwa [typesOf_unique hx S.types]

theorem lowerExpr_call {cx : Context} {name : String} {es : List Expr} (hn : name ≠ "instantiate")
    (ht : cx.catalog.isType name = false) (discard : Bool) (q q' : Pos) :
    lowerExpr cx discard (.call q (.name q' name) es) =
      lowerValues cx es >>= fun xs => userCall cx name xs discard := by
  simp [lowerExpr, plainCall, hn, ht]

/-- A call is a jump with all that the caller saves and all that the callee gets; behind it the
result is taken and what was saved comes back. -/
theorem acts_call {name : String} {es : List Expr} {xs : List String} {discard : Bool} {p q : Pos}
    (h : m.Lowers c fs k st discard (.call p (.name q name) es) o s t)
    (hes : lowerValues ⟨c, fs, st.scope c⟩ es s = .ok xs u)
    (ha : userCall ⟨c, fs, st.scope c⟩ name xs discard u = .ok o t)
    (hk : ∀ y ∈ Names.returnAddress :: (st.scope c).env, u.vars.contains y) (hF : Moves t F) :
    m.Acts c fs F k st u t := by
  obtain ⟨g, x, entry, back, r, u₁, w, u₂, v, u₃, S, rfl, _, q₁, hx, henter, q₂, hr, hleave⟩ :=
    userCall_steps ha
  have hcall : m.Calls c fs k st g x xs entry r u v :=
    ⟨discard, p, q, es, o, s, t, back, w, h, hes, S⟩
  have hw : Moves u w := S.begins.moves
  have hv : Moves u v := hw.trans S.enter.moves
  have hbefore : m.Acts c fs F k st u w := .head (.quiet q₁) (.single (.const (by decide) hx))
  have hjump : m.Acts c fs F k st w v := by
    rw [Block.enter_eq_single] at henter
    refine .head (.code _ ⟨.enter hcall ?_, fun y hy => ?_, by simp, by simp⟩ henter)
      (.single (.quiet q₂))
    · rw [S.begins.code, List.append_nil]
    · obtain hy | hy := List.mem_append.mp hy
      · exact hw.contains (hk y hy)
      · obtain rfl | hy := List.mem_cons.mp hy
        · exact generate_contains hx
        · exact hw.contains (lowerValues_contains hes y hy)
  -- the caller gets back what it has pushed
  have hback {s' : Draft} (hs : Moves u s') (front : List Instr) :
      Code.Pieces (m.Piece c fs F k st s'.vars) front
        (Block.popIntoAll (Names.returnAddress :: (st.scope c).env)) := by
    refine .popIntoAll (fun y hy front =>
      ⟨.restore hcall hy, ?_, fun _ => ⟨[], y, rfl, ?_⟩, by simp⟩) front
    · exact List.forall_mem_singleton.mpr (hs.contains (hk y hy))
    · obtain rfl | hy := List.mem_cons.mp hy
      · exact .back
      · exact .param (st.env_subset c hy)
  have hafter : m.Acts c fs F k st v t := by
    rw [Block.leave_eq] at hleave
    obtain ⟨_, rfl, rfl⟩ | ⟨_, _, rfl, rfl⟩ | ⟨_, _, y, rfl, hy⟩ := outcome_cases hr
    · exact Module.acts_of_pieces (hback hv _) hleave
    · refine Module.acts_of_pieces
        (.append (.single [] .pop ⟨.drop hcall rfl, by simp, by simp, by simp⟩) (hback hv _)) hleave
    · obtain ⟨u₄, hpop, hrest⟩ := emit_append hleave
      have ey := generate_emits hy
      have ep := emit_emits hpop
      refine .head (.fill [] (by decide) hy (by simp)
        (.result hcall rfl ((S.typed_result rfl).moves hF)) (.inl rfl) hpop) ?_
      exact Module.acts_of_pieces (hback (hv.trans (ey.skip ep).moves) _) hrest
  exact hbefore.trans (hjump.trans hafter)

theorem Applies.acts {discard : Bool} {e : Expr} {es : List Expr}
    (ha : Applies ⟨c, fs, st.scope c⟩ discard e xs o u t) (ho : e.Operands es)
    (hes : lowerValues ⟨c, fs, st.scope c⟩ es s = .ok xs u) (h : m.Lowers c fs k st discard e o s t)
    (hu : Moves .empty u) (hk : ∀ y ∈ Names.returnAddress :: (st.scope c).env, u.vars.contains y)
    (hF : Moves t F) :
    m.Acts c fs F k st u t := by
  have hx := lowerValues_contains hes
  cases ha with
  | operator ha => exact acts_operator hx ha hF
  | method hp ha => exact acts_methodCall (fun y hy => hx y (hp.subset hy)) hu ha hF
  | static ha => exact acts_staticCall hx ha hF
  | @cast _ _ _ _ z _ _ _ ht ha =>
      obtain ⟨y, u₁, rfl, hy, he⟩ := cast_steps ha
      have em := (generate_emits hy).skip (emit_emits he)
      refine .single (.fill [z] (by decide) hy hx (.cast h ht ?_ em.code) (.inl rfl) he)
      exact (generate_agree hy).2.moves ((emit_emits he).moves.trans hF)
  | user ha =>
      cases ho
      exact acts_call h hes ha hk hF

theorem acts_lowerValues {es : List Expr}
    (ih : ∀ e ∈ es, ∀ {o s t}, m.Lowers c fs k st false e o s t → m.Acts c fs F k st s t)
    (hst : ∀ e ∈ es, st.Holds e) (hd : m.During c k st s t)
    (h : lowerValues ⟨c, fs, st.scope c⟩ es s = .ok xs t) :
    m.Acts c fs F k st s t := by
  induction es generalizing s xs with
  | nil =>
      obtain ⟨_, rfl⟩ := pure_eq_ok.mp h
      exact .refl
  | cons e es ihes =>
      rw [List.forall_mem_cons] at ih hst
      simp only [lowerValues, bind_eq_ok, pure_eq_ok] at h
      obtain ⟨x, u, hx, xs, w, hxs, rfl, rfl⟩ := h
      have hu : Moves u w := (Along.lowerValues es).of_ok hxs
      obtain ⟨s₁, hn, hx⟩ := value_eq_ok hx
      have qn := note_quiet hn
      have hm : Moves s₁ u := (Along.lowerExpr false e).of_ok hx
      exact .trans (.head (.quiet qn) (ih.1 ⟨hst.1, hd.narrow qn.emits.moves hu, hx⟩))
        (ihes ih.2 hst.2 (hd.narrow (qn.emits.moves.trans hm) .refl) hxs)

end Lower

theorem Module.Lowers.site {c : Catalog} {m : Module} {fs : Functions} {k : Nat} {st : Stmt}
    {discard : Bool} {q q' : Pos} {name : String} {es : List Expr} {o : Operand} {s t : Draft}
    (h : m.Lowers c fs k st discard (.call q (.name q' name) es) o s t) (hn : name ≠ "instantiate")
    (ht : c.isType name = false) :
    ∃ g x args entry back r u w v, g.name = name ∧
    Lower.lowerValues ⟨c, fs, st.scope c⟩ es s = .ok args u ∧
      Lower.Site ⟨c, fs, st.scope c⟩ g x args entry back r u w v t ∧ ∀ y, o = .var y →
      r = .into y := by
  have hrun := h.runs
  rw [Lower.lowerExpr_call hn ht] at hrun
  obtain ⟨args, u, hargs, hcall⟩ := Lower.bind_eq_ok.mp hrun
  obtain ⟨g, x, entry, back, r, w, v, S, hname, ho⟩ := Lower.userCall_eq_ok hcall
  refine ⟨g, x, args, entry, back, r, u, w, v, hname, hargs, S, ?_⟩
  rintro y rfl
  cases r with
  | into z => cases ho; rfl
  | none | discard => cases ho

namespace Module.Layout

open Lower

variable {c : Catalog} {m : Module} {p : Program} {fs : Functions} {d : Nat → Draft}
  (L : Layout c m p fs d) {k : Nat} {st : Stmt} {s t : Draft}
include L

/-- What a call needs is known all along: the address to return to, and the parameters of
the caller. -/
theorem frame_known (h : m.During c k st s t) :
    ∀ y ∈ Names.returnAddress :: (st.scope c).env, s.vars.contains y := by
  obtain ⟨before, after, hsp, hb, _⟩ := h
  obtain ⟨hk, rfl, rfl⟩ := L.spans_iff.mp hsp
  obtain ⟨hret, hparams⟩ := L.known (List.getElem?_eq_some_iff.mp hk).1.le
  refine List.forall_mem_cons.mpr ⟨hb.contains hret, fun y hy => hb.contains ?_⟩
  cases hf : st.function? c with
  | some f =>
      have hmem := L.mem_functions hk hf
      have henv := st.env_subset c hy
      rw [Stmt.paramVars_eq hf] at henv
      exact hparams f hmem y henv
  | none =>
      cases st with
      | define => rw [Stmt.scope, hf] at hy; cases hy
      | _ => cases hy

theorem acts_lowerExpr {discard : Bool} {e : Expr} {o : Operand} {s t : Draft}
    (h : m.Lowers c fs k st discard e o s t) : m.Acts c fs (d m.body.length) k st s t := by
  have hF := (L.moves_during h.during).2
  have hr := h.runs
  cases he : e.isAtom with
  | true =>
      cases e with
      | int | float | str | null => rw [lowerExpr] at hr; exact acts_literal hr
      | bool => rw [lowerExpr] at hr; exact acts_boolean hr hF
      | name =>
          rw [lowerExpr] at hr
          obtain rfl := (nameOperand_eq_ok hr).1
          exact .refl
      | _ => cases he
  | false =>
      obtain ⟨es, xs, u, ho, hes, ha⟩ := applies_of_lowerExpr hr he
      obtain ⟨_, _, htakes⟩ := ha.takes
      have hu : Moves s u := (Along.lowerValues es).of_ok hes
      have hd := h.during.narrow .refl htakes.moves
      refine .trans (acts_lowerValues (fun e' he' _ _ _ h' => ?_)
        (fun e' he' => h.stands.operand ho he') hd hes)
        (ha.acts ho hes h ((L.moves_during h.during).1.trans hu)
          (fun y hy => hu.contains (L.frame_known h.during y hy)) hF)
      have hlt := ho.sizeOf_lt he'
      exact acts_lowerExpr h'
termination_by sizeOf e

end Module.Layout
end StackScript
