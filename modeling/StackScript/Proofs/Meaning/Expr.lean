import StackScript.Proofs.Lowering.Blocks
import StackScript.Proofs.Meaning.Scene

namespace StackScript

open Draft Machine Lower

namespace Lower

variable {cx : Context} {s t : Draft}

theorem generate_agree {kind x : String} {ty : Ty} {init : Init}
    (h : generate cx kind ty init s = .ok x t) :
    s.vars.Agree cx.scope.qualifier t.vars ∧ t.Typed x ty := by
  obtain ⟨hx, hnew, ht⟩ := generate_eq_ok h
  rw [Typed, ht]
  refine ⟨fun y hy => ?_, ⟨x, ty, init⟩, ?_, rfl⟩
  · have hne : x ≠ y := fun he => hy ⟨_, kind, he.symm.trans hx⟩
    rw [Variables.find?_declared, if_neg hne, Option.or_none]
  · rw [Variables.contains, Option.isSome_eq_false_iff, Option.isNone_iff_eq_none] at hnew
    rw [Variables.find?_declared, hnew, if_pos rfl]
    rfl

variable {x member : String} {xs : List String} {ty : Ty} {tys : List Ty} {op : Operand}

theorem operator_eq_ok (hx : s.Typed x ty) (hxs : List.Forall₂ s.Typed xs tys)
    (h : operator cx member x xs s = .ok op t) :
    ∃ m, cx.catalog.method? .static ty.name member (ty :: tys) = some m ∧
      hostCall cx m (x :: xs) s = .ok op t := by
  simp only [operator, bind_eq_ok, typeOf_eq_ok, typesOf_eq_ok] at h
  obtain ⟨_, _, ⟨hty, rfl⟩, _, _, ⟨htys, rfl⟩, h⟩ := h
  rw [hx.typeOf hty, typesOf_unique hxs htys] at h
  cases hm : cx.catalog.method? .static ty.name member (ty :: tys) with
  | none => rw [hm] at h; exact (reject_eq_ok.mp h).elim
  | some m => rw [hm] at h; exact ⟨m, rfl, h⟩

theorem methodCall_eq_ok (hx : s.Typed x ty) (hxs : List.Forall₂ s.Typed xs tys)
    (h : methodCall cx x member xs s = .ok op t) :
    ∃ m, cx.catalog.method? .method ty.name member tys = some m ∧
    hostCall cx m (x :: xs) s = .ok op t := by
  simp only [methodCall, bind_eq_ok, typeOf_eq_ok, typesOf_eq_ok] at h
  obtain ⟨_, _, ⟨hty, rfl⟩, _, _, ⟨htys, rfl⟩, h⟩ := h
  rw [hx.typeOf hty, typesOf_unique hxs htys] at h
  cases hm : cx.catalog.method? .method ty.name member tys with
  | none => rw [hm] at h; exact (reject_eq_ok.mp h).elim
  | some m => rw [hm] at h; exact ⟨m, rfl, h⟩

theorem staticCall_eq_ok {owner : String} (hxs : List.Forall₂ s.Typed xs tys)
    (h : staticCall cx owner member xs s = .ok op t) :
    ∃ m, staticMember? cx owner member tys = some m ∧ hostCall cx m xs s = .ok op t := by
  simp only [staticCall, bind_eq_ok, typesOf_eq_ok] at h
  obtain ⟨_, _, ⟨htys, rfl⟩, h⟩ := h
  rw [typesOf_unique hxs htys] at h
  cases hm : staticMember? cx owner member tys with
  | none => rw [hm] at h; exact (reject_eq_ok.mp h).elim
  | some m => rw [hm] at h; exact ⟨m, rfl, h⟩

theorem Along.moves {α : Type} {f : Lower α} {a : α} (fs : Functions) (hf : Along (Advances fs) f)
    (h : f s = .ok a t) : Moves s t := by
  obtain ⟨_, e, _⟩ := hf.of_ok h
  exact e.moves

end Lower

namespace Scene

variable {D H : Type} {cx : Context} (S : Scene D H cx) {s t u : Draft}

/-- The code between two drafts puts a value of a type into the variable `x`. -/
structure Yields (s t : Draft) (x : String) (v : Term × Ty) : Prop where
  typed : t.Typed x v.2
  carries : S.Carries s t (v.1.eval S.host S.reading) (fun ρ => ρ x)

structure Loads (s t : Draft) (xs : List String) (vs : List (Term × Ty)) : Prop where
  typed : List.Forall₂ t.Typed xs (vs.map Prod.snd)
  carries : S.Carries s t (Term.evalAll S.host S.reading (vs.map Prod.fst)) (fun ρ => xs.map ρ)

inductive Gives (s t : Draft) : Operand → Meaning → Prop
  | value {x term ty} (h : S.Yields s t x (term, ty)) : Gives s t (.var x) (.value term ty)
  | type {ty} (h : S.Carries s t (fun _ h => ((), h)) (fun _ => ())) :
      Gives s t (.type ty) (.type ty)
  | effect {term : Term}
      (h : S.Carries s t (fun σ h => ((), (term.eval S.host S.reading σ h).2)) (fun _ => ())) :
      Gives s t .nothing (.effect term)

variable {S}

theorem stable_of_typed {x : String} {ty : Ty} (hx : u.Typed x ty) :
    Stable u fun ρ : Store D => ρ x :=
  fun _ _ h => h x hx.contains

theorem stable_of_forall₂ {xs : List String} {tys : List Ty} (hx : List.Forall₂ u.Typed xs tys) :
    Stable u fun ρ : Store D => xs.map ρ := by
  intro ρ ρ' h
  induction hx with
  | nil => rfl
  | cons hx _ ih => exact congrArg₂ List.cons (h _ hx.contains) ih

theorem Loads.nil (s : Draft) : S.Loads s s [] [] :=
  ⟨.nil, .read (.refl s) (.refl _) fun _ _ _ => rfl⟩

theorem Loads.cons {x : String} {v : Term × Ty} {xs : List String} {vs : List (Term × Ty)}
    (hx : S.Yields s u x v) (hxs : S.Loads u t xs vs) : S.Loads s t (x :: xs) (v :: vs) :=
  ⟨.cons (hx.typed.moves hxs.carries.moves) hxs.typed,
    hx.carries.seq hxs.carries (stable_of_typed hx.typed) List.cons⟩

theorem Yields.loads {x : String} {v : Term × Ty} (hx : S.Yields s t x v) : S.Loads s t [x] [v] :=
  .cons hx (.nil t)

theorem Loads.single {x : String} {v : Term × Ty} (hl : S.Loads s t [x] [v]) :
    S.Yields s t x v := by
  refine ⟨(List.forall₂_cons.mp hl.typed).1, hl.carries.moves, hl.carries.vars, fun h hρ => ?_⟩
  obtain ⟨ρ', hρ', hold, hr, run⟩ := hl.carries.run h hρ
  exact ⟨ρ', hρ', hold, (List.cons.inj hr).1, run⟩

theorem gives_hostCall {m : Method} {xs : List String} {op : Operand} {term : Term}
    {f : Store D → H → List (Value D) × H} (hf : S.Carries s u f fun ρ => xs.map ρ)
    (h : hostCall cx m xs u = .ok op t) (hu : u.Sized) (hF : Moves t S.draft)
    (ha : S.host.answers m.symbol = !m.ret.isVoid)
    (hterm : ∀ σ h, term.eval S.host S.reading σ h = S.host.call m.symbol (f σ h).1 (f σ h).2) :
    S.Gives s t op (.ofMember m term) := by
  have heval : term.eval S.host S.reading = fun σ h => S.host.call m.symbol (f σ h).1 (f σ h).2 :=
    funext fun σ => funext (hterm σ)
  obtain ⟨u₁, hn, ⟨hv, rfl, hem⟩ | ⟨hv, x, u₂, rfl, hx, hem⟩⟩ := hostCall_steps h
  all_goals
    have en := note_emits hn
    obtain rfl := note_eq_ok.mp hn
    rw [Meaning.ofMember]
  · rw [if_pos hv]
    have e := en.skip (emit_emits hem)
    have hat := (S.has e hu hF).at_of_noTarget Block.target_invoke
    refine .effect ?_
    simp only [hterm]
    refine hf.act (w := fun vs h => (S.host.call m.symbol vs h).2) e.moves ?_ fun ρ h st => ?_
    · rw [emit_vars hem]
    · rw [e.pc]
      exact reaches_invoke_silent (by rw [ha, hv]; rfl) hat
  · rw [if_neg (by simp [hv])]
    have e := en.skip ((generate_emits hx).skip (emit_emits hem))
    have hat := (S.has e hu hF).at_of_noTarget Block.target_invoke
    obtain ⟨hname, hnew, -⟩ := generate_eq_ok hx
    obtain ⟨hagree, htyped⟩ := generate_agree hx
    -- the result goes into a temporary that is made for it
    refine .value ⟨htyped.moves (emit_emits hem).moves, ?_⟩
    dsimp only
    rw [heval]
    refine hf.write (w := S.host.call m.symbol) hname (by decide) hnew e.moves ?_ fun ρ h st => ?_
    · rw [emit_vars hem]
      exact hagree
    · rw [e.pc]
      exact reaches_invoke (by rw [ha, hv]; rfl) hat

variable {x member : String} {v : Term × Ty} {xs : List String} {vs : List (Term × Ty)}
  {op : Operand}

theorem gives_operator {o : Operator} (ho : o.host? = some member)
    (hl : S.Loads s u (x :: xs) (v :: vs)) (h : operator cx member x xs u = .ok op t)
    (hu : u.Sized) (hF : Moves t S.draft) :
    ∃ m, Meaning.operator cx.catalog o v vs = some m ∧ S.Gives s t op m := by
  obtain ⟨hx, hxs⟩ := List.forall₂_cons.mp hl.typed
  obtain ⟨m, hm, h⟩ := operator_eq_ok hx hxs h
  refine ⟨_, by
    simp only [Meaning.operator, ho, hm, Option.bind_eq_bind, Option.bind_some]; rfl, ?_⟩
  exact gives_hostCall hl.carries h hu hF (S.agrees hm) fun _ _ => rfl

theorem gives_item (hl : S.Loads s u (x :: xs) (v :: vs))
    (h : methodCall cx x member xs u = .ok op t) (hu : u.Sized) (hF : Moves t S.draft) :
    ∃ m, Meaning.item cx.catalog v member vs = some m ∧ S.Gives s t op m := by
  obtain ⟨hx, hxs⟩ := List.forall₂_cons.mp hl.typed
  obtain ⟨m, hm, h⟩ := methodCall_eq_ok hx hxs h
  refine ⟨_, by rw [Meaning.item, hm]; rfl, ?_⟩
  exact gives_hostCall hl.carries h hu hF (S.agrees hm) fun _ _ => rfl

theorem gives_method {w : Draft} (hl : S.Loads s w xs vs) (hx : S.Yields w u x v)
    (h : methodCall cx x member xs u = .ok op t) (hu : u.Sized) (hF : Moves t S.draft) :
    ∃ m, Meaning.method cx.catalog v member vs = some m ∧ S.Gives s t op m := by
  have hxs := hl.typed.imp fun _ _ hy => Typed.moves hy hx.carries.moves
  obtain ⟨m, hm, h⟩ := methodCall_eq_ok hx.typed hxs h
  refine ⟨_, by rw [Meaning.method, hm]; rfl, ?_⟩
  have hc := hl.carries.seq hx.carries (stable_of_forall₂ hl.typed) fun vs v => v :: vs
  exact gives_hostCall hc h hu hF (S.agrees hm) fun _ _ => rfl

theorem gives_static {owner : String} (hl : S.Loads s u xs vs)
    (h : staticCall cx owner member xs u = .ok op t) (hu : u.Sized) (hF : Moves t S.draft) :
    ∃ m, Meaning.static cx.catalog owner member vs = some m ∧ S.Gives s t op m := by
  obtain ⟨m, hm, h⟩ := staticCall_eq_ok hl.typed h
  rw [staticMember?] at hm
  refine ⟨_, by rw [Meaning.static, hm]; rfl, ?_⟩
  refine gives_hostCall hl.carries h hu hF ?_ fun _ _ => rfl
  obtain hm | ⟨-, hm⟩ := Option.or_eq_some_iff.mp hm
  · exact S.agrees hm
  · exact S.agrees hm

theorem gives_cast {name : String} (hl : S.Loads s u xs vs) (h : Lower.cast cx name xs u = .ok op t)
    (hu : u.Sized) (hF : Moves t S.draft) :
    ∃ a, vs = [a] ∧ S.Gives s t op (.value a.1 (.named name)) := by
  have hlen := hl.typed.length_eq
  match xs, vs, hl with
  | [], _, _ | _ :: _ :: _, _, _ => exact (reject_eq_ok.mp h).elim
  | [x], [], _ | [x], _ :: _ :: _, _ => simp at hlen
  | [x], [a], hl =>
      have hx := hl.single
      obtain ⟨y, u₁, rfl, hy, hem⟩ := cast_steps h
      have e := (generate_emits hy).skip (emit_emits hem)
      have hat := (S.has e hu hF).at_of_noTarget Block.target_assign
      obtain ⟨hname, hnew, -⟩ := generate_eq_ok hy
      obtain ⟨hagree, htyped⟩ := generate_agree hy
      refine ⟨a, rfl, .value ⟨htyped.moves (emit_emits hem).moves, ?_⟩⟩
      refine hx.carries.write (w := Prod.mk) hname (by decide) hnew e.moves ?_ fun ρ h st => ?_
      · rw [emit_vars hem]
        exact hagree
      · rw [e.pc]
        exact reaches_assign hat

theorem yields_const {ty : Ty} {init : Init} (h : generate cx "const" ty init s = .ok x t)
    (hi : ∀ id, init ≠ .label id) (hF : Moves t S.draft) : S.Yields s t x (.const init, ty) := by
  obtain ⟨hname, -, ht⟩ := generate_eq_ok h
  obtain ⟨hagree, htyped⟩ := generate_agree h
  refine ⟨htyped, .read (generate_emits h) hagree fun σ ρ hρ => ?_⟩
  have hmem : (⟨x, ty, init⟩ : Variable) ∈ S.draft.vars.declared := by
    apply (Moves.grows hF).declared.subset
    simp [ht]
  exact hρ.const hmem ⟨_, hname⟩ hi

theorem gives_literal {e : Expr} {Γ : Typing} (h : literal cx e s = .ok op t)
    (hF : Moves t S.draft) :
    ∃ m, e.meaning cx.catalog cx.scope.qualifier Γ = some m ∧ S.Gives s t op m := by
  obtain ⟨found, _, ha, h⟩ := bind_eq_ok.mp h
  obtain ⟨hl, rfl⟩ := accept_eq_ok.mp ha
  cases found with
  | none => exact (reject_eq_ok.mp h).elim
  | some found =>
      obtain ⟨ty, init⟩ := found
      simp only [bind_eq_ok, pure_eq_ok] at h
      obtain ⟨x, _, hx, rfl, rfl⟩ := h
      exact ⟨_, Expr.meaning_of_literal? hl ..,
        .value (yields_const hx (Expr.literal?_ne_label hl) hF)⟩

theorem gives_boolean {b : Bool} (h : boolean cx b s = .ok op t) (hs : s.Sized)
    (hF : Moves t S.draft) :
    ∃ m, Meaning.boolean cx.catalog b = some m ∧ S.Gives s t op m := by
  have hquote : Text.Quoted.quote (if b then "true" else "false") =
      if b then "\"true\"" else "\"false\"" := by
    cases b <;> decide
  rw [boolean] at h
  rw [Meaning.boolean]
  cases hm : cx.catalog.method? .static "SystemBoolean" "Parse" [.string] with
  | none => rw [hm] at h; exact (reject_eq_ok.mp h).elim
  | some m =>
      rw [hm] at h
      simp only [hquote, bind_eq_ok, pure_eq_ok] at h
      obtain ⟨text, u, htext, x, u₁, hx, _, t', hem, rfl, rfl⟩ := h
      have e := (generate_emits hx).skip (emit_emits hem)
      have hu := (generate_emits htext).moves.sized hs
      have hat : Code.At _ _ (Block.invoke m.symbol ([text] ++ [x])) :=
        (S.has e hu hF).at_of_noTarget Block.target_invoke
      have hanswers : S.host.answers m.symbol := by
        rw [S.agrees hm, S.parse hm]
        rfl
      obtain ⟨hname, hnew, -⟩ := generate_eq_ok hx
      obtain ⟨hagree, htyped⟩ := generate_agree hx
      refine ⟨_, by rw [Ty.string] at hm; rw [hm]; rfl,
        .value ⟨htyped.moves (emit_emits hem).moves, ?_⟩⟩
      refine (yields_const htext (by simp) (e.moves.trans hF)).carries.write
        (w := fun v h => S.host.call m.symbol [v] h) hname (by decide) hnew e.moves ?_ fun ρ h st =>
        ?_
      · rw [emit_vars hem]
        exact hagree
      · rw [e.pc]
        exact reaches_invoke hanswers hat

variable {Γ : Typing} {ident : String}

theorem gives_name (hΓ : Γ.Agrees cx.scope.qualifier s.vars) (hc : Names.IsProper ident)
    (h : nameOperand cx ident s = .ok op t) :
    ∃ m, Meaning.name cx.catalog cx.scope.qualifier Γ ident = some m ∧ S.Gives s t op m := by
  simp only [nameOperand, bind_eq_ok, resolve_eq_ok, contains_eq_ok] at h
  obtain ⟨x, _, ⟨hx, rfl⟩, known, _, ⟨hk, rfl⟩, h⟩ := h
  have hn : ¬ Names.Temporary cx.scope.qualifier x := hx ▸ Variables.not_temporary_resolve _ hc
  rw [Meaning.name, hΓ.locate S.inside hc, hx, hΓ x hn, Variables.typing]
  cases hv : s.vars.find? x with
  | some v =>
      obtain rfl : known = true := by rw [← hk, Variables.contains, hv]; rfl
      obtain ⟨rfl, rfl⟩ := pure_eq_ok.mp h
      exact ⟨_, rfl, .value ⟨⟨v, hv, rfl⟩, .read (.refl s) (.refl _) fun σ ρ hρ => hρ.user hn⟩⟩
  | none =>
      obtain rfl : known = false := by rw [← hk, Variables.contains, hv]; rfl
      rw [if_neg (by simp)] at h
      by_cases ht : cx.catalog.isType ident
      · rw [if_pos ht] at h
        obtain ⟨rfl, rfl⟩ := pure_eq_ok.mp h
        exact ⟨_, if_pos ht, .type (.read (.refl s) (.refl _) fun _ _ _ => rfl)⟩
      · rw [if_neg ht] at h
        exact (reject_eq_ok.mp h).elim

theorem gives_call {discard : Bool} (hl : S.Loads s u xs vs)
    (hi : (ident == "instantiate" || cx.catalog.isType ident) = true)
    (h : plainCall cx ident xs discard u = .ok op t) (hu : u.Sized) (hF : Moves t S.draft) :
    ∃ m, Meaning.call cx.catalog ident vs = some m ∧ S.Gives s t op m := by
  have hlen : xs.length = vs.length := by simpa using hl.typed.length_eq
  rw [plainCall, hlen] at h
  rw [Meaning.call.eq_def]
  by_cases hinst : ident = "instantiate"
  · rw [if_pos hinst] at h ⊢
    by_cases hone : vs.length = 1
    · rw [if_pos hone] at h ⊢
      exact gives_static hl h hu hF
    · rw [if_neg hone] at h
      exact (reject_eq_ok.mp h).elim
  · have htype : cx.catalog.isType ident := by simpa [hinst] using hi
    rw [if_neg hinst, if_pos htype] at h ⊢
    obtain ⟨a, rfl, hg⟩ := gives_cast hl h hu hF
    exact ⟨_, rfl, hg⟩

variable (S Γ)

/-- The code of an expression computes its meaning. -/
structure Sound (e : Expr) : Prop where
  of_ok : ∀ {discard s op t}, lowerExpr cx discard e s = .ok op t →
    Γ.Agrees cx.scope.qualifier s.vars → s.Sized → Moves t S.draft →
    ∃ m, e.meaning cx.catalog cx.scope.qualifier Γ = some m ∧ S.Gives s t op m

structure SoundAll (es : List Expr) : Prop where
  of_ok : ∀ {s xs t}, lowerValues cx es s = .ok xs t →
    Γ.Agrees cx.scope.qualifier s.vars → s.Sized → Moves t S.draft →
    ∃ vs, Expr.values cx.catalog cx.scope.qualifier Γ es = some vs ∧ S.Loads s t xs vs

variable {S Γ}

theorem Gives.after {m : Meaning} (e : Emits s u []) (hv : u.vars = s.vars)
    (hg : S.Gives u t op m) :
    S.Gives s t op m := by
  cases hg with
  | value h => exact .value ⟨h.typed, h.carries.after e hv⟩
  | type h => exact .type (h.after e hv)
  | effect h => exact .effect (h.after e hv)

variable {e : Expr}

theorem Sound.operand {discard : Bool} (he : S.Sound Γ e)
    (h : operandOf e (lowerExpr cx discard e) s = .ok op t)
    (hΓ : Γ.Agrees cx.scope.qualifier s.vars) (hs : s.Sized) (hF : Moves t S.draft) :
    ∃ m, e.meaning cx.catalog cx.scope.qualifier Γ = some m ∧ S.Gives s t op m := by
  obtain ⟨_, u, hn, h⟩ := bind_eq_ok.mp h
  have en := note_emits hn
  obtain rfl := note_eq_ok.mp hn
  obtain ⟨m, hm, hg⟩ := he.of_ok (located_eq_ok.mp h) hΓ (en.moves.sized hs) hF
  exact ⟨m, hm, hg.after en rfl⟩

theorem Sound.value (he : S.Sound Γ e) (h : Lower.value cx e s = .ok x t)
    (hΓ : Γ.Agrees cx.scope.qualifier s.vars) (hs : s.Sized) (hF : Moves t S.draft) :
    ∃ v, e.value cx.catalog cx.scope.qualifier Γ = some v ∧ S.Yields s t x v := by
  obtain ⟨op, u, ho, h⟩ := bind_eq_ok.mp h
  cases op with
  | nothing => exact (reject_eq_ok.mp (located_eq_ok.mp h)).elim
  | type ty => exact (reject_eq_ok.mp (located_eq_ok.mp h)).elim
  | var y =>
      obtain ⟨rfl, rfl⟩ := pure_eq_ok.mp h
      obtain ⟨m, hm, hg⟩ := he.operand ho hΓ hs hF
      cases hg with
      | value hy => exact ⟨_, by rw [Expr.value, hm]; rfl, hy⟩

theorem Sound.pair {left right : Expr} {y : String} (hl : S.Sound Γ left) (hr : S.Sound Γ right)
    (hx : Lower.value cx left s = .ok x u) (hy : Lower.value cx right u = .ok y t)
    (hΓ : Γ.Agrees cx.scope.qualifier s.vars) (hs : s.Sized) (hF : Moves t S.draft) :
    ∃ a b, left.value cx.catalog cx.scope.qualifier Γ = some a ∧
    right.value cx.catalog cx.scope.qualifier Γ = some b ∧ S.Loads s t [x, y] [a, b] := by
  have hm : Moves u t := (Along.value right).moves cx.functions hy
  obtain ⟨a, ha, hx⟩ := hl.value hx hΓ hs (hm.trans hF)
  obtain ⟨b, hb, hy⟩ := hr.value hy (hΓ.trans hx.carries.vars) (hx.carries.moves.sized hs) hF
  exact ⟨a, b, ha, hb, .cons hx hy.loads⟩

theorem owner?_eq {owner : Expr} {found : Option String} (hin : cx.scope.qualifier ≠ "")
    (hΓ : Γ.Agrees cx.scope.qualifier s.vars) (hn : ∀ x ∈ owner.names, Names.IsProper x)
    (h : staticOwner? cx owner s = .ok found t) :
    found = Meaning.owner? cx.scope.qualifier Γ owner ∧ s = t := by
  cases owner with
  | name p ident =>
      have hc : Names.IsProper ident := hn ident (by simp [Expr.names])
      simp only [staticOwner?, bind_eq_ok, resolve_eq_ok, contains_eq_ok] at h
      obtain ⟨x, _, ⟨hx, rfl⟩, known, _, ⟨hk, rfl⟩, h⟩ := h
      rw [Meaning.owner?, hΓ.locate hin hc,
        hΓ.isSome (Variables.not_temporary_resolve _ hc), hx, hk]
      cases known with
      | true => obtain ⟨rfl, rfl⟩ := pure_eq_ok.mp h; exact ⟨rfl, rfl⟩
      | false => obtain ⟨rfl, rfl⟩ := pure_eq_ok.mp h; exact ⟨rfl, rfl⟩
  | _ => obtain ⟨rfl, rfl⟩ := pure_eq_ok.mp h; exact ⟨rfl, rfl⟩

namespace Sound

variable {p q : Pos} {key : String} {owner left right : Expr} {args : List Expr}

theorem of_literal (hl : ∀ discard, lowerExpr cx discard e = literal cx e) : S.Sound Γ e := by
  refine ⟨fun h _ _ hF => ?_⟩
  rw [hl] at h
  exact gives_literal h hF

theorem memberCall (ho : S.Sound Γ owner) (ha : S.SoundAll Γ args)
    (hn : ∀ x ∈ owner.names, Names.IsProper x) :
    S.Sound Γ (.call p (.member q owner key) args) := by
  refine ⟨fun {_ s op t} h hΓ hs hF => ?_⟩
  rw [lowerExpr] at h
  obtain ⟨xs, u, hxs, h⟩ := bind_eq_ok.mp h
  have hu : Moves u t := by
    refine Along.moves cx.functions (.bind (.staticOwner? owner) fun found => ?_) h
    split
    · exact .staticCall ..
    · exact .bind (.value owner) fun x => .methodCall ..
  obtain ⟨vs, hvs, hl⟩ := ha.of_ok hxs hΓ hs (hu.trans hF)
  have hΓu := hΓ.trans hl.carries.vars
  have hus := hl.carries.moves.sized hs
  obtain ⟨found, _, hfound, h⟩ := bind_eq_ok.mp h
  obtain ⟨rfl, rfl⟩ := owner?_eq S.inside hΓu hn hfound
  rw [Expr.meaning, hvs]
  cases hw : Meaning.owner? cx.scope.qualifier Γ owner with
  | some ident =>
      rw [hw] at h
      simpa [hw] using gives_static hl h hus hF
  | none =>
      rw [hw] at h
      obtain ⟨x, w, hx, h⟩ := bind_eq_ok.mp h
      have hm : Moves w t := (Along.methodCall x key xs).moves cx.functions h
      obtain ⟨v, hv, hx⟩ := ho.value hx hΓu hus (hm.trans hF)
      rw [Expr.value] at hv
      simpa [hw, hv] using gives_method hl hx h (hx.carries.moves.sized hus) hF

theorem nameCall (ha : S.SoundAll Γ args)
    (hi : (ident == "instantiate" || cx.catalog.isType ident) = true) :
    S.Sound Γ (.call p (.name q ident) args) := by
  refine ⟨fun {_ s op t} h hΓ hs hF => ?_⟩
  rw [lowerExpr] at h
  obtain ⟨xs, u, hxs, h⟩ := bind_eq_ok.mp h
  have hu : Moves u t := (Along.plainCall ident xs _).moves cx.functions h
  obtain ⟨vs, hvs, hl⟩ := ha.of_ok hxs hΓ hs (hu.trans hF)
  rw [Expr.meaning, hvs]
  exact gives_call hl hi h (hl.carries.moves.sized hs) hF

theorem subscript (hl : S.Sound Γ left) (hr : S.Sound Γ right) :
    S.Sound Γ (.subscript p left right) := by
  refine ⟨fun {_ s op t} h hΓ hs hF => ?_⟩
  simp only [lowerExpr, bind_eq_ok] at h
  obtain ⟨x, _, hx, y, u, hy, h⟩ := h
  have hm : Moves u t := (Along.methodCall x "Get" [y]).moves cx.functions h
  obtain ⟨a, b, ha, hb, hxy⟩ := hl.pair hr hx hy hΓ hs (hm.trans hF)
  rw [Expr.value] at ha hb
  rw [Expr.meaning, ha, hb]
  exact gives_item hxy h (hxy.carries.moves.sized hs) hF

theorem unary {op : UnaryOp} (he : S.Sound Γ e) : S.Sound Γ (.unary p op e) := by
  refine ⟨fun {_ s _ t} h hΓ hs hF => ?_⟩
  rw [lowerExpr] at h
  rw [Expr.meaning]
  cases hop : op.member? with
  | none => rw [hop] at h; exact (reject_eq_ok.mp h).elim
  | some member =>
      rw [hop] at h
      obtain ⟨x, u, hx, h⟩ := bind_eq_ok.mp h
      have hm : Moves u t := (Along.operator member x []).moves cx.functions h
      obtain ⟨v, hv, hx⟩ := he.value hx hΓ hs (hm.trans hF)
      rw [Expr.value] at hv
      rw [hv]
      exact gives_operator (op.host?_eq.trans hop) hx.loads h (hx.carries.moves.sized hs) hF

theorem operator {o : Operator} (ho : o.host? = some member) (hl : S.Sound Γ left)
    (hr : S.Sound Γ right)
    (h : (do Lower.operator cx member (← Lower.value cx left) [← Lower.value cx right]) s =
      .ok op t) (hΓ : Γ.Agrees cx.scope.qualifier s.vars) (hs : s.Sized) (hF : Moves t S.draft) :
    ∃ m, (do
        let a ← left.value cx.catalog cx.scope.qualifier Γ
        let b ← right.value cx.catalog cx.scope.qualifier Γ
        Meaning.operator cx.catalog o a [b]) = some m ∧
      S.Gives s t op m := by
  simp only [bind_eq_ok] at h
  obtain ⟨x, _, hx, y, u, hy, h⟩ := h
  have hm : Moves u t := (Along.operator member x [y]).moves cx.functions h
  obtain ⟨a, b, ha, hb, hxy⟩ := hl.pair hr hx hy hΓ hs (hm.trans hF)
  rw [ha, hb]
  exact gives_operator ho hxy h (hxy.carries.moves.sized hs) hF

theorem binary {op : BinaryOp} (hl : S.Sound Γ left) (hr : S.Sound Γ right) :
    S.Sound Γ (.binary p left op right) := by
  refine ⟨fun h hΓ hs hF => ?_⟩
  rw [lowerExpr] at h
  rw [Expr.meaning]
  cases hop : op.member? with
  | none => rw [hop] at h; exact (reject_eq_ok.mp h).elim
  | some member => rw [hop] at h; exact operator (op.host?_eq.trans hop) hl hr h hΓ hs hF

theorem compare {op : CompareOp} (hl : S.Sound Γ left) (hr : S.Sound Γ right) :
    S.Sound Γ (.compare p left [op] [right]) := by
  refine ⟨fun h hΓ hs hF => ?_⟩
  rw [lowerExpr] at h
  rw [Expr.meaning]
  cases hop : op.member? with
  | none => rw [hop] at h; exact (reject_eq_ok.mp h).elim
  | some member => rw [hop] at h; exact operator (op.host?_eq.trans hop) hl hr h hΓ hs hF

theorem logic {op : LogicOp} (hl : S.Sound Γ left) (hr : S.Sound Γ right) :
    S.Sound Γ (.logic p op [left, right]) := by
  refine ⟨fun h hΓ hs hF => ?_⟩
  rw [lowerExpr] at h
  rw [Expr.meaning]
  exact operator op.host?_eq hl hr h hΓ hs hF

theorem of_reject {d : Diagnostic} (hl : ∀ discard, lowerExpr cx discard e = reject d) :
    S.Sound Γ e := by
  refine ⟨fun h _ _ _ => ?_⟩
  rw [hl] at h
  exact (reject_eq_ok.mp h).elim

end Sound

mutual

theorem sound : ∀ e : Expr, (∀ x ∈ e.names, Names.IsProper x) → e.callFree cx.catalog → S.Sound Γ e
  | .int p n, _, _ | .float p n, _, _ | .str p n, _, _ => .of_literal fun _ => by rw [lowerExpr]
  | .null p, _, _ => .of_literal fun _ => by rw [lowerExpr]
  | .bool p b, _, _ => by
      refine ⟨fun h _ hs hF => ?_⟩
      rw [lowerExpr] at h
      rw [Expr.meaning]
      exact gives_boolean h hs hF
  | .name p ident, hn, _ => by
      refine ⟨fun h hΓ _ _ => ?_⟩
      rw [lowerExpr] at h
      rw [Expr.meaning]
      exact gives_name hΓ (hn ident (by simp [Expr.names])) h
  | .call p callee args, hn, hf => by
      simp only [Expr.names, List.forall_mem_append] at hn
      cases callee with
      | member q owner key =>
          simp only [Expr.callFree, Bool.and_eq_true] at hf
          exact .memberCall (sound owner hn.1 hf.1) (soundAll args hn.2 hf.2) hn.1
      | name q ident =>
          simp only [Expr.callFree, Bool.and_eq_true] at hf
          exact .nameCall (soundAll args hn.2 hf.2) hf.1
      | _ =>
          refine ⟨fun h _ _ _ => ?_⟩
          simp only [lowerExpr, bind_eq_ok, reject_eq_ok, and_false, exists_false] at h
  | .subscript p left right, hn, hf => by
      simp only [Expr.names, List.forall_mem_append] at hn
      simp only [Expr.callFree, Bool.and_eq_true] at hf
      exact .subscript (sound left hn.1 hf.1) (sound right hn.2 hf.2)
  | .unary p op operand, hn, hf => .unary (sound operand hn hf)
  | .binary p left op right, hn, hf => by
      simp only [Expr.names, List.forall_mem_append] at hn
      simp only [Expr.callFree, Bool.and_eq_true] at hf
      exact .binary (sound left hn.1 hf.1) (sound right hn.2 hf.2)
  | .compare p left [op] [right], hn, hf => by
      simp only [Expr.names, Expr.namesAll, List.forall_mem_append] at hn
      simp only [Expr.callFree, Expr.callFreeAll, Bool.and_eq_true] at hf
      exact .compare (sound left hn.1 hf.1) (sound right hn.2.1 hf.2.1)
  | .logic p op [left, right], hn, hf => by
      simp only [Expr.names, Expr.namesAll, List.forall_mem_append] at hn
      simp only [Expr.callFree, Expr.callFreeAll, Bool.and_eq_true] at hf
      exact .logic (sound left hn.1 hf.1) (sound right hn.2.1 hf.2.1)
  | .compare p left [] _, _, _ | .compare p left (_ :: _ :: _) _, _, _
  | .compare p left [_] [], _, _ | .compare p left [_] (_ :: _ :: _), _, _
  | .logic p op [], _, _ | .logic p op [_], _, _
  | .logic p op (_ :: _ :: _ :: _), _, _ | .member p owner key, _, _ | .other p kind, _, _ =>
      .of_reject fun _ => by simp only [lowerExpr]; rfl

theorem soundAll : ∀ es : List Expr, (∀ x ∈ Expr.namesAll es, Names.IsProper x) →
    Expr.callFreeAll cx.catalog es → S.SoundAll Γ es
  | [], _, _ => by
      refine ⟨fun {s _ _} h _ _ _ => ?_⟩
      rw [lowerValues] at h
      obtain ⟨rfl, rfl⟩ := pure_eq_ok.mp h
      exact ⟨[], rfl, .nil s⟩
  | e :: es, hn, hf => by
      simp only [Expr.namesAll, List.forall_mem_append] at hn
      simp only [Expr.callFreeAll, Bool.and_eq_true] at hf
      refine ⟨fun {s _ t} h hΓ hs hF => ?_⟩
      simp only [lowerValues, bind_eq_ok, pure_eq_ok] at h
      obtain ⟨x, u, hx, xs, _, hxs, rfl, rfl⟩ := h
      have hm : Moves u _ := (Along.lowerValues es).moves cx.functions hxs
      obtain ⟨v, hv, hx⟩ := (sound e hn.1 hf.1).value hx hΓ hs (hm.trans hF)
      obtain ⟨vs, hvs, hxs⟩ :=
        (soundAll es hn.2 hf.2).of_ok hxs (hΓ.trans hx.carries.vars) (hx.carries.moves.sized hs) hF
      refine ⟨v :: vs, ?_, .cons hx hxs⟩
      rw [Expr.value] at hv
      rw [Expr.values, hv, hvs]
      rfl

end

end Scene
end StackScript
