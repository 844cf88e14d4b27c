import StackScript.Proofs.Confinement

namespace StackScript

open Draft Code

/-- The statement defines a function of this name, whose parameters are annotated with exactly
these types. -/
def Stmt.Defines (st : Stmt) (name : String) (types : List Ty) : Prop :=
  ∃ q params returns body, st = .define q name params returns body ∧ Names.isEvent name = false ∧
    params.map Param.typeName = types.map fun ty => some ty.name

theorem Stmt.defines_of_function? {c : Catalog} {st : Stmt} {f : Function}
    (hf : st.function? c = some f) :
    st.Defines f.name f.types := by
  cases st with
  | define q name params returns body =>
      obtain ⟨he, rfl, hsig, -⟩ := Stmt.function?_define hf
      exact ⟨q, params, returns, body, rfl, he, (Lower.signature_eq_ok hsig).2.1⟩
  | _ => cases hf

theorem Stmt.Defines.types_eq {c : Catalog} {st st' : Stmt} {f g : Function}
    (hf : st.function? c = some f) (hg : st'.function? c = some g) (h : st.Defines g.name g.types) :
    f.name = g.name ∧ f.types = g.types := by
  obtain ⟨q, params, returns, body, rfl, -, hparams⟩ := h
  obtain ⟨-, hname, hsig, -⟩ := Stmt.function?_define hf
  refine ⟨hname, ?_⟩
  cases st' with
  | define q' name' params' returns' body' =>
      obtain ⟨-, -, hsig', -⟩ := Stmt.function?_define hg
      obtain ⟨htypes, -⟩ := Lower.signature_eq_ok hsig
      obtain ⟨htypes', hparams', -⟩ := Lower.signature_eq_ok hsig'
      have hsame {ps : List Param} :
          Param.types ps = (ps.map Param.typeName).filterMap (Option.map Ty.named) := by
        rw [Param.types, List.filterMap_map]
        rfl
      rw [htypes, htypes', hsame, hsame, hparams, hparams']
  | _ => cases hg

namespace Lower

variable {cx : Context} {name : String} {es : List Expr} {args : List String} {types : List Ty}
  {s u : Draft}

theorem lowerExpr_noOverload (hn : name ≠ "instantiate") (ht : cx.catalog.isType name = false)
    (hargs : lowerValues cx es s = .ok args u) (htypes : List.Forall₂ u.Typed args types)
    (hf : cx.functions.find? name types = none) (discard : Bool) (q q' : Pos) :
    lowerExpr cx discard (.call q (.name q' name) es) s =
    .error (.rejected (.noOverload name types)) u := by
  rw [lowerExpr_call hn ht]
  refine bind_eq_error.mpr (.inr ⟨args, u, hargs, ?_⟩)
  rw [userCall]
  refine bind_eq_error.mpr
    (.inr ⟨types, u, typesOf_eq_ok.mpr ⟨htypes.imp ?_, rfl⟩, bind_eq_error.mpr (.inl ?_)⟩)
  · rintro x ty ⟨v, hv, rfl⟩
    rw [Variables.typeOf, hv]
  · rw [Functions.returnType, hf]
    rfl

end Lower

namespace Module

variable {c : Catalog} {m : Module} {p : Program} {fs : Functions} {d : Nat → Draft}

/-- Each call of a function goes to the definition for the types of its arguments. -/
structure Dispatches (c : Catalog) (m : Module) (p : Program) (fs : Functions) (F : Draft) :
    Prop where
  calls : ∀ {k st discard q q' name es o s t},
    m.Lowers c fs k st discard (.call q (.name q' name) es) o s t → name ≠ "instantiate" →
    c.isType name = false →
    ∃ args u types j st' a region x, Lower.lowerValues ⟨c, fs, st.scope c⟩ es s = .ok args u ∧
      List.Forall₂ F.Typed args types ∧ st'.Defines name types ∧
      (∀ i st'', m.body[i]? = some st'' → st''.Defines name types → i = j) ∧
      m.Occupies c p j st' a region ∧ Code.At p.code u.emitter.pc
        (Block.pushAll (Names.returnAddress :: (st.scope c).env ++ x :: args) ++ [.jump (.addr a)])
  /-- There are no other jumps to the label of a function. -/
  sites : ∀ {front rest l g}, F.code = front ++ .jump (.label l) :: rest → F.callee fs l = some g →
    ∃ k st, m.CallsBefore c fs k st g (size (front ++ [.jump (.label l)]))
  entries : ∀ {j st a region f k st' b region' g}, m.Occupies c p j st a region →
    st.function? c = some f → m.Occupies c p k st' b region' → st'.function? c = some g → j ≠ k →
    a ≠ b ∧ Names.functionId f.name f.types ≠ Names.functionId g.name g.types

namespace Layout

variable (L : Layout c m p fs d)
include L

theorem function_of_defines {k : Nat} {st : Stmt} {name : String} {types : List Ty}
    (hk : m.body[k]? = some st) (h : st.Defines name types) : ∃ f l, st.function? c = some f ∧
      (d m.body.length).emitter.named.lookup (Names.functionId f.name f.types) = some l := by
  obtain ⟨q, params, returns, body, rfl, he, -⟩ := h
  obtain ⟨code, e, hp⟩ := L.placed hk
  cases hp with
  | event he' => rw [he] at he'; cases he'
  | function hf hn => exact ⟨_, _, hf, hn⟩
  | loose hs => exact absurd rfl (hs q name params returns body)

theorem dispatches : Dispatches c m p fs (d m.body.length) where
  calls {k st discard q q' name es o s t} h hn ht := by
    obtain ⟨g, x, args, entry, back, r, u, w, v, rfl, hargs, S, -⟩ := h.site hn ht
    obtain ⟨hg, hentry, -⟩ := L.of_calls ⟨discard, q, q', es, o, s, t, back, w, h, hargs, S⟩
    obtain ⟨j, st', a, region, hf, hregion, hbound⟩ := L.occupies_callee hg hentry
    obtain ⟨hj, -⟩ := L.of_occupies hregion
    obtain ⟨hs, hF⟩ := L.moves_during h.during
    have htyped := S.typed_args (Lower.lowerValues_contains hargs)
    refine ⟨args, u, g.types, j, st', a, region, x, hargs, ?_, Stmt.defines_of_function? hf, ?_,
      hregion, ?_⟩
    · exact htyped.imp fun _ _ hx => hx.moves (S.emits.moves.trans hF)
    · intro i st'' hi hdef
      obtain ⟨f, l, hf', hl⟩ := L.function_of_defines hi hdef
      obtain ⟨hname, htypes⟩ := hdef.types_eq hf' hf
      rw [hname, htypes, hentry] at hl
      cases hl
      exact L.statement_of_entry hi hf' hj hf (by rw [hname, htypes, hentry]) hentry
    · have hsized : u.Sized := Moves.sized (hs.trans ((Lower.Along.lowerValues es).of_ok hargs)) rfl
      have e := S.begins.skip S.enter
      rw [Block.enter_eq_single] at e
      refine (e.has hsized (S.leave.moves.trans hF) L.linked).enter ?_
      rw [L.labels]
      exact hbound
  sites {front rest l g} hcode hg := by
    obtain ⟨k, st, pre, xs, post, hk, rfl, -, -, hp⟩ := L.purpose hcode (by simp)
    cases hp with
    | enter h hu =>
        obtain ⟨hg', hentry, hv, hpc⟩ := L.of_calls h
        have hsame := L.entered _ hg' _ hentry
        rw [hg] at hsame
        cases hsame
        refine ⟨k, st, _, _, _, _, _, _, h, ?_⟩
        rw [← hpc, hv, hu]
        simp only [List.append_assoc]
    | goto hl => rw [hl.callee] at hg; cases hg
  entries {j st a region f k st' b region' g} h hf h' hg hne := by
    constructor
    · rintro rfl
      have hin := (L.endsShut h (Stmt.place_ne_module hf)).inside_begin a
      exact hne
        (L.statement_unique h h' hin ((L.endsShut h' (Stmt.place_ne_module hg)).inside_begin a))
    · intro hid
      obtain ⟨hj, -⟩ := L.of_occupies h
      obtain ⟨hk, -⟩ := L.of_occupies h'
      obtain ⟨f', l, hf', hl⟩ := L.function_of_defines hj (Stmt.defines_of_function? hf)
      rw [hf] at hf'
      cases hf'
      exact hne (L.statement_of_entry hj hf hk hg hl (hid ▸ hl))

end Layout

/-- A call goes to the one definition with exactly the types of its arguments, and is refused if
there is none. Distinct functions of a compiled module begin at distinct addresses. -/
theorem compile_dispatches (c : Catalog) (m : Module) :
    (∀ {fs s₀ scope discard q q' name es s args u types}, m.lowered c 0 = some (fs, s₀) →
      name ≠ "instantiate" → c.isType name = false →
      Lower.lowerValues ⟨c, fs, scope⟩ es s = .ok args u → List.Forall₂ u.Typed args types →
      (∀ st ∈ m.body, ¬ st.Defines name types) →
      Lower.lowerExpr ⟨c, fs, scope⟩ discard (.call q (.name q' name) es) s =
          .error (.rejected (.noOverload name types)) u ∧
        (Diagnostic.noOverload name types).problem =
          .undefined .function (name ++ Ty.tuple types)) ∧
    ∀ {p}, m.compile c = .ok p →
      ∃ fs F, m.lowered c m.body.length = some (fs, F) ∧ m.Dispatches c p fs F := by
  constructor
  · intro fs s₀ scope discard q q' name es s args u types h₀ hn ht hargs htypes hnone
    refine ⟨Lower.lowerExpr_noOverload hn ht hargs htypes ?_ discard q q', rfl⟩
    obtain ⟨_, _, _, rfl, _⟩ := header_of_lowered h₀
    cases hf : Functions.find? (m.body.filterMap (Stmt.function? c)) name types with
    | none => rfl
    | some f =>
        obtain ⟨hmem, rfl, rfl⟩ := Functions.find?_eq_some hf
        obtain ⟨st, hst, hfun⟩ := List.mem_filterMap.mp hmem
        exact absurd (Stmt.defines_of_function? hfun) (hnone st hst)
  · intro p hc
    obtain ⟨fs, d, L⟩ := layout_of_compile hc
    exact ⟨fs, d m.body.length, L.lowered _ le_rfl, L.dispatches⟩

def overloads : Module :=
  ⟨[Build.define "g" [("b", "SystemBoolean")] none
      [Build.eval (Build.call (.name .unknown "f") [.name .unknown "b"]),
        Build.eval (Build.call (.name .unknown "f") [.int .unknown 1])],
    Build.define "f" [("n", "SystemInt32")] none [.pass .unknown],
    Build.define "f" [("b", "SystemBoolean")] none [.pass .unknown]]⟩

theorem overloads_dispatches :
    ∃ p fs F s₀, overloads.compile scalars = .ok p ∧ overloads.Dispatches scalars p fs F ∧
    overloads.lowered scalars 0 = some (fs, s₀) ∧
    Lower.lowerExpr ⟨scalars, fs, .module⟩ true (Build.call (.name .unknown "f") []) s₀ =
      .error (.rejected (.noOverload "f" [])) s₀ := by
  have hok : (overloads.compile scalars).isOk := by decide +kernel
  cases hc : overloads.compile scalars with
  | error e => rw [hc] at hok; cases hok
  | ok p =>
      obtain ⟨hrefuse, haccept⟩ := compile_dispatches scalars overloads
      obtain ⟨fs, F, hF, hd⟩ := haccept hc
      obtain ⟨s₀, h₀, -⟩ := lowered_of_le hF (Nat.zero_le _)
      refine ⟨p, fs, F, s₀, rfl, hd, h₀, (hrefuse h₀ (by decide) (by decide) rfl .nil ?_).1⟩
      rintro st hst ⟨q, params, returns, body, rfl, -, hparams⟩
      obtain rfl := List.map_eq_nil_iff.mp hparams
      simp [overloads, Build.define] at hst

end Module
end StackScript
