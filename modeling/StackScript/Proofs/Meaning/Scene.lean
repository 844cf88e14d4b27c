import StackScript.Proofs.Meaning.Agreement

namespace StackScript

open Draft Machine

/-- Host and catalog agree on what has a result. -/
def Host.Agrees {D H : Type} (E : Host D H) (c : Catalog) : Prop :=
  ∀ ⦃kind owner name args m⦄, c.method? kind owner name args = some m →
    E.answers m.symbol = !m.ret.isVoid

/-- If the catalog has a member to read truth values with, it gives truth values. -/
def Catalog.ReadsTruth (c : Catalog) : Prop :=
  ∀ ⦃m⦄, c.method? .static "SystemBoolean" "Parse" [.string] = some m → m.ret = .boolean

/-- What an event is run in: a host, a reading of first values, and a program with the draft it was
linked from. -/
structure Scene (D H : Type) (cx : Context) where
  host : Host D H
  reading : Init → Value D
  program : Program
  draft : Draft
  labels : program.labels = draft.emitter.labels.toList
  linked : Linked program.labels draft.code program.code
  agrees : host.Agrees cx.catalog
  parse : cx.catalog.ReadsTruth
  inside : cx.scope.qualifier ≠ ""

namespace Scene

variable {D H A B C : Type} {cx : Context} (S : Scene D H cx) {s t u : Draft}

theorem has {code : List Instr} (e : Emits s t code) (hs : s.Sized) (hF : Moves t S.draft) :
    S.program.Has s.emitter.pc code := e.has hs hF S.linked

/-- Variables `ρ` of the machine for variables `σ` of the script: equal up to temporaries, and every
constant has its first value. -/
structure Holds (σ ρ : Store D) : Prop where
  user : ∀ {x}, ¬ Names.Temporary cx.scope.qualifier x → ρ x = σ x
  const : ∀ {v}, v ∈ S.draft.vars.declared → Names.Constant cx.scope.qualifier v.name →
    (∀ id, v.init ≠ .label id) → ρ v.name = S.reading v.init

/-- The code between two drafts computes `f`, where `r` reads the result. It keeps all variables
that are known before. -/
structure Carries (s t : Draft) (f : Store D → H → A × H) (r : Store D → A) : Prop where
  moves : Moves s t
  vars : s.vars.Agree cx.scope.qualifier t.vars
  run : ∀ {σ ρ} (h), S.Holds σ ρ → ∃ ρ', S.Holds σ ρ' ∧ (∀ x, s.vars.contains x → ρ' x = ρ x) ∧
    r ρ' = (f σ h).1 ∧ ∀ st, Reaches S.host S.program.code ⟨s.emitter.pc, ρ, st, h⟩
      ⟨t.emitter.pc, ρ', st, (f σ h).2⟩

variable {S}

theorem Carries.read {g r : Store D → A} (e : Emits s t [])
    (hv : s.vars.Agree cx.scope.qualifier t.vars) (hr : ∀ σ ρ, S.Holds σ ρ → r ρ = g σ) :
    S.Carries s t (fun σ h => (g σ, h)) r := by
  refine ⟨e.moves, hv, fun {σ ρ} h hρ => ⟨ρ, hρ, fun _ _ => rfl, hr σ ρ hρ, fun st => ?_⟩⟩
  rw [e.silent]
  exact .refl _

theorem Carries.after {f : Store D → H → A × H} {r : Store D → A} (e : Emits s u [])
    (hv : u.vars = s.vars) (hc : S.Carries u t f r) : S.Carries s t f r := by
  refine ⟨e.moves.trans hc.moves, hv ▸ hc.vars, ?_⟩
  rw [← e.silent, ← hv]
  exact hc.run

/-- A reading that looks at known variables only. -/
def Stable (u : Draft) (r : Store D → A) : Prop :=
  ∀ ρ ρ' : Store D, (∀ x, u.vars.contains x → ρ' x = ρ x) → r ρ' = r ρ

theorem Carries.seq {f : Store D → H → A × H} {g : Store D → H → B × H} {r₁ : Store D → A}
    {r₂ : Store D → B} (hf : S.Carries s u f r₁) (hg : S.Carries u t g r₂) (hr : Stable u r₁)
    (c : A → B → C) :
    S.Carries s t (fun σ h => (c (f σ h).1 (g σ (f σ h).2).1, (g σ (f σ h).2).2))
      (fun ρ => c (r₁ ρ) (r₂ ρ)) := by
  refine ⟨hf.moves.trans hg.moves, hf.vars.trans hg.vars, ?_⟩
  intro σ ρ h hρ
  obtain ⟨ρ₁, hρ₁, hold₁, hr₁, run₁⟩ := hf.run h hρ
  obtain ⟨ρ₂, hρ₂, hold₂, hr₂, run₂⟩ := hg.run (f σ h).2 hρ₁
  refine ⟨ρ₂, hρ₂, fun x hx => ?_, ?_, fun st => (run₁ st).trans (run₂ st)⟩
  · rw [hold₂ x (hf.moves.contains hx), hold₁ x hx]
  · rw [hr ρ₁ ρ₂ hold₂, hr₁, hr₂]

theorem Carries.write {f : Store D → H → A × H} {r : Store D → A}
    {w : A → H → Value D × H} {n : Nat} {x kind : String} (hf : S.Carries s u f r)
    (hx : x = cx.scope.qualifier ++ Names.generated n kind) (hk : kind ≠ "const")
    (hnew : u.vars.contains x = false) (hm : Moves u t)
    (hv : u.vars.Agree cx.scope.qualifier t.vars)
    (hrun : ∀ ρ h st, Reaches S.host S.program.code ⟨u.emitter.pc, ρ, st, h⟩
      ⟨t.emitter.pc, Function.update ρ x (w (r ρ) h).1, st, (w (r ρ) h).2⟩) :
    S.Carries s t (fun σ h => w (f σ h).1 (f σ h).2) (fun ρ => ρ x) := by
  refine ⟨hf.moves.trans hm, hf.vars.trans hv, ?_⟩
  intro σ ρ h hρ
  obtain ⟨ρ₁, hρ₁, hold₁, hr₁, run₁⟩ := hf.run h hρ
  rw [← hr₁]
  -- `x` is a temporary and no constant, and nothing that was known before
  refine ⟨_, ⟨fun {y} hy => ?_, fun {v} hv hc hi => ?_⟩, fun y hy => ?_,
    Function.update_self .., fun st =>
    (run₁ st).trans (hrun ρ₁ _ st)⟩
  · have hne : y ≠ x := fun he => hy ⟨n, kind, he.trans hx⟩
    rw [Function.update_of_ne hne, hρ₁.user hy]
  · have hne : v.name ≠ x := fun he => Names.not_constant_generated hk n (hx ▸ he ▸ hc)
    rw [Function.update_of_ne hne, hρ₁.const hv hc hi]
  · have hne : y ≠ x := by
      rintro rfl
      rw [hf.moves.contains hy] at hnew
      cases hnew
    rw [Function.update_of_ne hne, hold₁ y hy]

theorem Carries.act {f : Store D → H → A × H} {r : Store D → A} {w : A → H → H}
    (hf : S.Carries s u f r) (hm : Moves u t) (hv : t.vars = u.vars)
    (hrun : ∀ ρ h st, Reaches S.host S.program.code ⟨u.emitter.pc, ρ, st, h⟩
      ⟨t.emitter.pc, ρ, st, w (r ρ) h⟩) :
    S.Carries s t (fun σ h => ((), w (f σ h).1 (f σ h).2)) (fun _ => ()) := by
  refine ⟨hf.moves.trans hm, hv ▸ hf.vars, ?_⟩
  intro σ ρ h hρ
  obtain ⟨ρ₁, hρ₁, hold₁, hr₁, run₁⟩ := hf.run h hρ
  rw [← hr₁]
  exact ⟨ρ₁, hρ₁, hold₁, rfl, fun st => (run₁ st).trans (hrun ρ₁ _ st)⟩

end Scene
end StackScript
