import StackScript.Proofs.Lowering.Rules
import StackScript.Proofs.Positions
import StackScript.Proofs.VariableTable

namespace StackScript

namespace Lower

/-- A fault of the step has a place only if it is one of these. -/
structure Points {α : Type} (ps : List Pos) (x : Lower α) : Prop where
  of_error : ∀ {s f t p}, x s = .error f t → f.pos? = some p → p ∈ ps

theorem Declines.pos? {vs : Variables} {x : String} {f : Fault} (h : Declines vs x f) :
    f.pos? = none := by
  cases h <;> rfl

/-- A fault starts without a place and gets the place of the first node around it that has one. -/
theorem points_rules (ps : List Pos) : Rules ps (fun _ => True) fun {_} => Points ps where
  harmless {α x} hx := by
    refine ⟨fun {s f t p} h _ => ?_⟩
    obtain ⟨a, u, ha, -⟩ := hx s
    rw [ha] at h
    cases h
  bindLabel label := by
    refine ⟨fun {s f t p} h hp => ?_⟩
    rw [(bindLabel_fault h).1] at hp
    cases hp
  reject {α d} hd := by
    refine ⟨fun h hp => ?_⟩
    cases h
    exact hd.place _ hp
  declare _ := by
    refine ⟨fun h hp => ?_⟩
    rw [(Declines.of_declare h).pos?] at hp
    cases hp
  generate _ := by
    refine ⟨fun h hp => ?_⟩
    rw [(Declines.of_generate h).pos?] at hp
    cases hp
  located {α p x} hp hx := by
    refine ⟨fun h hq => ?_⟩
    obtain ⟨f, hf, rfl⟩ := located_eq_error.mp h
    obtain hq | rfl := f.pos?_locate hq
    · exact hx.of_error hf hq
    · exact hp
  bind {α β x f} hx hf := by
    refine ⟨fun h hp => ?_⟩
    obtain h | ⟨a, u, ha, h⟩ := bind_eq_error.mp h
    · exact hx.of_error h hp
    · exact (hf ha).of_error h hp

variable {α β : Type} {step : β → α → Lower β} {xs : List α} {b : β} {s t : Draft} {f : Fault}

/-- A pass that fails does so at an element. It gets through all the elements before it, and
no further. -/
theorem foldlM_fails (h : xs.foldlM step b s = .error f t) :
    ∃ k x b' u, xs[k]? = some x ∧ step b' x u = .error f t ∧
      ∀ j, (∃ b₁ s₁, (xs.take j).foldlM step b s = .ok b₁ s₁) ↔ j ≤ k := by
  induction xs generalizing b s with
  | nil => cases h
  | cons x xs ih =>
      rw [List.foldlM_cons] at h
      obtain h | ⟨b₁, s₁, h₁, h⟩ := bind_eq_error.mp h
      · refine ⟨0, x, b, s, rfl, h, fun j => ?_⟩
        cases j with
        | zero => exact iff_of_true ⟨b, s, rfl⟩ le_rfl
        | succ j => simp [List.foldlM_cons, bind_eq_ok, h]
      · obtain ⟨k, y, b', u, hy, hstep, hfar⟩ := ih h
        refine ⟨k + 1, y, b', u, hy, hstep, fun j => ?_⟩
        cases j with
        | zero => exact iff_of_true ⟨b, s, rfl⟩ (Nat.zero_le _)
        | succ j =>
            rw [Nat.add_le_add_iff_right, ← hfar j, List.take_succ_cons, List.foldlM_cons]
            simp [bind_eq_ok, h₁]

variable {c : Catalog} {fs : Functions} {ss : List Stmt}

def declareDefinition (c : Catalog) (fs : Functions) (st : Stmt) : Lower Functions :=
  declareDefinitions c fs [st]

theorem declareDefinitions_eq :
    declareDefinitions c fs ss = ss.foldlM (declareDefinition c) fs := by
  induction ss generalizing fs with
  | nil => rfl
  | cons st ss ih =>
      rw [List.foldlM_cons]
      simp only [← ih]
      cases st <;> simp [declareDefinition, declareDefinitions]

theorem topLevelAll_eq : topLevelAll c fs ss = ss.foldlM
    (fun _ st => located st.pos (topLevel c fs st)) () := by
  induction ss with
  | nil => rfl
  | cons st ss ih => rw [List.foldlM_cons, topLevelAll, ih]

theorem place_of_located {p : Pos} {ps : List Pos} {x : Lower α} {d : Diagnostic}
    (hp : p ≠ .unknown) (hx : Points ps x) (h : located p x s = .error (.rejected d) t) :
    ∃ q ∈ p :: ps, d.pos = some q := by
  obtain ⟨f, hf, hd⟩ := located_eq_error.mp h
  cases f with
  | dangling label => cases hd
  | rejected e =>
      cases hd
      rw [Diagnostic.locate, if_neg hp]
      cases he : e.pos with
      | none => exact ⟨p, by simp, rfl⟩
      | some q => exact ⟨q, List.mem_cons_of_mem _ (hx.of_error hf he), rfl⟩

theorem place_of_declareDefinition {st : Stmt} {d : Diagnostic} (hst : st.pos ≠ .unknown)
    (h : declareDefinition c fs st s = .error (.rejected d) t) :
    ∃ p name params returns body, st = .define p name params returns body ∧ d.pos = some p := by
  cases st with
  | define p name params returns body =>
      rw [declareDefinition, declareDefinitions] at h
      obtain h | ⟨_, _, _, h⟩ := bind_eq_error.mp h
      · obtain ⟨q, hq, hd⟩ := place_of_located hst
          ((points_rules []).definition p body (fun _ _ => trivial) fun _ _ => trivial) h
        cases List.mem_singleton.mp hq
        exact ⟨p, name, params, returns, body, rfl, hd⟩
      · cases h
  | _ => cases h

theorem exists_declareReserved (c : Catalog) : ∃ s, declareReserved c .empty = .ok () s := by
  rw [declareReserved]
  cases ht : c.isType "UnityEngineTransform" <;> cases hg : c.isType "UnityEngineGameObject" <;>
    simp only [List.forIn_cons, List.forIn_nil, ht, hg, if_true, if_false, Bool.false_eq_true] <;>
    exact ⟨_, rfl⟩

theorem finish_eq_error (h : finish c s = .error f t) :
    (∃ d, s.vars.dataSegment c = .error d ∧ f = .rejected d) ∨
      ∃ exports vars, s.vars.dataSegment c = .ok (exports, vars) ∧
        (s.emitter.toProgram exports vars).link = .error f := by
  obtain h | ⟨_, _, hs, h⟩ := bind_eq_error.mp h
  · cases h
  obtain ⟨rfl, rfl⟩ := get_eq_ok.mp hs
  cases hdata : s.vars.dataSegment c with
  | error d =>
      rw [hdata] at h
      cases h
      exact .inl ⟨d, rfl, rfl⟩
  | ok data =>
      obtain ⟨exports, vars⟩ := data
      refine .inr ⟨exports, vars, rfl, ?_⟩
      rw [hdata] at h
      cases hl : (s.emitter.toProgram exports vars).link with
      | error g =>
          simp only [accept, pure_bind, hl] at h
          obtain h | ⟨_, _, _, h⟩ := bind_eq_error.mp h
          · cases h
          · cases h
            rfl
      | ok q =>
          simp only [accept, pure_bind, hl] at h
          obtain h | ⟨_, _, _, h⟩ := bind_eq_error.mp h
          · cases h
          · obtain h | ⟨_, _, _, h⟩ := bind_eq_error.mp h <;> cases h

def declareUpTo (c : Catalog) (m : Module) (k : Nat) : Lower Functions := do
  declareReserved c
  note (.declarations m.body.length)
  declareDefinitions c [] (m.body.take k)

theorem header_eq (c : Catalog) (m : Module) : header c m = (do
    let fs ← declareUpTo c m m.body.length
    note .generation
    return fs) := by
  simp [header, declareUpTo]

theorem declareUpTo_eq (c : Catalog) (m : Module) :
    ∃ s₀, ∀ k, declareUpTo c m k .empty = declareDefinitions c [] (m.body.take k) s₀ := by
  obtain ⟨s, hs⟩ := exists_declareReserved c
  refine ⟨{ s with journal := .declarations m.body.length :: s.journal }, fun k => ?_⟩
  change EStateM.bind _ _ _ = _
  rw [EStateM.bind, hs]
  rfl

end Lower

namespace Module

open Lower

variable {c : Catalog} {m : Module} {f : Fault} {d : Diagnostic} {fs : Functions} {s₀ t : Draft}
  {k : Nat}

/-- What the definitions among the first `k` statements have declared, before any code. -/
def declared (c : Catalog) (m : Module) (k : Nat) : Option (Functions × Draft) :=
  match declareUpTo c m k .empty with
  | .ok fs s => some (fs, s)
  | .error _ _ => none

theorem declared_isSome :
    (m.declared c k).isSome ↔ ∃ fs s, declareUpTo c m k .empty = .ok fs s := by
  rw [declared]
  split
  case h_1 h => simp [h]
  case h_2 h => simp [h]

theorem lowered_isSome (hh : header c m .empty = .ok fs s₀) :
    (m.lowered c k).isSome ↔ ∃ u s, topLevelAll c fs (m.body.take k) s₀ = .ok u s := by
  rw [Option.isSome_iff_exists]
  constructor
  · rintro ⟨⟨gs, s⟩, h⟩
    obtain ⟨s₁, hh', ht⟩ := upTo_eq_ok.mp (lowered_eq_some.mp h)
    rw [hh] at hh'
    cases hh'
    exact ⟨(), s, ht⟩
  · rintro ⟨u, s, ht⟩
    exact ⟨(fs, s), lowered_eq_some.mpr (upTo_eq_ok.mpr ⟨s₀, hh, ht⟩)⟩

theorem place_of_header (hm : ∀ st ∈ m.body, st.pos ≠ .unknown)
    (h : header c m .empty = .error (.rejected d) t) :
    ∃ k p name params returns body, m.body[k]? = some (.define p name params returns body) ∧
      (∀ j, (m.declared c j).isSome ↔ j ≤ k) ∧ d.pos = some p := by
  obtain ⟨s₀, hs₀⟩ := declareUpTo_eq c m
  rw [header_eq] at h
  obtain h | ⟨_, _, _, h⟩ := bind_eq_error.mp h
  · rw [hs₀, List.take_length, declareDefinitions_eq] at h
    obtain ⟨k, st, gs, u, hst, hstep, hfar⟩ := foldlM_fails h
    obtain ⟨p, name, params, returns, body, rfl, hd⟩ :=
      place_of_declareDefinition (hm st (List.mem_of_getElem? hst)) hstep
    refine ⟨k, p, name, params, returns, body, hst, fun j => ?_, hd⟩
    simp only [declared_isSome, hs₀, declareDefinitions_eq, hfar j]
  · cases h

/-- The first statement that cannot be lowered is told by a place in it. -/
theorem place_of_topLevelAll (hm : ∀ st ∈ m.body, st.pos ≠ .unknown)
    (hh : header c m .empty = .ok fs s₀) (h : topLevelAll c fs m.body s₀ = .error (.rejected d) t) :
    ∃ k st q, m.body[k]? = some st ∧ (∀ j, (m.lowered c j).isSome ↔ j ≤ k) ∧ q ∈ st.places ∧
    d.pos = some q := by
  rw [topLevelAll_eq] at h
  obtain ⟨k, st, _, u, hst, hstep, hfar⟩ := foldlM_fails h
  obtain ⟨q, hq, hd⟩ := place_of_located (hm st (List.mem_of_getElem? hst))
    ((points_rules _).topLevel (List.Subset.refl _) fun _ _ => ⟨trivial, trivial⟩) hstep
  refine ⟨k, st, q, hst, fun j => ?_, ?_, hd⟩
  · simp only [lowered_isSome hh, topLevelAll_eq, hfar j]
  · obtain rfl | hq := List.mem_cons.mp hq
    · exact st.pos_mem_places
    · exact hq

theorem declared_of_header (hh : header c m .empty = .ok fs s₀) :
    (m.declared c m.body.length).isSome := by
  rw [header_eq, bind_eq_ok] at hh
  obtain ⟨gs, s, hs, _⟩ := hh
  exact declared_isSome.mpr ⟨gs, s, hs⟩

/-- Why the variables of a module cannot be written down; this is about no statement. -/
theorem problem_of_dataSegment {vs : Variables} (h : vs.dataSegment c = .error d) :
    d.pos = none ∧ ((∃ x ∈ vs.exported, vs.contains x = false ∧ d.problem = .undefined .var x) ∨
      ∃ v ∈ vs.declared, c.isType v.ty.name = false ∧ d.problem = .undefined .type v.ty.name) := by
  obtain ⟨before, x, after, he, -, hx, rfl⟩ | ⟨-, before, v, after, hv, -, hty, rfl⟩ :=
    Variables.dataSegment_eq_error_iff.mp h
  · exact ⟨rfl, .inl ⟨x, by simp [he], hx, rfl⟩⟩
  · exact ⟨rfl, .inr ⟨v, by simp [hv], hty, rfl⟩⟩

theorem module_of_compile (h : m.compile c = .error f) :
    ∃ t, Lower.module c m .empty = .error f t := by
  rw [compile, compileNoted] at h
  split at h
  · cases h
  · cases h
    exact ⟨_, ‹_›⟩

/-- The place of a refusal, in a module whose statements outside of definitions all have known
places. If a definition cannot be declared, it is the place of the first such definition. If a
statement cannot be lowered, it is a place in the first such statement. Otherwise no place is
told, all statements have been lowered, and an exported variable or the type of a variable is
not known. -/
theorem place_of_compile (hm : ∀ st ∈ m.body, st.pos ≠ .unknown) (h : m.compile c = .error f) :
    ∃ d, f = .rejected d ∧
      ((∃ k p name params returns body, m.body[k]? = some (.define p name params returns body) ∧
          (∀ j, (m.declared c j).isSome ↔ j ≤ k) ∧ d.pos = some p) ∨
        (∃ k st q, m.body[k]? = some st ∧ (m.declared c m.body.length).isSome ∧
          (∀ j, (m.lowered c j).isSome ↔ j ≤ k) ∧ q ∈ st.places ∧ d.pos = some q) ∨
        d.pos = none ∧ ∃ fs F, m.lowered c m.body.length = some (fs, F) ∧
          F.vars.dataSegment c = .error d ∧
          ((∃ x ∈ F.vars.exported, F.vars.contains x = false ∧ d.problem = .undefined .var x) ∨
            ∃ v ∈ F.vars.declared, c.isType v.ty.name = false ∧
              d.problem = .undefined .type v.ty.name)) := by
  obtain ⟨d, rfl⟩ := rejected_of_compile h
  refine ⟨d, rfl, ?_⟩
  obtain ⟨t, hmodule⟩ := module_of_compile h
  rw [module_eq] at hmodule
  obtain hheader | ⟨fs, s₀, hh, hmodule⟩ := bind_eq_error.mp hmodule
  · exact .inl (place_of_header hm hheader)
  obtain hbody | ⟨_, F, hF, hfinish⟩ := bind_eq_error.mp hmodule
  · obtain ⟨k, st, q, hst, hfar, hq⟩ := place_of_topLevelAll hm hh hbody
    exact .inr (.inl ⟨k, st, q, hst, declared_of_header hh, hfar, hq⟩)
  have hlowered : m.lowered c m.body.length = some (fs, F) :=
    lowered_eq_some.mpr (upTo_eq_ok.mpr ⟨s₀, hh, by rwa [List.take_length]⟩)
  obtain ⟨e, hdata, he⟩ | ⟨exports, vars, hdata, hlink⟩ := finish_eq_error hfinish
  · cases he
    obtain ⟨hpos, hproblem⟩ := problem_of_dataSegment hdata
    exact .inr (.inr ⟨hpos, fs, F, hlowered, hdata, hproblem⟩)
  · obtain ⟨q, hq⟩ := exists_link_of_lowered hlowered hdata
    rw [hlink] at hq
    cases hq

def misnamed : Module :=
  ⟨[.assign ⟨1, 1⟩ (.name ⟨1, 1⟩ "n") (.int ⟨1, 5⟩ 3),
    .define ⟨2, 1⟩ "_start" [] none
      [.branch ⟨3, 5⟩ (.call ⟨3, 8⟩ (.name ⟨3, 8⟩ "SystemBoolean") [.name ⟨3, 22⟩ "n"])
        [.assign ⟨4, 9⟩ (.name ⟨4, 9⟩ "k") (.name ⟨4, 13⟩ "lost")] [.pass ⟨5, 9⟩]]]⟩

theorem misnamed_place : ∃ d, misnamed.compile scalars = .error (.rejected d) ∧
    d.pos = some ⟨4, 13⟩ ∧ ∀ j, (misnamed.lowered scalars j).isSome ↔ j ≤ 1 := by
  have hd : misnamed.compile scalars =
      .error (.rejected ((Diagnostic.unknownName "lost").locate ⟨4, 13⟩)) := by
    decide +kernel
  obtain ⟨d, he, hplace⟩ := place_of_compile (by decide) hd
  cases he
  refine ⟨_, hd, rfl, ?_⟩
  obtain ⟨k, p, _, _, _, _, hk, _, hp⟩ | ⟨k, st, q, hk, _, hfar, hq, hp⟩ | ⟨hp, _⟩ := hplace
  · rcases k with - | - | k <;> cases hk
    cases hp
  · rcases k with - | - | k <;> cases hk
    · cases hp
      exact absurd hq (by decide)
    · exact hfar
  · cases hp

end Module
end StackScript
