import StackScript.Proofs.Lowering.Moves

namespace StackScript

def Stmt.function? (c : Catalog) : Stmt → Option Function
  | .define _ name params returns _ =>
    if Names.isEvent name then none
    else match Lower.signature c params returns with
      | .error _ => none
      | .ok (types, result) =>
        some ⟨name, types, result, params.map fun p =>
          Names.qualify (Names.functionId name types) p.name⟩
  | _ => none

def Stmt.event? : Stmt → Option String
  | .define _ name _ _ _ => if Names.isEvent name then some name else none
  | _ => none

theorem Lower.checks_annotationType (c : Catalog) (typeName : Option String) :
    Checks (annotationType c typeName) := by
  rw [annotationType]
  split
  · exact .ok _
  · split
    · exact .ok _
    · exact .error rfl

theorem Lower.checks_paramType (c : Catalog) (p : Param) : Checks (paramType c p) := by
  rw [paramType]
  split
  · exact .error rfl
  · refine (checks_annotationType c _).bind fun ty => ?_
    split
    · exact .error rfl
    · exact .ok _

theorem Lower.checks_signature (c : Catalog) (params : List Param) (returns : Option String) :
    Checks (signature c params returns) :=
  (Checks.mapM (checks_paramType c) params).bind fun _ =>
    (checks_annotationType c returns).bind fun _ => .ok _

theorem Lower.signature_length {c : Catalog} {params : List Param} {returns : Option String}
    {types : List Ty} {ret : Ty} (h : signature c params returns = .ok (types, ret)) :
    params.length = types.length := by
  rw [signature] at h
  cases ht : params.mapM (paramType c) with
  | error e => rw [ht] at h; cases h
  | ok ts =>
      cases hr : annotationType c returns with
      | error e => rw [ht, hr] at h; cases h
      | ok r =>
          rw [ht, hr] at h
          cases h
          exact (forall₂_of_mapM ht).length_eq

theorem Stmt.function?_define {c : Catalog} {p : Pos} {name : String} {params : List Param}
    {returns : Option String} {body : List Stmt} {f : Function}
    (h : function? c (.define p name params returns body) = some f) :
    Names.isEvent name = false ∧ f.name = name ∧
      Lower.signature c params returns = .ok (f.types, f.ret) ∧
      f.params.length = f.types.length := by
  rw [function?] at h
  split at h
  case isTrue => cases h
  case isFalse he =>
    split at h
    case h_1 => cases h
    case h_2 hsig =>
      cases h
      exact ⟨by simpa using he, rfl, hsig, by simpa using Lower.signature_length hsig⟩

/-- Names and parameter types tell the functions apart. -/
def Functions.Distinct (fs : Functions) : Prop :=
  fs.Pairwise fun f g => ¬ (f.name = g.name ∧ f.types = g.types)

theorem Functions.Distinct.find? {fs : Functions} {f : Function} (hd : fs.Distinct) (hf : f ∈ fs) :
    fs.find? f.name f.types = some f := by
  obtain ⟨before, after, rfl⟩ := List.append_of_mem hf
  have hfront := (List.pairwise_append.mp hd).2.2
  have hnone : before.find? (fun g => g.name = f.name ∧ g.types = f.types) = none := by
    refine List.find?_eq_none.mpr fun g hg hgf => hfront g hg f (by simp) ?_
    exact decide_eq_true_eq.mp hgf
  rw [Functions.find?, List.find?_append, hnone, Option.none_or]
  simp

theorem Functions.add_eq_ok {fs gs : Functions} {f : Function} (h : fs.add f = .ok gs) :
    fs.find? f.name f.types = none ∧ gs = fs ++ [f] := by
  rw [add] at h
  split at h
  case isTrue => cases h
  case isFalse hn =>
    cases h
    exact ⟨by simpa using hn, rfl⟩

theorem Functions.Distinct.add {fs gs : Functions} {f : Function} (hd : fs.Distinct)
    (h : fs.add f = .ok gs) : gs.Distinct := by
  obtain ⟨hn, rfl⟩ := add_eq_ok h
  refine List.pairwise_append.mpr ⟨hd, List.pairwise_singleton .., fun g hg f' hf' hgf => ?_⟩
  obtain rfl := List.mem_singleton.mp hf'
  exact List.find?_eq_none.mp hn g hg (decide_eq_true_eq.mpr hgf)

def Param.types (params : List Param) : List Ty := params.filterMap fun p => p.typeName.map .named

def Param.locals (scope : String) (params : List Param) : List (String × Ty) :=
  params.filterMap fun p => p.typeName.map fun ty => (Names.qualify scope p.name, .named ty)

theorem Param.eq_named_of_mem {params : List Param} {ty : Ty} (h : ty ∈ Param.types params) :
    ty = .named ty.name := by
  obtain ⟨p, _, hp⟩ := List.mem_filterMap.mp h
  obtain ⟨name, _, rfl⟩ := Option.map_eq_some_iff.mp hp
  rfl

namespace Stmt

def locals : Stmt → List (String × Ty)
  | .define _ name params _ _ =>
    Param.locals (if Names.isEvent name then name else Names.functionId name (Param.types params))
      params
  | _ => []

def slots (c : Catalog) : Stmt → List (String × Ty)
  | .define _ name _ _ _ =>
    if Names.isEvent name then ((c.event? name).getD []).map fun slot =>
      (slot.name, .named slot.ty) else []
  | _ => []

/-- The names that a statement announces, in the order in which they are looked at. -/
def announces (c : Catalog) (st : Stmt) : List (String × Ty) := st.slots c ++ st.locals

end Stmt

def Catalog.reserved (c : Catalog) : List (String × Ty) :=
  (Names.returnAddress, .uint32) ::
    ([("this_trans", "UnityEngineTransform"), ("this_gameObj", "UnityEngineGameObject")].filter
      fun v => c.isType v.2).map fun v => (v.1, .named v.2)

def Module.announces (c : Catalog) (m : Module) : List (String × Ty) :=
  c.reserved ++ m.body.flatMap (Stmt.announces c)

/-- The new table says what the old one said, and of other names what comes first in a list. -/
def Draft.Learns (s t : Draft) (vars : List (String × Ty)) : Prop :=
  ∀ x, (t.vars.find? x).map Variable.ty = ((s.vars.find? x).map Variable.ty).or (vars.lookup x)

namespace Draft.Learns

variable {s t u : Draft} {vars ws : List (String × Ty)}

theorem of_vars (h : t.vars = s.vars) : Learns s t [] := by
  intro x
  rw [h, List.lookup_nil, Option.or_none]

theorem trans (h : Learns s t vars) (k : Learns t u ws) : Learns s u (vars ++ ws) := by
  intro x
  rw [k x, h x, List.lookup_append, Option.or_assoc]

theorem still (h : Learns s t vars) (k : u.vars = t.vars) : Learns s u vars := by
  intro x
  rw [k, h x]

theorem of_contains {x : String} (ty : Ty) (h : s.vars.contains x) : Learns s s [(x, ty)] := by
  intro y
  obtain ⟨v, hv⟩ := Option.isSome_iff_exists.mp h
  by_cases hy : y = x
  · rw [hy, hv]
    rfl
  · rw [List.lookup_cons, beq_false_of_ne hy, List.lookup_nil, Option.or_none]

end Draft.Learns

namespace Lower

open Draft

variable (c : Catalog)

def header (m : Module) : Lower Functions := do
  declareReserved c
  note (.declarations m.body.length)
  let functions ← declareDefinitions c [] m.body
  note .generation
  return functions

theorem module_eq (m : Module) : module c m = (do
    let functions ← header c m
    topLevelAll c functions m.body
    finish c) := by
  simp [module, header]

namespace Along

variable {c} {R : Draft → Draft → Prop} [Closed R]

theorem declareThis (vars : List (String × String)) : Along R (do
    for (name, ty) in vars do
      if c.isType ty then Lower.declare name (.named ty) (.literal "this")) := by
  refine .bind (forIn (fun (name, ty) _ => ?_) ..) fun _ => pure _
  dsimp only
  split
  · exact .bind (declare trivial) fun _ => pure _
  · exact pure _

theorem declareReserved : Along R (declareReserved c) :=
  .bind (declare ⟨rfl, rfl⟩) fun _ => declareThis _

theorem declareAll (vars : List (String × Ty)) : Along R (declareAll vars) := by
  induction vars with
  | nil => exact pure _
  | cons v vars ih => exact .bind (declare trivial) fun _ => ih

theorem declareSlots (event : String) (slots : List (Slot × Ty)) :
    Along R (declareSlots event slots) := by
  induction slots with
  | nil => exact pure _
  | cons slot slots ih =>
      rw [Lower.declareSlots]
      split
      · exact reject_bind rfl _
      · refine .bind (contains _) fun known => ?_
        split
        · exact .bind (declare trivial) fun _ => ih
        · exact ih

theorem addEvent (name : String) : Along R (addEvent name) := by
  refine ⟨.modify _, fun {s _ t} h => Closed.still ?_⟩
  obtain rfl := modify_eq_ok.mp h
  exact .of_vars (.of_move (.event s name) rfl rfl) rfl id

theorem declareEvent (name : String) (params : List Param) (returns : Option String) :
    Along R (declareEvent c name params returns) := by
  have hend (types : List Ty) : Along R (do
      Lower.declareAll ((params.map fun p => Names.qualify name p.name).zip types)
      Lower.addEvent name
      Lower.note (.event name types)) :=
    .bind (declareAll _) fun _ => .bind (addEvent _) fun _ => note _
  refine .accept_bind (checks_signature ..) fun (types, ret) _ => ?_
  dsimp only
  split
  · exact reject_bind rfl _
  · split
    · split
      · exact reject_bind rfl _
      · exact .bind (declareSlots ..) fun _ => hend _
    · split
      · exact reject_bind rfl _
      · exact hend _

end Along

theorem declareFunction_eq_ok {fs gs : Functions} {name : String} {params : List Param}
    {returns : Option String} {s t : Draft}
    (h : declareFunction c fs name params returns s = .ok gs t) :
    Still s t ∧ ∃ types ret, signature c params returns = .ok (types, ret) ∧
      fs.add ⟨name, types, ret, params.map fun p =>
        Names.qualify (Names.functionId name types) p.name⟩
        = .ok gs := by
  simp only [declareFunction, bind_eq_ok, accept_eq_ok, pure_eq_ok] at h
  obtain ⟨⟨types, ret⟩, _, ⟨hs, rfl⟩, gs', _, ⟨ha, rfl⟩, _, s₁, hd, _, s₂, hn, rfl, rfl⟩ := h
  exact ⟨Closed.trans ((Along.declareAll _).of_ok hd) ((Along.note _).of_ok hn), types, ret, hs, ha⟩

theorem declare_learns {name : String} {ty : Ty} {init : Init} {u : Unit} {s t : Draft}
    (h : declare name ty init s = .ok u t) : Learns s t [(name, ty)] ∧ t.Typed name ty := by
  obtain ⟨vs, hv, rfl⟩ := declare_eq_ok.mp h
  obtain ⟨hnew, _, rfl⟩ := Variables.declare_eq_ok hv
  constructor
  · intro x
    rw [Variables.find?_declared, List.lookup_cons, List.lookup_nil]
    by_cases hx : name = x
    · subst hx
      cases hf : s.vars.find? name <;> simp
    · rw [if_neg hx, beq_false_of_ne (Ne.symm hx), Option.or_none, Option.or_none]
  · rw [Variables.contains, Option.isSome_eq_false_iff, Option.isNone_iff_eq_none] at hnew
    exact ⟨⟨name, ty, init⟩, by rw [Variables.find?_declared, hnew, if_pos rfl]; rfl, rfl⟩

theorem declareAll_learns {vars : List (String × Ty)} {u : Unit} {s t : Draft}
    (h : declareAll vars s = .ok u t) :
    Learns s t vars ∧ ∀ v ∈ vars, t.Typed v.1 v.2 := by
  induction vars generalizing s with
  | nil =>
      obtain ⟨_, rfl⟩ := pure_eq_ok.mp h
      exact ⟨.of_vars rfl, by simp⟩
  | cons v vars ih =>
      obtain ⟨_, s₁, hd, hr⟩ := bind_eq_ok.mp h
      obtain ⟨lv, tv⟩ := declare_learns hd
      obtain ⟨lr, tr⟩ := ih hr
      have hm : Moves s₁ t := (Still.emits ((Along.declareAll vars).of_ok hr)).moves
      exact ⟨lv.trans lr, List.forall_mem_cons.mpr ⟨tv.moves hm, tr⟩⟩

theorem declareSlots_learns {event : String} {slots : List (Slot × Ty)} {u : Unit} {s t : Draft}
    (h : declareSlots event slots s = .ok u t) :
    Learns s t (slots.map fun v => (v.1.name, v.2)) ∧ ∀ v ∈ slots, v.1.ty = v.2.name := by
  induction slots generalizing s with
  | nil =>
      obtain ⟨_, rfl⟩ := pure_eq_ok.mp h
      exact ⟨.of_vars rfl, by simp⟩
  | cons v slots ih =>
      obtain ⟨slot, ty⟩ := v
      rw [declareSlots] at h
      by_cases hty : slot.ty = ty.name
      · rw [if_neg (not_not.mpr hty)] at h
        simp only [bind_eq_ok, contains_eq_ok] at h
        obtain ⟨known, _, ⟨hk, rfl⟩, h⟩ := h
        have hslot : ∃ s₁, Learns s s₁ [(slot.name, ty)] ∧
            declareSlots event slots s₁ = .ok u t := by
          cases known with
          | true => exact ⟨s, .of_contains ty hk, h⟩
          | false =>
              obtain ⟨_, s₁, hd, hr⟩ := bind_eq_ok.mp h
              exact ⟨s₁, (declare_learns hd).1, hr⟩
        obtain ⟨s₁, l₁, hr⟩ := hslot
        obtain ⟨lr, tr⟩ := ih hr
        exact ⟨l₁.trans lr, List.forall_mem_cons.mpr ⟨hty, tr⟩⟩
      · rw [if_pos hty] at h
        obtain ⟨_, _, hrej, _⟩ := bind_eq_ok.mp h
        exact (reject_eq_ok.mp hrej).elim

variable {c} in
theorem paramType_eq_ok {p : Param} {ty : Ty} (h : paramType c p = .ok ty) :
    ∃ name, p.typeName = some name ∧ ty = .named name := by
  rw [paramType] at h
  cases hn : p.typeName with
  | none => rw [hn] at h; cases h
  | some name =>
      refine ⟨name, rfl, ?_⟩
      rw [hn] at h
      dsimp only at h
      rw [annotationType, Ty.ofTypeName] at h
      by_cases hv : name = Ty.voidName
      · rw [if_pos hv] at h; cases h
      · rw [if_neg hv] at h
        dsimp only at h
        by_cases ht : c.isType name
        · rw [if_pos ht] at h
          cases h
          rfl
        · rw [if_neg ht] at h; cases h

variable {c} in
theorem signature_eq_ok {params : List Param} {returns : Option String} {types : List Ty} {ret : Ty}
    (h : signature c params returns = .ok (types, ret)) :
    types = Param.types params ∧ params.map Param.typeName = types.map (fun ty => some ty.name) ∧
      ∀ scope, (params.map fun p => Names.qualify scope p.name).zip types =
      Param.locals scope params := by
  rw [signature] at h
  cases ht : params.mapM (paramType c) with
  | error e => rw [ht] at h; cases h
  | ok ts =>
      obtain rfl : ts = types := by
        cases hr : annotationType c returns with
        | error e => rw [ht, hr] at h; cases h
        | ok r => rw [ht, hr] at h; cases h; rfl
      clear h
      have hp := forall₂_of_mapM ht
      clear ht
      induction hp with
      | nil => exact ⟨rfl, rfl, fun _ => rfl⟩
      | @cons p ty params types hp _ ih =>
          obtain ⟨name, hn, rfl⟩ := paramType_eq_ok hp
          obtain ⟨rfl, hnames, hz⟩ := ih
          refine ⟨by simp [Param.types, hn], ?_, fun scope => ?_⟩
          · rw [List.map_cons, List.map_cons, hnames, hn]
            rfl
          · rw [List.map_cons, List.zip_cons_cons, hz scope]
            simp [Param.locals, hn]

theorem declareAll_events {vars : List (String × Ty)} {u : Unit} {s t : Draft}
    (h : declareAll vars s = .ok u t) :
    t.emitter.events = s.emitter.events := by
  induction vars generalizing s with
  | nil =>
      obtain ⟨_, rfl⟩ := pure_eq_ok.mp h
      rfl
  | cons v vars ih =>
      obtain ⟨_, s₁, hd, hr⟩ := bind_eq_ok.mp h
      rw [ih hr, declare_events hd]

theorem declareSlots_events {event : String} {slots : List (Slot × Ty)} {u : Unit} {s t : Draft}
    (h : declareSlots event slots s = .ok u t) : t.emitter.events = s.emitter.events := by
  induction slots generalizing s with
  | nil =>
      obtain ⟨_, rfl⟩ := pure_eq_ok.mp h
      rfl
  | cons v slots ih =>
      rw [declareSlots] at h
      split at h
      · obtain ⟨_, _, hrej, _⟩ := bind_eq_ok.mp h
        exact (reject_eq_ok.mp hrej).elim
      · simp only [bind_eq_ok, contains_eq_ok] at h
        obtain ⟨known, _, ⟨_, rfl⟩, h⟩ := h
        cases known with
        | true => exact ih h
        | false =>
            obtain ⟨_, s₁, hd, hr⟩ := bind_eq_ok.mp h
            rw [ih hr, declare_events hd]

variable {c} in
theorem declareEvent_steps {name : String} {params : List Param}
    {returns : Option String} {u : Unit} {s t : Draft}
    (h : declareEvent c name params returns s = .ok u t) :
    ∃ types ret s₁ s₂ s₃, signature c params returns = .ok (types, ret) ∧
      (c.event? name = none ∧ s = s₁ ∨ ∃ slots, c.event? name = some slots ∧
        slots.length = types.length ∧ declareSlots name (slots.zip types) s = .ok () s₁) ∧
      declareAll ((params.map fun p => Names.qualify name p.name).zip types) s₁ = .ok () s₂ ∧
      addEvent name s₂ = .ok () s₃ ∧ note (.event name types) s₃ = .ok u t := by
  simp only [declareEvent, bind_eq_ok, accept_eq_ok] at h
  obtain ⟨⟨types, ret⟩, _, ⟨hsig, rfl⟩, h⟩ := h
  refine ⟨types, ret, ?_⟩
  dsimp only at h
  split at h
  case isTrue =>
    obtain ⟨_, _, hrej, _⟩ := bind_eq_ok.mp h
    exact (reject_eq_ok.mp hrej).elim
  case isFalse =>
    cases hev : c.event? name with
    | none =>
        rw [hev] at h
        dsimp only at h
        split at h
        · obtain ⟨_, _, hrej, _⟩ := bind_eq_ok.mp h
          exact (reject_eq_ok.mp hrej).elim
        · simp only [bind_eq_ok] at h
          obtain ⟨_, s₂, hd, _, s₃, ha, hn⟩ := h
          exact ⟨s, s₂, s₃, hsig, .inl ⟨rfl, rfl⟩, hd, ha, hn⟩
    | some slots =>
        rw [hev] at h
        dsimp only at h
        split at h
        case isTrue =>
          obtain ⟨_, _, hrej, _⟩ := bind_eq_ok.mp h
          exact (reject_eq_ok.mp hrej).elim
        case isFalse hlen =>
          simp only [bind_eq_ok] at h
          obtain ⟨_, s₁, hs, _, s₂, hd, _, s₃, ha, hn⟩ := h
          exact ⟨s₁, s₂, s₃, hsig, .inr ⟨slots, rfl, not_not.mp hlen, hs⟩, hd, ha, hn⟩

variable {c} in
theorem declareEvent_events {name : String} {params : List Param}
    {returns : Option String} {u : Unit} {s t : Draft}
    (h : declareEvent c name params returns s = .ok u t) :
    t.emitter.events = s.emitter.events ++ [name] := by
  obtain ⟨types, ret, s₁, s₂, s₃, _, hs, hd, ha, hn⟩ := declareEvent_steps h
  have hs₁ : s₁.emitter.events = s.emitter.events := by
    obtain ⟨_, rfl⟩ | ⟨slots, _, _, hs⟩ := hs
    · rfl
    · exact declareSlots_events hs
  obtain rfl := modify_eq_ok.mp ha
  rw [(note_quiet hn).events, Emitter.addEvent, declareAll_events hd, hs₁]

variable {c} in
theorem declareEvent_eq_ok {name : String} {params : List Param}
    {returns : Option String} {u : Unit} {s t : Draft}
    (h : declareEvent c name params returns s = .ok u t) :
    ∃ s₁, (∀ slots, c.event? name = some slots → params.map Param.typeName = slots.map fun slot =>
      some slot.ty) ∧
      Learns s s₁ (((c.event? name).getD []).map fun slot => (slot.name, .named slot.ty)) ∧
      Learns s₁ t (Param.locals name params) ∧ ∀ v ∈ Param.locals name params, t.Typed v.1 v.2 := by
  obtain ⟨types, ret, s₁, s₂, s₃, hsig, hs, hd, ha, hn⟩ := declareEvent_steps h
  obtain ⟨htypes, hnames, hlocals⟩ := signature_eq_ok hsig
  have hend : Learns s₁ t (Param.locals name params) ∧
      ∀ v ∈ Param.locals name params, t.Typed v.1 v.2 := by
    rw [hlocals name] at hd
    obtain ⟨ld, td⟩ := declareAll_learns hd
    have hm : Moves s₂ t :=
      (Still.emits ((Along.addEvent name).of_ok ha)).moves.trans (note_emits hn).moves
    obtain rfl := modify_eq_ok.mp ha
    exact ⟨ld.still ((note_vars hn).trans rfl), fun v hv => (td v hv).moves hm⟩
  refine ⟨s₁, ?_, ?_, hend⟩
  · intro slots hslots
    obtain ⟨hev, _⟩ | ⟨slots', hev, hlen, hs⟩ := hs
    · cases hev.symm.trans hslots
    · cases hev.symm.trans hslots
      have hf : List.Forall₂ Eq (slots.map fun slot => some slot.ty)
          (types.map fun ty => some ty.name) := by
        rw [List.forall₂_map_left_iff, List.forall₂_map_right_iff, List.forall₂_iff_zip]
        exact ⟨hlen, fun h => congrArg some ((declareSlots_learns hs).2 _ h)⟩
      rw [List.forall₂_eq_eq_eq] at hf
      exact hnames.trans hf.symm
  · obtain ⟨hev, rfl⟩ | ⟨slots, hev, hlen, hs⟩ := hs
    · rw [hev]
      exact .of_vars rfl
    · -- a slot is declared with the type of its parameter, which has the name that the
      -- catalog gives
      obtain ⟨ls, hty⟩ := declareSlots_learns hs
      rw [hev, Option.getD_some, ← List.map_fst_zip hlen.le, List.map_map]
      have hslots : (slots.zip types).map (fun v => (v.1.name, v.2)) =
          (slots.zip types).map ((fun slot => (slot.name, Ty.named slot.ty)) ∘ Prod.fst) := by
        refine List.map_congr_left fun v hv => ?_
        have hnamed := Param.eq_named_of_mem (htypes ▸ (List.of_mem_zip hv).2)
        rw [Function.comp_apply, hty v hv, ← hnamed]
      rwa [hslots] at ls

/-- What the first pass makes of some statements: their functions, each under a key of its own, the
names that they announce, the variables of their parameters, and their events, each of them once. -/
structure Declares (c : Catalog) (fs : Functions) (ss : List Stmt) (s : Draft) (gs : Functions)
    (t : Draft) :
    Prop where
  still : Still s t
  functions : gs = fs ++ ss.filterMap (Stmt.function? c)
  distinct : fs.Distinct → gs.Distinct
  learns : Learns s t (ss.flatMap (Stmt.announces c))
  locals : ∀ st ∈ ss, ∀ v ∈ st.locals, t.Typed v.1 v.2
  events : ∀ p name params returns body, .define p name params returns body ∈ ss →
    Names.isEvent name → ∀ slots, c.event? name = some slots →
    params.map Param.typeName = slots.map fun slot => some slot.ty
  entries : t.emitter.events = s.emitter.events ++ ss.filterMap Stmt.event?
  once : s.emitter.events.Nodup → t.emitter.events.Nodup

variable {c} {fs gs : Functions} {s t : Draft}

theorem Declares.nil (fs : Functions) (s : Draft) : Declares c fs [] s fs s :=
  ⟨.refl s, by simp, id, .of_vars rfl, by simp, by simp, by simp, id⟩

theorem Declares.cons {hs : Functions} {u : Draft} {st : Stmt} {ss : List Stmt}
    (h : Declares c fs [st] s gs t) (k : Declares c gs ss t hs u) :
    Declares c fs (st :: ss) s hs u where
  still := Closed.trans h.still k.still
  functions := by
    rw [k.functions, h.functions, List.append_assoc, ← List.filterMap_append]
    rfl
  distinct hf := k.distinct (h.distinct hf)
  learns := by
    have hl := h.learns.trans k.learns
    rwa [List.flatMap_singleton] at hl
  locals := by
    have hst := h.locals st (List.mem_singleton_self st)
    exact List.forall_mem_cons.mpr ⟨fun v hv => (hst v hv).moves k.still.emits.moves, k.locals⟩
  events p name params returns body hm := by
    obtain rfl | hm := List.mem_cons.mp hm
    · exact h.events p name params returns body (List.mem_singleton_self _)
    · exact k.events p name params returns body hm
  entries := by
    rw [k.entries, h.entries, List.append_assoc, ← List.filterMap_append]
    rfl
  once hs := k.once (h.once hs)

theorem declares_event {p : Pos} {name : String} {params : List Param} {returns : Option String}
    {body : List Stmt} (he : Names.isEvent name) (hnew : name ∉ s.emitter.events)
    (h : declareEvent c name params returns s = .ok () t) :
    Declares c fs [.define p name params returns body] s fs t := by
  obtain ⟨s₁, hslots, ls, ll, tl⟩ := declareEvent_eq_ok h
  have hev := declareEvent_events h
  refine ⟨(Along.declareEvent ..).of_ok h, by simp [Stmt.function?, he], id, ?_, ?_, ?_,
    by simp [hev, Stmt.event?, he], ?_⟩
  · rw [List.flatMap_singleton, Stmt.announces, Stmt.slots, Stmt.locals, if_pos he, if_pos he]
    exact ls.trans ll
  · rw [List.forall_mem_singleton, Stmt.locals, if_pos he]
    exact tl
  · rintro _ _ _ _ _ hm _
    cases List.mem_singleton.mp hm
    exact hslots
  · intro hs
    rw [hev]
    exact List.nodup_append.mpr ⟨hs, by simp, by grind⟩

theorem declares_function {p : Pos} {name : String} {params : List Param} {returns : Option String}
    {body : List Stmt} (he : ¬ Names.isEvent name)
    (h : declareFunction c fs name params returns s = .ok gs t) :
    Declares c fs [.define p name params returns body] s gs t := by
  obtain ⟨hstill, _⟩ := declareFunction_eq_ok c h
  simp only [declareFunction, bind_eq_ok, accept_eq_ok, pure_eq_ok] at h
  obtain ⟨⟨types, ret⟩, _, ⟨hsig, rfl⟩, gs', _, ⟨hadd, rfl⟩, _, s₁, hd, _, s₂, hn, rfl, rfl⟩ := h
  obtain ⟨_, hgs⟩ := Functions.add_eq_ok hadd
  obtain ⟨htypes, _, hlocals⟩ := signature_eq_ok hsig
  rw [hlocals] at hd
  obtain ⟨ld, td⟩ := declareAll_learns hd
  have hl : Stmt.locals (.define p name params returns body) =
      Param.locals (Names.functionId name types) params := by
    rw [Stmt.locals, if_neg he, htypes]
  have hev : s₂.emitter.events = s.emitter.events := by
    rw [(note_quiet hn).events, declareAll_events hd]
  refine ⟨hstill, by rw [hgs]; simp [Stmt.function?, he, hsig], fun hf => hf.add hadd, ?_, ?_, ?_,
    by simp [hev, Stmt.event?, he], hev ▸ id⟩
  · rw [List.flatMap_singleton, Stmt.announces, Stmt.slots, if_neg he, hl]
    exact ld.still (note_vars hn)
  · rw [List.forall_mem_singleton, hl]
    exact fun v hv => (td v hv).moves (note_emits hn).moves
  · rintro _ _ _ _ _ hm hev
    cases List.mem_singleton.mp hm
    exact absurd hev he

theorem declares_other {st : Stmt}
    (hst : ∀ p name params returns body, st ≠ .define p name params returns body) :
    Declares c fs [st] s fs s := by
  have hnone : st.function? c = none ∧ st.announces c = [] ∧ st.locals = [] ∧ st.event? = none := by
    cases st with
    | define p name params returns body => exact absurd rfl (hst p name params returns body)
    | _ => exact ⟨rfl, rfl, rfl, rfl⟩
  obtain ⟨hf, ha, hl, he⟩ := hnone
  refine ⟨.refl s,
    by simp [hf], id, by simpa [ha] using Learns.of_vars rfl, by simp [hl], ?_, by simp [he], id⟩
  rintro p name params returns body hm
  exact absurd (List.mem_singleton.mp hm).symm (hst p name params returns body)

theorem declares_of_declareDefinitions {ss : List Stmt}
    (h : declareDefinitions c fs ss s = .ok gs t) :
    Declares c fs ss s gs t := by
  fun_induction declareDefinitions c fs ss generalizing s t with
  | case1 fs =>
      obtain ⟨rfl, rfl⟩ := pure_eq_ok.mp h
      exact .nil ..
  | case2 fs p name params returns body rest ih =>
      simp only [bind_eq_ok, located_eq_ok] at h
      obtain ⟨hs, u, hd, hr⟩ := h
      refine .cons ?_ (ih hs hr)
      split at hd
      case isTrue he =>
        obtain ⟨d, _, hg, hd⟩ := bind_eq_ok.mp hd
        obtain ⟨rfl, rfl⟩ := get_eq_ok.mp hg
        split at hd
        case isTrue =>
          obtain ⟨_, _, hrej, _⟩ := bind_eq_ok.mp hd
          exact (reject_eq_ok.mp hrej).elim
        case isFalse hnew =>
          obtain ⟨_, u', hev, hp⟩ := bind_eq_ok.mp hd
          obtain ⟨rfl, rfl⟩ := pure_eq_ok.mp hp
          exact declares_event he (by simpa using hnew) hev
      case isFalse he => exact declares_function he hd
  | case3 fs st rest hd ih => exact .cons (declares_other hd) (ih h)

theorem declareThis_learns {vars : List (String × String)} {u : Unit} (h : (do
    for (name, ty) in vars do
      if c.isType ty then declare name (.named ty) (.literal "this") : Lower Unit) s = .ok u t) :
    Learns s t ((vars.filter fun v => c.isType v.2).map fun v => (v.1, .named v.2)) := by
  induction vars generalizing s with
  | nil =>
      obtain ⟨_, rfl⟩ := pure_eq_ok.mp h
      exact .of_vars rfl
  | cons v vars ih =>
      rw [List.forIn_cons, bind_assoc] at h
      obtain ⟨r, s₁, h₁, hr⟩ := bind_eq_ok.mp h
      dsimp only at h₁
      by_cases ht : c.isType v.2
      · rw [if_pos ht] at h₁
        obtain ⟨_, _, hd, hp⟩ := bind_eq_ok.mp h₁
        obtain ⟨rfl, rfl⟩ := pure_eq_ok.mp hp
        rw [List.filter_cons, if_pos ht]
        exact (declare_learns hd).1.trans (ih hr)
      · rw [if_neg ht] at h₁
        obtain ⟨rfl, rfl⟩ := pure_eq_ok.mp h₁
        rw [List.filter_cons, if_neg ht]
        exact ih hr

theorem declareThis_events {vars : List (String × String)} {u : Unit} (h : (do
    for (name, ty) in vars do
      if c.isType ty then declare name (.named ty) (.literal "this") : Lower Unit) s = .ok u t) :
    t.emitter.events = s.emitter.events := by
  induction vars generalizing s with
  | nil =>
      obtain ⟨_, rfl⟩ := pure_eq_ok.mp h
      rfl
  | cons v vars ih =>
      rw [List.forIn_cons, bind_assoc] at h
      obtain ⟨r, s₁, h₁, hr⟩ := bind_eq_ok.mp h
      dsimp only at h₁
      split at h₁
      · obtain ⟨_, _, hd, hp⟩ := bind_eq_ok.mp h₁
        obtain ⟨rfl, rfl⟩ := pure_eq_ok.mp hp
        rw [ih hr, declare_events hd]
      · obtain ⟨rfl, rfl⟩ := pure_eq_ok.mp h₁
        exact ih hr

variable (c)

theorem header_declares {m : Module} {fs : Functions} {s t : Draft} (h : header c m s = .ok fs t) :
    ∃ s₁ s₂, Still s s₁ ∧ Learns s s₁ c.reserved ∧ Declares c [] m.body s₁ fs s₂ ∧ Still s₂ t ∧
    t.vars = s₂.vars ∧
      s₁.emitter.events = s.emitter.events ∧ t.emitter.events = s₂.emitter.events := by
  simp only [header, bind_eq_ok, pure_eq_ok] at h
  obtain ⟨_, s₀, hr, _, s₁, hn, fs', s₂, hd, _, s₃, hn', rfl, rfl⟩ := h
  refine ⟨s₁, s₂, Closed.trans (Along.declareReserved.of_ok hr) ((Along.note _).of_ok hn), ?_,
    declares_of_declareDefinitions hd, (Along.note _).of_ok hn', note_vars hn', ?_,
    (note_quiet hn').events⟩
  all_goals obtain ⟨_, u, hret, hthis⟩ := bind_eq_ok.mp hr
  · exact ((declare_learns hret).1.trans (declareThis_learns hthis)).still (note_vars hn)
  · rw [(note_quiet hn).events, declareThis_events hthis, declare_events hret]

theorem header_eq_ok {m : Module} {fs : Functions} {s t : Draft} (h : header c m s = .ok fs t) :
    Still s t ∧ fs = m.body.filterMap (Stmt.function? c) ∧ fs.Distinct := by
  obtain ⟨s₁, s₂, h₁, _, D, h₂, _⟩ := header_declares c h
  refine ⟨Closed.trans h₁ (Closed.trans D.still h₂), by simpa using D.functions, ?_⟩
  exact D.distinct (by simp [Functions.Distinct])

/-- Before any code, the table knows the names that are announced, each with the type that
comes first. -/
theorem header_typed {m : Module} {fs : Functions} {t : Draft} (h : header c m .empty = .ok fs t)
    {x : String} {ty : Ty} : t.Typed x ty ↔ (m.announces c).lookup x = some ty := by
  obtain ⟨s₁, s₂, _, hl, D, _, hv, _⟩ := header_declares c h
  have hx := (hl.trans D.learns).still hv x
  rw [typed_iff, hx]
  rfl

theorem function?_locals {st : Stmt} {f : Function} (h : st.function? c = some f) :
    st.locals = f.params.zip f.types := by
  cases st with
  | define p name params returns body =>
      rw [Stmt.function?] at h
      split at h
      case isTrue => cases h
      case isFalse he =>
        split at h
        case h_1 => cases h
        case h_2 hsig =>
          cases h
          obtain ⟨rfl, _, hlocals⟩ := signature_eq_ok hsig
          rw [Stmt.locals, if_neg he, hlocals]
  | _ => cases h

def Known (fs : Functions) (s : Draft) : Prop := ∀ f ∈ fs, ∀ x ∈ f.params, s.vars.contains x

theorem Known.moves {fs : Functions} {s t : Draft} (h : Known fs s) (hm : Moves s t) : Known fs t :=
  fun f hf x hx => hm.contains (h f hf x hx)

theorem header_params {m : Module} {fs : Functions} {s t : Draft} (h : header c m s = .ok fs t) :
    ∀ f ∈ fs, List.Forall₂ t.Typed f.params f.types := by
  obtain ⟨s₁, s₂, _, _, D, h₂, _⟩ := header_declares c h
  intro f hf
  rw [D.functions, List.nil_append] at hf
  obtain ⟨st, hst, hf⟩ := List.mem_filterMap.mp hf
  refine List.forall₂_iff_zip.mpr ⟨?_, fun {x ty} hv => ?_⟩
  · cases st with
    | define p name params returns body => exact (Stmt.function?_define hf).2.2.2
    | _ => cases hf
  · rw [← function?_locals c hf] at hv
    exact (D.locals st hst _ hv).moves h₂.emits.moves

theorem header_known {m : Module} {fs : Functions} {t : Draft} (h : header c m .empty = .ok fs t) :
    t.vars.contains Names.returnAddress ∧ Known fs t := by
  have hret : t.Typed Names.returnAddress .uint32 := (header_typed c h).mpr rfl
  refine ⟨hret.contains, fun f hf x hx => ?_⟩
  obtain ⟨ty, _, hty⟩ := exists_of_mem_forall₂ (header_params c h f hf) hx
  exact Typed.contains hty

end Lower
end StackScript
