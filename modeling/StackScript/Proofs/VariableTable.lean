import StackScript.Proofs.ClosedProgram

namespace StackScript

section

variable {α β ε : Type} {f : α → Except ε β} {xs : List α}

theorem mapM_eq_ok_iff {ys : List β} :
    xs.mapM f = .ok ys ↔ List.Forall₂ (fun x y => f x = .ok y) xs ys := by
  constructor
  · exact forall₂_of_mapM
  · intro h
    induction h with
    | nil => rfl
    | cons hx _ ih =>
        rw [List.mapM_cons, hx, ih]
        rfl

theorem mapM_eq_error_iff {e : ε} : xs.mapM f = .error e ↔
    ∃ before x after, xs = before ++ x :: after ∧ (∀ y ∈ before, ∃ z, f y = .ok z) ∧
    f x = .error e := by
  induction xs with
  | nil =>
      constructor
      · intro h
        cases h
      · rintro ⟨before, x, after, h, -⟩
        simp at h
  | cons x xs ih =>
      rw [List.mapM_cons]
      cases hx : f x with
      | error e' =>
          constructor
          · intro h
            cases h
            exact ⟨[], x, xs, rfl, by simp, hx⟩
          · rintro ⟨_ | ⟨y, before⟩, z, after, h, hb, hz⟩
            · cases h
              cases hx.symm.trans hz
              rfl
            · cases h
              obtain ⟨z', hz'⟩ := hb x (by simp)
              rw [hx] at hz'
              cases hz'
      | ok y =>
          have hrest : (do let a ← (.ok y : Except ε β); let as ← xs.mapM f; return a :: as) =
              .error e ↔
                xs.mapM f = .error e := by
            cases xs.mapM f <;> simp [bind, Except.bind, pure, Except.pure]
          rw [hrest, ih]
          constructor
          · rintro ⟨before, z, after, rfl, hb, hz⟩
            exact ⟨x :: before, z, after, rfl, by simpa [hx] using hb, hz⟩
          · rintro ⟨_ | ⟨w, before⟩, z, after, h, hb, hz⟩
            · cases h
              rw [hx] at hz
              cases hz
            · cases h
              exact ⟨before, z, after, rfl, fun u hu => hb u (by simp [hu]), hz⟩

end

namespace Variables

inductive Request where
  | declare (name : String) (ty : Ty) (init : Init)
  | mark (name : String)

abbrev History := List (Request × Option Diagnostic)

namespace History

def accepted (h : History) : List Variable :=
  h.filterMap fun
    | (.declare name ty init, none) => some ⟨name, ty, init⟩
    | _ => none

def marked (h : History) : List String :=
  h.filterMap fun
    | (.mark name, _) => some name
    | _ => none

def Declares (h : History) (name : String) : Prop := ∃ v ∈ h.accepted, v.name = name

end History

section Replay

variable {T U : Type} (attempt : T → Request → Except Diagnostic T)
  (attempt' : U → Request → Except Diagnostic U)

/-- One more request. A table that refuses it stays as it is. -/
def advance (run : History × T) (r : Request) : History × T :=
  match attempt run.2 r with
  | .ok t => (run.1 ++ [(r, none)], t)
  | .error d => (run.1 ++ [(r, some d)], run.2)

def replay (start : T) (rs : List Request) : History × T := rs.foldl (advance attempt) ([], start)

variable {attempt attempt'}

theorem replay_concat (start : T) (rs : List Request) (r : Request) :
    replay attempt start (rs ++ [r]) = advance attempt (replay attempt start rs) r :=
  List.foldl_concat ..

theorem replay_induction {P : History × T → Prop} {start : T} (hstart : P ([], start))
    (hstep : ∀ run r, P run → P (advance attempt run r)) (rs : List Request) :
    P (replay attempt start rs) := by
  induction rs using List.reverseRecOn with
  | nil => exact hstart
  | append_singleton rs r ih =>
      rw [replay_concat]
      exact hstep _ r ih

/-- Two kinds of tables that answer alike from related states. -/
theorem replay_related {R : T → U → Prop} {t : T} {u : U} (hstart : R t u)
    (hstep : ∀ {t u} r, R t u → (∃ d, attempt t r = .error d ∧ attempt' u r = .error d) ∨
      ∃ t' u', attempt t r = .ok t' ∧ attempt' u r = .ok u' ∧ R t' u') (rs : List Request) :
    (replay attempt t rs).1 = (replay attempt' u rs).1 ∧
    R (replay attempt t rs).2 (replay attempt' u rs).2 := by
  induction rs using List.reverseRecOn with
  | nil => exact ⟨rfl, hstart⟩
  | append_singleton rs r ih =>
      obtain ⟨hh, hr⟩ := ih
      rw [replay_concat, replay_concat, advance, advance, hh]
      obtain ⟨d, ht, hu⟩ | ⟨t', u', ht, hu, hr'⟩ := hstep r hr
      · rw [ht, hu]
        exact ⟨rfl, hr⟩
      · rw [ht, hu]
        exact ⟨rfl, hr'⟩

theorem requests_replay (start : T) (rs : List Request) :
    (replay attempt start rs).1.map Prod.fst = rs := by
  induction rs using List.reverseRecOn with
  | nil => rfl
  | append_singleton rs r ih =>
      rw [replay_concat, advance]
      split
      · rw [List.map_append, ih, List.map_singleton]
      · rw [List.map_append, ih, List.map_singleton]

end Replay

def attempt (vs : Variables) : Request → Except Diagnostic Variables
  | .declare name ty init => vs.declare name ty init
  | .mark name => .ok (vs.markExported name)

def run (rs : List Request) : History × Variables := replay attempt empty rs

variable {vs : Variables} {c : Catalog} {d : Diagnostic}

theorem declare_eq_error_iff {name : String} {ty : Ty} {init : Init} :
    vs.declare name ty init = .error d ↔
    vs.contains name ∧ d = .alreadyDeclared name ∨
      vs.contains name = false ∧ ty = .void ∧ d = .voidVariable name := by
  rw [declare]
  by_cases hc : vs.contains name
  · simp [hc, eq_comm]
  · cases ty with
    | void => simp [hc, Ty.isVoid, eq_comm]
    | named n => simp [hc, Ty.isVoid]

/-- What a history tells about the table behind it. -/
structure Recalls (h : History) (vs : Variables) : Prop where
  declared : vs.declared = h.accepted
  exported : vs.exported = h.marked.eraseDups
  moves : Draft.Moves .empty ⟨vs, .empty, []⟩

namespace Recalls

variable {h : History}

theorem refused (hr : Recalls h vs) (r : Request) (d : Diagnostic) (ht : vs.attempt r = .error d) :
    Recalls (h ++ [(r, some d)]) vs := by
  cases r with
  | mark name => cases ht
  | declare name ty init =>
      refine ⟨?_, ?_, hr.moves⟩
      · rw [hr.declared]
        simp [History.accepted]
      · rw [hr.exported]
        simp [History.marked]

theorem granted (hr : Recalls h vs) (r : Request) {vs' : Variables} (ht : vs.attempt r = .ok vs') :
    Recalls (h ++ [(r, none)]) vs' := by
  cases r with
  | declare name ty init =>
      refine ⟨?_, ?_, hr.moves.tail (.declare ht)⟩
      · obtain ⟨-, -, rfl⟩ := declare_eq_ok ht
        simp [hr.declared, History.accepted]
      · obtain ⟨-, -, rfl⟩ := declare_eq_ok ht
        simp [hr.exported, History.marked]
  | mark name =>
      cases ht
      refine ⟨?_, ?_, hr.moves.tail (.mark _ name)⟩
      · simp [declared_markExported, hr.declared, History.accepted]
      · have hmarked : History.marked (h ++ [(.mark name, none)]) = h.marked ++ [name] := by
          simp [History.marked]
        rw [hmarked, List.eraseDups_append, markExported]
        by_cases hn : name ∈ h.marked
        · simp [hn, hr.exported, List.removeAll]
        · simp [hn, hr.exported, List.removeAll, List.eraseDups_cons]

theorem advance (run : History × Variables) (r : Request) (hr : Recalls run.1 run.2) :
    Recalls (Variables.advance attempt run r).1 (Variables.advance attempt run r).2 := by
  rw [Variables.advance]
  cases ht : run.2.attempt r with
  | ok vs' => exact hr.granted r ht
  | error d => exact hr.refused r d ht

theorem contains (hr : Recalls h vs) {x : String} : vs.contains x ↔ h.Declares x := by
  rw [contains_iff, hr.declared, List.mem_map, History.Declares]

end Recalls

structure Spelled (c : Catalog) (v : Variable) (w : DataVar) : Prop where
  name : w.name = v.name
  init : w.init = v.init
  machineType : c.machineType? v.ty.name = some w.machineType

theorem dataVar_eq_ok_iff {v : Variable} {w : DataVar} : dataVar c v = .ok w ↔ Spelled c v w := by
  rw [dataVar]
  cases hm : c.machineType? v.ty.name with
  | none =>
      constructor
      · intro h
        cases h
      · intro h
        cases hm.symm.trans h.machineType
  | some machineType =>
      constructor
      · intro h
        cases h
        exact ⟨rfl, rfl, hm⟩
      · intro h
        obtain ⟨name, type, init⟩ := w
        obtain ⟨rfl, rfl, ht⟩ := h
        rw [hm] at ht
        cases ht
        rfl

theorem dataVar_eq_error_iff {v : Variable} :
    dataVar c v = .error d ↔ c.isType v.ty.name = false ∧ d = .unknownType v.ty.name := by
  rw [dataVar, Catalog.isType]
  cases c.machineType? v.ty.name with
  | none => simp [eq_comm]
  | some machineType => simp

theorem exists_dataVar_iff {v : Variable} : (∃ w, dataVar c v = .ok w) ↔ c.isType v.ty.name := by
  rw [dataVar, Catalog.isType]
  cases c.machineType? v.ty.name with
  | none => simp
  | some machineType => simp

theorem dataSegment_eq_ok_iff {exports : List String} {vars : List DataVar} :
    vs.dataSegment c = .ok (exports, vars) ↔
      (∀ x ∈ vs.exported, vs.contains x) ∧ exports = vs.exported ∧
      List.Forall₂ (Spelled c) vs.declared vars := by
  have hforall : List.Forall₂ (Spelled c) vs.declared vars ↔
      vs.declared.mapM (dataVar c) = .ok vars := by
    rw [mapM_eq_ok_iff]
    simp only [dataVar_eq_ok_iff]
  rw [hforall, dataSegment]
  cases hfind : vs.exported.find? (!vs.contains ·) with
  | some x =>
      have hx : vs.contains x = false := by simpa using List.find?_some hfind
      refine ⟨fun h => (by cases h), fun h => ?_⟩
      rw [h.1 x (List.mem_of_find?_eq_some hfind)] at hx
      cases hx
  | none =>
      have hknown : ∀ x ∈ vs.exported, vs.contains x := by simpa using List.find?_eq_none.mp hfind
      cases vs.declared.mapM (dataVar c) with
      | error d => simp [Except.map]
      | ok ws =>
          simp only [Except.map, Except.ok.injEq, Prod.mk.injEq]
          exact ⟨fun h => ⟨hknown, h.1.symm, h.2⟩, fun h => ⟨h.2.1.symm, h.2.2⟩⟩

theorem dataSegment_eq_error_iff : vs.dataSegment c = .error d ↔
    (∃ before x after, vs.exported = before ++ x :: after ∧ (∀ y ∈ before, vs.contains y) ∧
      vs.contains x = false ∧ d = .unassignedGlobal x) ∨
    (∀ x ∈ vs.exported, vs.contains x) ∧ ∃ before v after, vs.declared = before ++ v :: after ∧
      (∀ w ∈ before, c.isType w.ty.name) ∧ c.isType v.ty.name = false ∧
      d = .unknownType v.ty.name := by
  rw [dataSegment]
  cases hfind : vs.exported.find? (!vs.contains ·) with
  | some x =>
      obtain ⟨hx, before, after, he, hb⟩ := List.find?_eq_some_iff_append.mp hfind
      simp only [Bool.not_eq_true', Bool.not_not] at hx hb
      constructor
      · intro h
        cases h
        exact .inl ⟨before, x, after, he, hb, hx, rfl⟩
      · rintro (⟨before', y, after', he', hb', hy, rfl⟩ | ⟨hknown, -⟩)
        · have hfirst : vs.exported.find? (!vs.contains ·) = some y := by
            rw [List.find?_eq_some_iff_append]
            exact ⟨by simp [hy], before', after', he', by simpa using hb'⟩
          rw [hfind] at hfirst
          cases hfirst
          rfl
        · rw [hknown x (by simp [he])] at hx
          cases hx
  | none =>
      have hknown : ∀ x ∈ vs.exported, vs.contains x := by simpa using List.find?_eq_none.mp hfind
      have hmap : (vs.declared.mapM (dataVar c)).map (vs.exported, ·) = .error d ↔
          vs.declared.mapM (dataVar c) = .error d := by
        cases vs.declared.mapM (dataVar c) <;> simp [Except.map]
      simp only [hmap, mapM_eq_error_iff, exists_dataVar_iff, dataVar_eq_error_iff]
      constructor
      · intro h
        exact .inr ⟨hknown, h⟩
      · rintro (⟨before, x, after, he, -, hx, -⟩ | ⟨-, h⟩)
        · rw [hknown x (by simp [he])] at hx
          cases hx
        · exact h

namespace Recalls

variable {h : History}

theorem exported_declared (hr : Recalls h vs) :
    (∀ x ∈ vs.exported, vs.contains x) ↔ ∀ x ∈ h.marked, h.Declares x := by
  simp only [hr.exported, List.mem_eraseDups, hr.contains]

theorem contains_eq_false (hr : Recalls h vs) {x : String} :
    vs.contains x = false ↔ ¬ h.Declares x := by
  rw [← hr.contains, Bool.not_eq_true]

theorem declare_eq_error_iff (hr : Recalls h vs) {name : String} {ty : Ty} {init : Init} :
    vs.declare name ty init = .error d ↔ h.Declares name ∧ d = .alreadyDeclared name ∨
      ¬ h.Declares name ∧ ty = .void ∧ d = .voidVariable name := by
  rw [Variables.declare_eq_error_iff, hr.contains, hr.contains_eq_false]

theorem dataSegment_eq_ok_iff (hr : Recalls h vs) {exports : List String} {vars : List DataVar} :
    vs.dataSegment c = .ok (exports, vars) ↔ (∀ x ∈ h.marked, h.Declares x) ∧
    exports = h.marked.eraseDups ∧
      List.Forall₂ (Spelled c) h.accepted vars := by
  rw [Variables.dataSegment_eq_ok_iff, hr.exported_declared, hr.exported, hr.declared]

theorem dataSegment_eq_error_iff (hr : Recalls h vs) : vs.dataSegment c = .error d ↔
    (∃ before x after, h.marked.eraseDups = before ++ x :: after ∧ (∀ y ∈ before, h.Declares y) ∧
      ¬ h.Declares x ∧ d = .unassignedGlobal x) ∨
    (∀ x ∈ h.marked, h.Declares x) ∧ ∃ before v after, h.accepted = before ++ v :: after ∧
      (∀ w ∈ before, c.isType w.ty.name) ∧ c.isType v.ty.name = false ∧
      d = .unknownType v.ty.name := by
  rw [Variables.dataSegment_eq_error_iff, hr.exported_declared, hr.exported, hr.declared]
  simp only [hr.contains, hr.contains_eq_false]

theorem exists_dataSegment_iff (hr : Recalls h vs) : (∃ data, vs.dataSegment c = .ok data) ↔
    (∀ x ∈ h.marked, h.Declares x) ∧ ∀ v ∈ h.accepted, c.isType v.ty.name := by
  constructor
  · rintro ⟨⟨exports, vars⟩, hd⟩
    obtain ⟨hknown, -, hvars⟩ := hr.dataSegment_eq_ok_iff.mp hd
    refine ⟨hknown, fun v hv => ?_⟩
    obtain ⟨w, -, hw⟩ := exists_of_mem_forall₂ hvars hv
    rw [Catalog.isType, hw.machineType]
    rfl
  · rintro ⟨hknown, htypes⟩
    cases hd : vs.dataSegment c with
    | ok data => exact ⟨data, rfl⟩
    | error d =>
        obtain ⟨before, x, after, he, -, hx, -⟩ | ⟨-, before, v, after, hv, -, hty, -⟩ :=
          hr.dataSegment_eq_error_iff.mp hd
        · refine absurd (hknown x ?_) hx
          rw [← List.mem_eraseDups, he]
          simp
        · rw [htypes v (by simp [hv])] at hty
          cases hty

end Recalls

theorem recalls_run (rs : List Request) : Recalls (run rs).1 (run rs).2 :=
  replay_induction (P := fun run => Recalls run.1 run.2) ⟨rfl, rfl, .refl⟩ Recalls.advance rs

theorem run_refused {rs : List Request} {r : Request} (hd : (run rs).2.attempt r = .error d) :
    run (rs ++ [r]) = ((run rs).1 ++ [(r, some d)], (run rs).2) := by
  rw [run] at hd ⊢
  rw [replay_concat, advance, hd]
  rfl

end Variables

theorem Lower.declare_eq_error {s t : Draft} {name : String} {ty : Ty} {init : Init} {f : Fault}
    (h : declare name ty init s = .error f t) :
    t = s ∧ ∃ d, s.vars.declare name ty init = .error d ∧ f = .rejected d := by
  obtain h | ⟨_, _, hg, h⟩ := bind_eq_error.mp h
  · cases h
  obtain ⟨rfl, rfl⟩ := get_eq_ok.mp hg
  obtain h | ⟨vs, _, _, h⟩ := bind_eq_error.mp h
  · cases hd : s.vars.declare name ty init with
    | ok vs =>
        rw [hd] at h
        cases h
    | error d =>
        rw [hd] at h
        cases h
        exact ⟨rfl, d, rfl, rfl⟩
  · cases h

/-- The table in three parts: the names in the order of their declaration, what each name stands
for, and the names that the host can see. -/
structure Ledger where
  order : List String
  entries : String → Option (Ty × Init)
  exported : List String

namespace Ledger

def empty : Ledger := ⟨[], fun _ => none, []⟩

def declare (l : Ledger) (name : String) (ty : Ty) (init : Init) : Except Diagnostic Ledger :=
  if (l.entries name).isSome then .error (.alreadyDeclared name)
  else if ty.isVoid then .error (.voidVariable name)
  else
    .ok { l with
      order := l.order ++ [name]
      entries := Function.update l.entries name (some (ty, init)) }

def markExported (l : Ledger) (name : String) : Ledger :=
  if l.exported.contains name then l else { l with exported := l.exported ++ [name] }

def attempt (l : Ledger) : Variables.Request → Except Diagnostic Ledger
  | .declare name ty init => l.declare name ty init
  | .mark name => .ok (l.markExported name)

def run (rs : List Variables.Request) : Variables.History × Ledger :=
  Variables.replay attempt empty rs

/-- Takes out the entry of each name in turn. A name without an entry is passed over. -/
def drain (c : Catalog) :
    List String → (String → Option (Ty × Init)) → Except Diagnostic (List DataVar)
  | [], _ => .ok []
  | name :: rest, entries =>
    match entries name with
    | none => drain c rest entries
    | some (ty, init) =>
      match c.machineType? ty.name with
      | none => .error (.unknownType ty.name)
      | some machineType =>
        (drain c rest (Function.update entries name none)).map (⟨name, machineType, init⟩ :: ·)

def passedOver : List String → (String → Option (Ty × Init)) → List String
  | [], _ => []
  | name :: rest, entries =>
    if (entries name).isNone then name :: passedOver rest entries
    else passedOver rest (Function.update entries name none)

def dataSegment (l : Ledger) (c : Catalog) : Except Diagnostic (List String × List DataVar) :=
  match l.exported.find? fun x => (l.entries x).isNone with
  | some name => .error (.unassignedGlobal name)
  | none => (drain c l.order l.entries).map (l.exported, ·)

/-- The two tables hold the same variables. -/
structure Keeps (l : Ledger) (vs : Variables) : Prop where
  order : l.order = vs.declared.map Variable.name
  entries : ∀ x, l.entries x = (vs.find? x).map fun v => (v.ty, v.init)
  exported : l.exported = vs.exported

variable {l : Ledger} {vs : Variables}

theorem Keeps.isSome (h : Keeps l vs) (x : String) : (l.entries x).isSome = vs.contains x := by
  rw [h.entries, Option.isSome_map, Variables.contains]

theorem Keeps.declare (h : Keeps l vs) {name : String} {ty : Ty} {init : Init} {vs' : Variables}
    (hv : vs.declare name ty init = .ok vs') :
    ∃ l', l.declare name ty init = .ok l' ∧ Keeps l' vs' := by
  obtain ⟨hnew, hvoid, rfl⟩ := Variables.declare_eq_ok hv
  refine ⟨⟨l.order ++ [name], Function.update l.entries name (some (ty, init)), l.exported⟩, ?_, ?_,
    ?_, h.exported⟩
  · simp [Ledger.declare, h.isSome, hnew, hvoid]
  · simp [h.order]
  · intro x
    rw [Variables.find?_declared]
    by_cases hx : x = name
    · subst hx
      have hfind : vs.find? x = none := by simpa [Variables.contains] using hnew
      simp [hfind]
    · simp [Ne.symm hx, h.entries, Function.update_of_ne hx]

theorem Keeps.attempt (r : Variables.Request) (h : Keeps l vs) :
    (∃ d, l.attempt r = .error d ∧ vs.attempt r = .error d) ∨
      ∃ l' vs', l.attempt r = .ok l' ∧ vs.attempt r = .ok vs' ∧ Keeps l' vs' := by
  cases r with
  | declare name ty init =>
      cases hv : vs.declare name ty init with
      | ok vs' =>
          obtain ⟨l', hl, hk⟩ := h.declare hv
          exact .inr ⟨l', vs', hl, hv, hk⟩
      | error d =>
          refine .inl ⟨d, ?_, hv⟩
          rw [Ledger.attempt, Ledger.declare, h.isSome]
          obtain ⟨hc, rfl⟩ | ⟨hc, rfl, rfl⟩ := Variables.declare_eq_error_iff.mp hv
          · rw [if_pos hc]
          · rw [if_neg (by simp [hc])]
            rfl
  | mark name =>
      refine .inr ⟨_, _, rfl, rfl, ?_⟩
      rw [Ledger.markExported, Variables.markExported, h.exported]
      split
      · exact h
      · exact ⟨h.order, h.entries, rfl⟩

theorem keeps_run (rs : List Variables.Request) :
    (run rs).1 = (Variables.run rs).1 ∧ Keeps (run rs).2 (Variables.run rs).2 :=
  Variables.replay_related ⟨rfl, fun _ => rfl, rfl⟩ Keeps.attempt rs

/-- Different names with entries are all found, and each entry is the one that was made under
the name. -/
theorem drain_eq (c : Catalog) {ws : List Variable} {entries : String → Option (Ty × Init)}
    (hn : (ws.map Variable.name).Nodup) (he : ∀ v ∈ ws, entries v.name = some (v.ty, v.init)) :
    drain c (ws.map Variable.name) entries = ws.mapM (Variables.dataVar c) ∧
      passedOver (ws.map Variable.name) entries = [] := by
  induction ws generalizing entries with
  | nil => exact ⟨rfl, rfl⟩
  | cons v ws ih =>
      rw [List.map_cons, List.nodup_cons] at hn
      have hv : entries v.name = some (v.ty, v.init) := he v (by simp)
      have hrest : ∀ w ∈ ws, Function.update entries v.name none w.name = some (w.ty, w.init) := by
        intro w hw
        have hne : w.name ≠ v.name := by
          intro h
          apply hn.1
          rw [← h]
          exact List.mem_map_of_mem hw
        rw [Function.update_of_ne hne]
        exact he w (by simp [hw])
      obtain ⟨hdrain, hpassed⟩ := ih hn.2 hrest
      constructor
      · rw [List.map_cons, drain, hv, List.mapM_cons, Variables.dataVar]
        dsimp only
        rw [hdrain]
        cases c.machineType? v.ty.name with
        | none => rfl
        | some machineType => cases ws.mapM (Variables.dataVar c) <;> rfl
      · rw [List.map_cons, passedOver, hv]
        exact hpassed

theorem Keeps.dataSegment_eq (h : Keeps l vs) (c : Catalog)
    (hm : Draft.Moves .empty ⟨vs, .empty, []⟩) :
    l.dataSegment c = vs.dataSegment c ∧ passedOver l.order l.entries = [] := by
  have hfound : ∀ v ∈ vs.declared, l.entries v.name = some (v.ty, v.init) := by
    intro v hv
    have hfind : vs.find? v.name = some v := hm.find?_of_mem hv
    rw [h.entries, hfind]
    rfl
  have hnodup : (vs.declared.map Variable.name).Nodup := hm.nodup.1
  obtain ⟨hdrain, hpassed⟩ := drain_eq c hnodup hfound
  constructor
  · have hnone : (fun x => (l.entries x).isNone) = fun x => !vs.contains x := by
      funext x
      rw [← h.isSome, Option.not_isSome]
    cases hfind : vs.exported.find? (!vs.contains ·) with
    | some name => simp only [dataSegment, Variables.dataSegment, hnone, h.exported, hfind]
    | none =>
        simp only [dataSegment, Variables.dataSegment, hnone, h.exported, hfind, h.order, hdrain]
  · rw [h.order]
    exact hpassed

end Ledger

namespace Variables

/-- A table after any requests, and the data that it becomes. A declaration is refused if its name
is declared or its type is void; then nothing has changed. The variables are the declarations that
were not refused, each name once, and the exports are the marked names at their first marking. There
is data if every export is declared and every type is known to the catalog; otherwise the first
export that is not, or else the first type, is named. Kept in three parts the table gives the same
answers and the same data, and no name is passed over. -/
theorem run_dataSegment (c : Catalog) (rs : List Request) :
    ∃ h vs, run rs = (h, vs) ∧ h.map Prod.fst = rs ∧
    (∀ name ty init d, vs.declare name ty init = .error d ↔
      h.Declares name ∧ d = .alreadyDeclared name ∨
      ¬ h.Declares name ∧ ty = .void ∧ d = .voidVariable name) ∧
    (∀ name ty init d, vs.declare name ty init = .error d →
      run (rs ++ [.declare name ty init]) = (h ++ [(.declare name ty init, some d)], vs) ∧
      ∀ s f t, s.vars = vs → Lower.declare name ty init s = .error f t → t = s) ∧
    vs.declared = h.accepted ∧ (h.accepted.map Variable.name).Nodup ∧
    (∀ exports vars, vs.dataSegment c = .ok (exports, vars) ↔
      (∀ x ∈ h.marked, h.Declares x) ∧ exports = h.marked.eraseDups ∧
      List.Forall₂ (Spelled c) h.accepted vars) ∧
    ((∃ data, vs.dataSegment c = .ok data) ↔
      (∀ x ∈ h.marked, h.Declares x) ∧ ∀ v ∈ h.accepted, c.isType v.ty.name) ∧
    (∀ d, vs.dataSegment c = .error d ↔
      (∃ before x after, h.marked.eraseDups = before ++ x :: after ∧ (∀ y ∈ before, h.Declares y) ∧
        ¬ h.Declares x ∧ d = .unassignedGlobal x) ∨
      (∀ x ∈ h.marked, h.Declares x) ∧ ∃ before v after, h.accepted = before ++ v :: after ∧
        (∀ w ∈ before, c.isType w.ty.name) ∧ c.isType v.ty.name = false ∧
        d = .unknownType v.ty.name) ∧
    ∃ l, Ledger.run rs = (h, l) ∧ l.dataSegment c = vs.dataSegment c ∧
      Ledger.passedOver l.order l.entries = [] := by
  have hr := recalls_run rs
  obtain ⟨hhistory, hk⟩ := Ledger.keeps_run rs
  obtain ⟨hdata, hpassed⟩ := hk.dataSegment_eq c hr.moves
  refine ⟨(run rs).1, (run rs).2, rfl, requests_replay empty rs, ?_, ?_, hr.declared, ?_, ?_, ?_,
    ?_, (Ledger.run rs).2, ?_, hdata, hpassed⟩
  · intro name ty init d
    exact hr.declare_eq_error_iff
  · intro name ty init d hd
    refine ⟨run_refused hd, fun s f t _ hs => ?_⟩
    exact (Lower.declare_eq_error hs).1
  · rw [← hr.declared]
    exact hr.moves.nodup.1
  · intro exports vars
    exact hr.dataSegment_eq_ok_iff
  · exact hr.exists_dataSegment_iff
  · intro d
    exact hr.dataSegment_eq_error_iff
  · rw [← hhistory]

end Variables
end StackScript
