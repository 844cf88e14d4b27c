import StackScript.Proofs.Linking

namespace StackScript

namespace Label

def address? (labels : List Label) (id : Nat) : Option Nat := labels[id]?.bind Label.addr

def isUnbound (labels : List Label) (id : Nat) : Bool := (address? labels id).isNone

def unresolved (labels : List Label) (id : Nat) : Fault :=
  match labels[id]? with
  | some l => .rejected (.unresolvedLabel l.name)
  | none => .dangling id

/-- The value, if all these labels have addresses. Otherwise the first that has none is named. -/
def require {α : Type} (labels : List Label) (ids : List Nat) (x : α) : Except Fault α :=
  match ids.find? (isUnbound labels) with
  | none => .ok x
  | some id => .error (unresolved labels id)

end Label

def Target.refs : Target → List Nat
  | .addr _ => []
  | .label id => [id]

def Target.settle (labels : List Label) : Target → Target
  | .addr a => .addr a
  | .label id => (Label.address? labels id).elim (.label id) .addr

def Instr.refs (i : Instr) : List Nat := i.target?.toList.flatMap Target.refs

def Instr.settle (labels : List Label) : Instr → Instr
  | .jump t => .jump (t.settle labels)
  | .jumpIfFalse t => .jumpIfFalse (t.settle labels)
  | i => i

def Init.refs : Init → List Nat
  | .label id => [id]
  | _ => []

def Init.settle (labels : List Label) : Init → Init
  | .label id => (Label.address? labels id).elim (.label id) .addr
  | init => init

def DataVar.settle (labels : List Label) (v : DataVar) : DataVar :=
  { v with init := v.init.settle labels }

namespace Program

/-- The labels that the program refers to: in the order of the code, then in that of the
variables. -/
def pending (p : Program) : List Nat := p.code.flatMap Instr.refs ++ p.vars.flatMap (·.init.refs)

def settled (p : Program) : Program :=
  { p with
    code := p.code.map (Instr.settle p.labels)
    vars := p.vars.map (DataVar.settle p.labels) }

/-- The two programs differ in what they have for references to labels, and in nothing else. -/
structure Resembles (p q : Program) : Prop where
  exports : q.exports = p.exports
  events : q.events = p.events
  labels : q.labels = p.labels
  names : q.vars.map DataVar.name = p.vars.map DataVar.name
  types : q.vars.map DataVar.machineType = p.vars.map DataVar.machineType
  vars : ∀ (k : Nat) (v : DataVar), p.vars[k]? = some v → v.init.refs = [] → q.vars[k]? = some v
  code : ∀ (k : Nat) (i : Instr), p.code[k]? = some i → i.refs = [] → q.code[k]? = some i
  addresses : q.addresses = p.addresses
  codeSize : q.codeSize = p.codeSize
  effects : q.code.map Instr.effect = p.code.map Instr.effect

end Program

namespace Label

variable {α β : Type} {labels : List Label}

theorem address_eq (labels : List Label) (id : Nat) :
    address labels id = (address? labels id).elim (.error (unresolved labels id)) .ok := by
  rw [address, get, address?, unresolved]
  cases labels[id]? with
  | none => rfl
  | some l => cases hl : l.addr <;> simp [bind, Except.bind, hl]

theorem require_singleton (id : Nat) (x : α) :
    require labels [id] x = (address? labels id).elim (.error (unresolved labels id)) fun _ =>
    .ok x := by
  cases ha : address? labels id <;> simp [require, isUnbound, ha]

theorem require_map (ids : List Nat) (x : α) (f : α → β) :
    (require labels ids x).map f = require labels ids (f x) := by
  rw [require, require]
  cases ids.find? (isUnbound labels) <;> rfl

theorem require_pair {γ : Type} (ids more : List Nat) (x : α) (y : β) (f : α → β → γ) :
    (do let a ← require labels ids x; let b ← require labels more y; return f a b) =
      require labels (ids ++ more) (f x y) := by
  simp only [require, List.find?_append]
  cases ids.find? (isUnbound labels) with
  | some id => rfl
  | none => cases more.find? (isUnbound labels) <;> rfl

theorem mapM_eq_require {refs : α → List Nat} {settle : α → α} {resolve : α → Except Fault α}
    (h : ∀ x, resolve x = require labels (refs x) (settle x)) (xs : List α) :
    xs.mapM resolve = require labels (xs.flatMap refs) (xs.map settle) := by
  induction xs with
  | nil => rfl
  | cons x xs ih =>
      rw [List.mapM_cons, ih, h]
      exact require_pair _ _ _ _ _

theorem find?_isUnbound_eq_none {ids : List Nat} :
    ids.find? (isUnbound labels) = none ↔ ∀ id ∈ ids, ∃ a, address? labels id = some a := by
  simp only [List.find?_eq_none, isUnbound, Bool.not_eq_true, Option.isNone_eq_false_iff,
    Option.isSome_iff_exists]

end Label

section Settle

variable {labels : List Label}

theorem Target.resolve_eq (t : Target) :
    t.resolve labels = Label.require labels t.refs (t.settle labels) := by
  cases t with
  | addr a => rfl
  | label id =>
      rw [resolve, Label.address_eq, refs, settle, Label.require_singleton]
      cases Label.address? labels id <;> rfl

theorem Instr.resolve_eq (i : Instr) :
    i.resolve labels = Label.require labels i.refs (i.settle labels) := by
  cases i with
  | jump t | jumpIfFalse t =>
      rw [resolve, Target.resolve_eq, Label.require_map]
      simp [refs, settle, target?]
  | _ => rfl

theorem DataVar.resolve_eq (v : DataVar) :
    v.resolve labels = Label.require labels v.init.refs (v.settle labels) := by
  obtain ⟨name, type, init⟩ := v
  cases init with
  | label id =>
      simp only [resolve, settle, Init.settle, Init.refs, Label.address_eq, Label.require_singleton]
      cases Label.address? labels id <;> rfl
  | _ => rfl

theorem Target.refs_settle (t : Target) :
    (t.settle labels).refs = t.refs.filter (Label.isUnbound labels) := by
  cases t with
  | addr a => rfl
  | label id =>
      rw [settle, refs, List.filter_singleton, Label.isUnbound]
      cases Label.address? labels id <;> rfl

theorem Instr.refs_settle (i : Instr) :
    (i.settle labels).refs = i.refs.filter (Label.isUnbound labels) := by
  cases i with
  | jump t | jumpIfFalse t => simp [refs, settle, target?, Target.refs_settle]
  | _ => rfl

theorem Init.refs_settle (init : Init) :
    (init.settle labels).refs = init.refs.filter (Label.isUnbound labels) := by
  cases init with
  | label id =>
      rw [settle, refs, List.filter_singleton, Label.isUnbound]
      cases Label.address? labels id <;> rfl
  | _ => rfl

theorem Target.settle_of_refs {t : Target} (h : t.refs = []) : t.settle labels = t := by
  cases t with
  | addr a => rfl
  | label id => cases h

theorem Instr.settle_of_refs {i : Instr} (h : i.refs = []) : i.settle labels = i := by
  cases i with
  | jump t | jumpIfFalse t =>
      rw [settle, Target.settle_of_refs]
      simpa [refs, target?] using h
  | _ => rfl

theorem DataVar.settle_of_refs {v : DataVar} (h : v.init.refs = []) : v.settle labels = v := by
  obtain ⟨name, type, init⟩ := v
  cases init with
  | label id => cases h
  | _ => rfl

theorem Instr.width_settle (i : Instr) : (i.settle labels).width = i.width := by
  cases i <;> rfl

theorem Instr.effect_settle (i : Instr) : (i.settle labels).effect = i.effect := by
  cases i <;> rfl

theorem Code.size_settle (code : List Instr) :
    size (code.map (Instr.settle labels)) = size code := by
  induction code with
  | nil => rfl
  | cons i is ih => rw [List.map_cons, size, size, ih, Instr.width_settle]

theorem Code.addressesFrom_settle (a : Nat) (code : List Instr) :
    addressesFrom a (code.map (Instr.settle labels)) = addressesFrom a code := by
  induction code generalizing a with
  | nil => rfl
  | cons i is ih => rw [List.map_cons, addressesFrom, addressesFrom, ih, Instr.width_settle]

end Settle

namespace Program

theorem link_eq (p : Program) : p.link = Label.require p.labels p.pending p.settled := by
  rw [link, Label.mapM_eq_require Instr.resolve_eq, Label.mapM_eq_require DataVar.resolve_eq]
  exact Label.require_pair _ _ _ _ _

theorem pending_settled (p : Program) :
    p.settled.pending = p.pending.filter (Label.isUnbound p.labels) := by
  simp [pending, settled, List.filter_append, List.filter_flatMap, List.flatMap_map,
    Instr.refs_settle, Init.refs_settle, DataVar.settle]

theorem settled_of_pending {p : Program} (h : p.pending = []) : p.settled = p := by
  obtain ⟨hc, hv⟩ := List.append_eq_nil_iff.mp h
  have hcode : p.code.map (Instr.settle p.labels) = p.code.map id :=
    List.map_congr_left fun i hi => Instr.settle_of_refs (List.flatMap_eq_nil_iff.mp hc i hi)
  have hvars : p.vars.map (DataVar.settle p.labels) = p.vars.map id :=
    List.map_congr_left fun v hv' => DataVar.settle_of_refs (List.flatMap_eq_nil_iff.mp hv v hv')
  rw [settled, hcode, hvars, List.map_id, List.map_id]

theorem refs_eq_nil_iff {i : Instr} : i.refs = [] ↔ isLabelled i = false := by
  obtain - | - | - | - | t | t | - | - | - := i
  case jump | jumpIfFalse => cases t <;> simp [Instr.refs, Instr.target?, Target.refs, isLabelled]
  all_goals simp [Instr.refs, Instr.target?, isLabelled]

theorem isLinked_iff {p : Program} : p.isLinked ↔ p.pending = [] := by
  simp only [isLinked, Bool.and_eq_true, List.all_eq_true, pending, List.append_eq_nil_iff,
    List.flatMap_eq_nil_iff, refs_eq_nil_iff, Bool.not_eq_true']
  refine and_congr_right fun _ => forall₂_congr fun v _ => ?_
  cases v.init <;> simp [Init.refs]

theorem resembles_settled (p : Program) : p.Resembles p.settled where
  exports := rfl
  events := rfl
  labels := rfl
  names := by rw [settled, List.map_map]; rfl
  types := by rw [settled, List.map_map]; rfl
  vars k v hv hrefs := by
    rw [settled, List.getElem?_map, hv, Option.map_some, DataVar.settle_of_refs hrefs]
  code k i hi hrefs := by
    rw [settled, List.getElem?_map, hi, Option.map_some, Instr.settle_of_refs hrefs]
  addresses := Code.addressesFrom_settle 0 p.code
  codeSize := Code.size_settle p.code
  effects := by
    rw [settled, List.map_map]
    exact List.map_congr_left fun i _ => Instr.effect_settle i

/-- Linking a program whose labels all exist. It succeeds if every label that is referred to has
an address. Then only the references have changed, the program is linked, and linking it again
changes nothing. Otherwise the first reference without an address is named, where the code comes
before the variables. -/
theorem link_exact {p : Program} (hp : ∀ id ∈ p.pending, id < p.labels.length) :
    ((∃ q, p.link = .ok q) ↔ ∀ id ∈ p.pending, ∃ a, Label.address? p.labels id = some a) ∧
    (∀ q, p.link = .ok q → q = p.settled ∧ p.Resembles q ∧ q.isLinked ∧ q.link = .ok q) ∧
    ∀ f, p.link = .error f → ∃ id l, p.pending.find? (Label.isUnbound p.labels) = some id ∧
      p.labels[id]? = some l ∧ f = .rejected (.unresolvedLabel l.name) := by
  rw [link_eq, Label.require, ← Label.find?_isUnbound_eq_none]
  cases hfind : p.pending.find? (Label.isUnbound p.labels) with
  | none =>
      have hpending : p.settled.pending = [] := by
        rw [pending_settled, List.filter_eq_nil_iff]
        exact List.find?_eq_none.mp hfind
      have hagain : p.settled.link = .ok p.settled := by
        rw [link_eq, Label.require, hpending, settled_of_pending hpending]
        rfl
      refine ⟨by simp, fun q hq => ?_, fun f hf => by cases hf⟩
      cases hq
      exact ⟨rfl, resembles_settled p, isLinked_iff.mpr hpending, hagain⟩
  | some id =>
      refine ⟨by simp, ?_, ?_⟩
      · intro q hq
        cases hq
      · intro f hf
        cases hf
        have hlt := hp id (List.mem_of_find?_eq_some hfind)
        refine ⟨id, p.labels[id], rfl, List.getElem?_eq_getElem hlt, ?_⟩
        rw [Label.unresolved, List.getElem?_eq_getElem hlt]

def crossing (labels : List Label) : Program where
  exports := ["k"]
  vars := [⟨"k", "SystemUInt32", .label 2⟩, ⟨"n", "SystemInt32", .literal "1"⟩]
  events := ["_start"]
  code := [.eventHead "_start", .push "n", .jumpIfFalse (.label 0), .jump (.label 1),
    .jump (.addr haltAddress)]
  labels := labels

/-- With two labels unbound the one in the code is named, although the variables come first. A label
that nothing refers to may stay unbound. -/
theorem crossing_link :
    (crossing [⟨"end", some 15⟩, ⟨"lost", none⟩, ⟨"back", none⟩]).link =
      .error (.rejected (.unresolvedLabel "lost")) ∧
    (crossing [⟨"end", some 15⟩, ⟨"loop", some 0⟩, ⟨"back", some 10⟩, ⟨"unused", none⟩]).link =
      .ok (crossing
        [⟨"end", some 15⟩, ⟨"loop", some 0⟩, ⟨"back", some 10⟩, ⟨"unused", none⟩]).settled := by
  obtain ⟨hiff, -, hfault⟩ :=
    link_exact (p := crossing [⟨"end", some 15⟩, ⟨"lost", none⟩, ⟨"back", none⟩]) (by decide)
  obtain ⟨hiff', hok, -⟩ := link_exact
    (p := crossing [⟨"end", some 15⟩, ⟨"loop", some 0⟩, ⟨"back", some 10⟩, ⟨"unused", none⟩])
    (by decide)
  constructor
  · cases hlink : (crossing [⟨"end", some 15⟩, ⟨"lost", none⟩, ⟨"back", none⟩]).link with
    | ok q =>
        obtain ⟨a, ha⟩ := hiff.mp ⟨q, hlink⟩ 1 (by decide)
        cases ha
    | error f =>
        obtain ⟨id, l, hid, hl, rfl⟩ := hfault f hlink
        cases hid
        cases hl
        rfl
  · obtain ⟨q, hq⟩ := hiff'.mpr (Label.find?_isUnbound_eq_none.mp (by decide))
    rw [hq, (hok q hq).1]

end Program
end StackScript
