import Mathlib.Data.List.Infix
import Mathlib.Logic.Relation
import StackScript.Proofs.Linking
import StackScript.Proofs.Lowering.Run

namespace StackScript

namespace Draft

def code (s : Draft) : List Instr := s.emitter.code.toList

def Bound (s : Draft) (label a : Nat) : Prop := Label.address s.emitter.labels.toList label = .ok a

inductive Move : Draft → Draft → Prop
  | note (s j) : Move s { s with journal := j }
  | emit (s block) : Move s { s with emitter := s.emitter.append block }
  | bind {s label e} (h : s.emitter.bind label = .ok e) : Move s { s with emitter := e }
  | count (s kind) : Move s { s with emitter := (s.emitter.nextName kind).2 }
  | label (s name) : Move s { s with emitter := (s.emitter.pushLabel name).2 }
  | named (s name) : Move s { s with emitter := (s.emitter.namedLabel name).2 }
  | event (s name) : Move s { s with emitter := s.emitter.addEvent name }
  | declare {s name ty init vs} (h : s.vars.declare name ty init = .ok vs) :
      Move s { s with vars := vs }
  | mark (s name) : Move s { s with vars := s.vars.markExported name }

abbrev Moves : Draft → Draft → Prop := Relation.ReflTransGen Move

theorem bound_iff {s : Draft} {l a : Nat} :
    s.Bound l a ↔ ∃ n, s.emitter.labels[l]? = some ⟨n, some a⟩ := by
  rw [Bound, Label.address_eq_ok_iff, Array.getElem?_toList]
  constructor
  · rintro ⟨⟨n, _⟩, hl, rfl⟩
    exact ⟨n, hl⟩
  · rintro ⟨n, hl⟩
    exact ⟨_, hl, rfl⟩

end Draft

theorem Emitter.bind_eq_ok {e e' : Emitter} {l : Nat} (h : e.bind l = .ok e') :
    ∃ n, e.labels[l]? = some ⟨n, none⟩ ∧
      e' = { e with labels := e.labels.setIfInBounds l ⟨n, some e.pc⟩ } := by
  rw [Emitter.bind] at h
  cases hl : e.labels[l]? with
  | none => rw [hl] at h; cases h
  | some lab =>
      obtain ⟨n, _ | a⟩ := lab
      · rw [hl] at h
        cases h
        exact ⟨n, rfl, rfl⟩
      · rw [hl] at h
        cases h

theorem Emitter.namedLabel_cases (e : Emitter) (name : String) :
    (∃ l, e.named.lookup name = some l ∧ e.namedLabel name = (l, e)) ∨
      e.named.lookup name = none ∧ e.namedLabel name =
        (e.labels.size, { e with labels := e.labels.push ⟨name, none⟩,
                                 named := (name, e.labels.size) :: e.named }) := by
  rw [namedLabel]
  cases e.named.lookup name with
  | none => exact .inr ⟨rfl, rfl⟩
  | some l => exact .inl ⟨l, rfl, rfl⟩

theorem Variables.declare_eq_ok {vs vs' : Variables} {name : String} {ty : Ty} {init : Init}
    (h : vs.declare name ty init = .ok vs') :
    vs.contains name = false ∧ ty.isVoid = false ∧
      vs' = { vs with declared := vs.declared ++ [⟨name, ty, init⟩] } := by
  rw [declare] at h
  by_cases hc : vs.contains name
  · rw [if_pos hc] at h; cases h
  · by_cases hv : ty.isVoid
    · rw [if_neg hc, if_pos hv] at h; cases h
    · rw [if_neg hc, if_neg hv] at h
      cases h
      exact ⟨by simpa using hc, by simpa using hv, rfl⟩

theorem Variables.declared_markExported (vs : Variables) (name : String) :
    (vs.markExported name).declared = vs.declared := by
  rw [markExported]
  split <;> rfl

theorem Variables.find?_declared (vs : Variables) (v : Variable) {x : String} :
    find? { vs with declared := vs.declared ++ [v] } x =
      (vs.find? x).or (if v.name = x then some v else none) := by
  rw [find?, List.find?_append, ← find?, List.find?_singleton]
  by_cases hv : v.name = x
  · simp [hv]
  · simp [hv]

namespace Draft

/-- What a draft keeps: its code and its variables stay where they are, a bound label keeps its
address, a shared one its number, and no old label becomes a shared one. -/
structure Grows (s t : Draft) : Prop where
  code : s.code <+: t.code
  declared : s.vars.declared <+: t.vars.declared
  bound : ∀ {l a}, s.Bound l a → t.Bound l a
  labels : s.emitter.labels.size ≤ t.emitter.labels.size
  named : ∀ {id l}, s.emitter.named.lookup id = some l → t.emitter.named.lookup id = some l
  shared : ∀ {id l}, l < s.emitter.labels.size → t.emitter.named.lookup id = some l →
    s.emitter.named.lookup id = some l

theorem Grows.refl (s : Draft) : Grows s s :=
  ⟨List.prefix_rfl, List.prefix_rfl, id, le_rfl, id, fun _ => id⟩

theorem Grows.trans {s t u : Draft} (h : Grows s t) (k : Grows t u) : Grows s u where
  code := h.code.trans k.code
  declared := h.declared.trans k.declared
  bound hb := k.bound (h.bound hb)
  labels := h.labels.trans k.labels
  named hn := k.named (h.named hn)
  shared hl hn := h.shared hl (k.shared (hl.trans_le h.labels) hn)

theorem grows_of_vars {s : Draft} {vs : Variables} (h : s.vars.declared <+: vs.declared) :
    Grows s { s with vars := vs } :=
  ⟨List.prefix_rfl, h, id, le_rfl, id, fun _ => id⟩

theorem bound_of_pushLabel {s : Draft} {name : String} {l a : Nat}
    (hb : Bound { s with emitter := (s.emitter.pushLabel name).2 } l a) : s.Bound l a := by
  obtain ⟨n, hn⟩ := bound_iff.mp hb
  simp only [Emitter.pushLabel, Array.getElem?_push] at hn
  split at hn
  · cases hn
  · exact bound_iff.mpr ⟨n, hn⟩

theorem grows_pushLabel (s : Draft) (name : String) :
    Grows s { s with emitter := (s.emitter.pushLabel name).2 } where
  code := List.prefix_rfl
  declared := List.prefix_rfl
  bound hb := by
    obtain ⟨n, hn⟩ := bound_iff.mp hb
    have hl := (Array.getElem?_eq_some_iff.mp hn).1
    refine bound_iff.mpr ⟨n, ?_⟩
    simp only [Emitter.pushLabel, Array.getElem?_push, hn]
    rw [if_neg hl.ne]
  labels := by simp [Emitter.pushLabel]
  named := id
  shared _ := id

theorem grows_bind {s : Draft} {l : Nat} {e : Emitter} (h : s.emitter.bind l = .ok e) :
    Grows s { s with emitter := e } := by
  obtain ⟨n, hl, rfl⟩ := Emitter.bind_eq_ok h
  refine ⟨List.prefix_rfl, List.prefix_rfl, ?_, by simp, id, fun _ => id⟩
  intro k a hk
  obtain ⟨m, hm⟩ := bound_iff.mp hk
  refine bound_iff.mpr ⟨m, ?_⟩
  have hne : l ≠ k := by
    rintro rfl
    rw [hl] at hm
    cases hm
  simpa [Array.getElem?_setIfInBounds_ne hne] using hm

theorem grows_namedLabel (s : Draft) (name : String) :
    Grows s { s with emitter := (s.emitter.namedLabel name).2 } := by
  obtain ⟨l, _, he⟩ | ⟨hn, he⟩ := s.emitter.namedLabel_cases name
  · rw [he]; exact .refl s
  · rw [he]
    have hp := grows_pushLabel s name
    refine ⟨List.prefix_rfl, List.prefix_rfl, hp.bound, hp.labels, ?_, ?_⟩
    · intro id l hid
      have hne : (id == name) = false := by
        rw [beq_eq_false_iff_ne]
        rintro rfl
        cases hn.symm.trans hid
      rw [List.lookup_cons, hne]
      exact hid
    · intro id l hl hid
      rw [List.lookup_cons] at hid
      split at hid
      · cases hid
        exact absurd hl (lt_irrefl _)
      · exact hid

theorem Move.grows {s t : Draft} (h : Move s t) : Grows s t := by
  cases h with
  | note | count | event => exact ⟨List.prefix_rfl, List.prefix_rfl, id, le_rfl, id, fun _ => id⟩
  | emit block =>
      refine ⟨?_, List.prefix_rfl, id, le_rfl, id, fun _ => id⟩
      simp [Draft.code, Emitter.append]
  | bind h => exact grows_bind h
  | label name => exact grows_pushLabel s name
  | named name => exact grows_namedLabel s name
  | declare h =>
      obtain ⟨_, _, rfl⟩ := Variables.declare_eq_ok h
      exact grows_of_vars (List.prefix_append ..)
  | mark name => exact grows_of_vars (by rw [Variables.declared_markExported])

theorem Moves.grows {s t : Draft} (h : Moves s t) : Grows s t := by
  induction h with
  | refl => exact .refl s
  | tail _ hm ih => exact ih.trans hm.grows

theorem Moves.find? {s t : Draft} (h : Moves s t) {x : String} {v : Variable}
    (hv : s.vars.find? x = some v) :
    t.vars.find? x = some v := by
  obtain ⟨rest, hr⟩ := (Moves.grows h).declared
  rw [Variables.find?] at hv ⊢
  rw [← hr, List.find?_append, hv]
  rfl

theorem Moves.contains {s t : Draft} (h : Moves s t) {x : String} (hx : s.vars.contains x) :
    t.vars.contains x := by
  obtain ⟨v, hv⟩ := Option.isSome_iff_exists.mp hx
  rw [Variables.contains, h.find? hv]
  rfl

theorem Moves.new (h : Moves s t) {x : String} (hx : t.vars.contains x = false) :
    s.vars.contains x = false := by
  by_contra hs
  rw [Bool.not_eq_false] at hs
  exact Bool.false_ne_true (hx.symm.trans (h.contains hs))

section

variable {s t : Draft} {x : String} {ty : Ty}

def Typed (s : Draft) (x : String) (ty : Ty) : Prop := ∃ v, s.vars.find? x = some v ∧ v.ty = ty

theorem typed_iff : s.Typed x ty ↔ (s.vars.find? x).map Variable.ty = some ty :=
  Option.map_eq_some_iff.symm

theorem Typed.moves (hx : s.Typed x ty) (h : Moves s t) : t.Typed x ty := by
  obtain ⟨v, hv, hty⟩ := hx
  exact ⟨v, h.find? hv, hty⟩

theorem Typed.unique {ty' : Ty} (hx : s.Typed x ty) (hx' : s.Typed x ty') : ty = ty' := by
  rw [typed_iff] at hx hx'
  exact Option.some.inj (hx.symm.trans hx')

theorem Typed.contains (hx : s.Typed x ty) : s.vars.contains x := by
  obtain ⟨v, hv, _⟩ := hx
  rw [Variables.contains, hv]
  rfl

theorem exists_type (h : s.vars.contains x) : ∃ ty, s.Typed x ty := by
  obtain ⟨v, hv⟩ := Option.isSome_iff_exists.mp h
  exact ⟨v.ty, v, hv, rfl⟩

theorem typed_of_new {init : Init} (hx : s.vars.contains x = false)
    (h : t.vars.declared = s.vars.declared ++ [⟨x, ty, init⟩]) : t.Typed x ty := by
  rw [Variables.contains, Option.isSome_eq_false_iff, Option.isNone_iff_eq_none, Variables.find?]
    at hx
  refine ⟨⟨x, ty, init⟩, ?_, rfl⟩
  rw [Variables.find?, h, List.find?_append, hx]
  simp

theorem Typed.typeOf (hx : s.Typed x ty) {c : Catalog} {ty' : Ty}
    (h : s.vars.typeOf c x = .ok ty') :
    ty' = ty := by
  obtain ⟨v, hv, rfl⟩ := hx
  rw [Variables.typeOf, hv] at h
  cases h
  rfl

theorem typesOf_unique {xs : List String} {tys types : List Ty} {c : Catalog}
    (hx : List.Forall₂ s.Typed xs tys)
    (h : List.Forall₂ (fun x ty => s.vars.typeOf c x = .ok ty) xs types) : types = tys := by
  induction hx generalizing types with
  | nil => cases h; rfl
  | cons hx _ ih =>
      cases h with
      | cons h hs => rw [hx.typeOf h, ih hs]

end

def Numbered (s : Draft) : Prop :=
  ∀ id l, s.emitter.named.lookup id = some l → l < s.emitter.labels.size

theorem numbered_empty : Draft.empty.Numbered := fun _ _ h => nomatch h

theorem Move.numbered {s t : Draft} (h : Move s t) (hs : s.Numbered) : t.Numbered := by
  cases h with
  | note | count | event | emit | declare | mark => exact hs
  | bind h =>
      obtain ⟨n, _, rfl⟩ := Emitter.bind_eq_ok h
      intro id l hid
      simpa using hs id l hid
  | label name =>
      intro id l hid
      have hl := hs id l hid
      simp only [Emitter.pushLabel, Array.size_push]
      omega
  | named name =>
      obtain ⟨l, _, he⟩ | ⟨_, he⟩ := s.emitter.namedLabel_cases name
      · rw [he]; exact hs
      · rw [he]
        intro id l hid
        rw [List.lookup_cons] at hid
        split at hid
        · cases hid; simp
        · have hl := hs id l hid
          simp only [Array.size_push]
          omega

theorem Moves.numbered {s t : Draft} (h : Moves s t) (hs : s.Numbered) : t.Numbered := by
  induction h with
  | refl => exact hs
  | tail _ hm ih => exact hm.numbered ih

def Sized (s : Draft) : Prop := Code.size s.code = s.emitter.pc

theorem Move.sized {s t : Draft} (h : Move s t) (hs : s.Sized) : t.Sized := by
  cases h with
  | note | count | label | event | declare | mark => exact hs
  | emit block =>
      have hb : Code.size s.code + Code.size block = s.emitter.pc + Code.size block := by rw [hs]
      simpa [Sized, Draft.code, Emitter.append] using hb
  | bind h =>
      obtain ⟨n, _, rfl⟩ := Emitter.bind_eq_ok h
      exact hs
  | named name =>
      obtain ⟨l, _, he⟩ | ⟨_, he⟩ := s.emitter.namedLabel_cases name
      · rw [he]; exact hs
      · rw [he]; exact hs

theorem Moves.sized {s t : Draft} (h : Moves s t) (hs : s.Sized) : t.Sized := by
  induction h with
  | refl => exact hs
  | tail _ hm ih => exact hm.sized ih

/-- A draft that has grown by a block of code. -/
structure Emits (s t : Draft) (block : List Instr) : Prop where
  moves : Moves s t
  code : t.code = s.code ++ block
  pc : t.emitter.pc = s.emitter.pc + Code.size block

namespace Emits

variable {s t u : Draft} {xs ys : List Instr}

theorem refl (s : Draft) : Emits s s [] := ⟨.refl, by simp, by simp⟩

theorem trans (h : Emits s t xs) (k : Emits t u ys) : Emits s u (xs ++ ys) where
  moves := h.moves.trans k.moves
  code := by rw [k.code, h.code, List.append_assoc]
  pc := by rw [k.pc, h.pc, Code.size_append, Nat.add_assoc]

theorem silent (h : Emits s t []) : t.emitter.pc = s.emitter.pc := h.pc

theorem skip (h : Emits s t []) (k : Emits t u ys) : Emits s u ys := by simpa using h.trans k

theorem still (h : Emits s t xs) (k : Emits t u []) : Emits s u xs := by simpa using h.trans k

theorem has {F : Draft} {p : Program} (h : Emits s t xs) (hs : s.Sized) (hF : Moves t F)
    (hl : Linked p.labels F.code p.code) : p.Has s.emitter.pc xs := by
  obtain ⟨post, hpost⟩ := (Moves.grows hF).code
  rw [← hpost, h.code, List.append_assoc] at hl
  obtain ⟨us, vs, hcode, hus, hvs⟩ := hl.split
  obtain ⟨ws, zs, rfl, hws, _⟩ := hvs.split
  exact ⟨ws, hws, us, zs, hcode, by rw [hus.size_eq, hs]⟩

theorem of_move (h : Move s t) (he : t.emitter.code = s.emitter.code)
    (hp : t.emitter.pc = s.emitter.pc) : Emits s t [] :=
  ⟨.single h, by simp [Draft.code, he], by simp [hp]⟩

end Emits
end Draft

namespace Lower

open Draft

variable {s t : Draft}

theorem note_emits {e : Entry} {u : Unit} (h : note e s = .ok u t) : Emits s t [] := by
  obtain rfl := note_eq_ok.mp h
  exact .of_move (.note ..) rfl rfl

theorem note_vars {e : Entry} {u : Unit} (h : note e s = .ok u t) : t.vars = s.vars := by
  obtain rfl := note_eq_ok.mp h
  rfl

theorem emit_emits {block : List Instr} {u : Unit} (h : emit block s = .ok u t) :
    Emits s t block := by
  obtain rfl := modify_eq_ok.mp h
  exact ⟨.tail (.single (.emit s block)) (.note ..), by simp [Draft.code, Emitter.append], rfl⟩

theorem emit_vars {block : List Instr} {u : Unit} (h : emit block s = .ok u t) :
    t.vars = s.vars := by
  obtain rfl := modify_eq_ok.mp h
  rfl

theorem freshLabel_vars {kind : String} {l : Nat} (h : freshLabel kind s = .ok l t) :
    t.vars = s.vars := by
  obtain ⟨-, rfl⟩ := modifyGet_eq_ok.mp h
  rfl

theorem namedLabel_vars {name : String} {l : Nat} (h : namedLabel name s = .ok l t) :
    t.vars = s.vars := by
  obtain ⟨-, rfl⟩ := modifyGet_eq_ok.mp h
  rfl

theorem bindLabel_vars {l : Nat} {u : Unit} (h : bindLabel l s = .ok u t) : t.vars = s.vars := by
  rw [bindLabel] at h
  cases hb : s.emitter.bind l with
  | error f => rw [hb] at h; cases h
  | ok e => rw [hb] at h; cases h; rfl

theorem bindLabel_emits {l : Nat} {u : Unit} (h : bindLabel l s = .ok u t) :
    Emits s t [] ∧ t.Bound l s.emitter.pc ∧ ∀ a, ¬ s.Bound l a := by
  rw [bindLabel] at h
  cases hb : s.emitter.bind l with
  | error f => rw [hb] at h; cases h
  | ok e =>
      rw [hb] at h
      cases h
      obtain ⟨n, hl, rfl⟩ := Emitter.bind_eq_ok hb
      refine ⟨⟨.tail (.single (.bind hb)) (.note ..), by simp [Draft.code], by simp⟩, ?_, ?_⟩
      · have hlt := (Array.getElem?_eq_some_iff.mp hl).1
        exact bound_iff.mpr ⟨n, by simp [hlt]⟩
      · intro a ha
        obtain ⟨m, hm⟩ := bound_iff.mp ha
        rw [hl] at hm
        cases hm

theorem freshLabel_emits {kind : String} {l : Nat} (h : freshLabel kind s = .ok l t) :
    Emits s t [] ∧ l = s.emitter.labels.size ∧ l < t.emitter.labels.size := by
  obtain ⟨rfl, rfl⟩ := modifyGet_eq_ok.mp h
  refine ⟨⟨.tail (.single (.count s kind)) (.label ..), ?_, ?_⟩, rfl, ?_⟩
  · simp [Draft.code, Emitter.freshLabel, Emitter.nextName, Emitter.pushLabel]
  · simp [Emitter.freshLabel, Emitter.nextName, Emitter.pushLabel]
  · simp [Emitter.freshLabel, Emitter.nextName, Emitter.pushLabel]

theorem freshLabel_bound {kind : String} {l k a : Nat} (h : freshLabel kind s = .ok k t)
    (hb : t.Bound l a) :
    s.Bound l a := by
  obtain ⟨-, rfl⟩ := modifyGet_eq_ok.mp h
  exact bound_of_pushLabel (s := { s with emitter := (s.emitter.nextName kind).2 }) hb

theorem namedLabel_emits {name : String} {l : Nat} (h : namedLabel name s = .ok l t) :
    Emits s t [] ∧ t.emitter.named.lookup name = some l := by
  obtain ⟨rfl, rfl⟩ := modifyGet_eq_ok.mp h
  obtain ⟨l, hl, he⟩ | ⟨_, he⟩ := s.emitter.namedLabel_cases name
  · exact ⟨.of_move (.named s name) (by rw [he]) (by rw [he]), by simpa [he] using hl⟩
  · exact ⟨.of_move (.named s name) (by rw [he]) (by rw [he]), by simp [he]⟩

theorem declare_emits {name : String} {ty : Ty} {init : Init} {u : Unit}
    (h : declare name ty init s = .ok u t) : Emits s t [] := by
  obtain ⟨vs, hv, rfl⟩ := declare_eq_ok.mp h
  exact .of_move (.declare hv) rfl rfl

theorem generate_eq_ok {cx : Context} {kind x : String} {ty : Ty} {init : Init}
    (h : generate cx kind ty init s = .ok x t) :
    x = cx.scope.qualifier ++ Names.generated s.emitter.counter kind ∧ s.vars.contains x = false ∧
      t.vars = { s.vars with declared := s.vars.declared ++ [⟨x, ty, init⟩] } := by
  simp only [generate, bind_eq_ok, pure_eq_ok, modifyGet_eq_ok, declare_eq_ok] at h
  obtain ⟨_, _, ⟨rfl, rfl⟩, _, _, ⟨vs, hd, rfl⟩, rfl, rfl⟩ := h
  obtain ⟨hc, _, rfl⟩ := Variables.declare_eq_ok hd
  exact ⟨rfl, hc, rfl⟩

theorem generate_emits {cx : Context} {kind x : String} {ty : Ty} {init : Init}
    (h : generate cx kind ty init s = .ok x t) : Emits s t [] := by
  simp only [generate, bind_eq_ok, pure_eq_ok, modifyGet_eq_ok] at h
  obtain ⟨_, _, ⟨rfl, rfl⟩, _, _, hd, rfl, rfl⟩ := h
  exact (Emits.of_move (.count s kind) rfl rfl).skip (declare_emits hd)

theorem generate_bound {cx : Context} {kind x : String} {ty : Ty} {init : Init} {l a : Nat}
    (h : generate cx kind ty init s = .ok x t) (hb : t.Bound l a) : s.Bound l a := by
  simp only [generate, bind_eq_ok, pure_eq_ok, modifyGet_eq_ok, declare_eq_ok] at h
  obtain ⟨_, _, ⟨rfl, rfl⟩, _, _, ⟨vs, _, rfl⟩, rfl, rfl⟩ := h
  exact hb

end Lower

namespace Draft

/-- A draft that has got no code, no variable and no event. -/
structure Quiet (s t : Draft) : Prop where
  emits : Emits s t []
  declared : t.vars.declared = s.vars.declared
  events : t.emitter.events = s.emitter.events

namespace Quiet

variable {s t u : Draft}

theorem trans (h : Quiet s t) (k : Quiet t u) : Quiet s u :=
  ⟨h.emits.skip k.emits, k.declared.trans h.declared, k.events.trans h.events⟩

end Quiet
end Draft

namespace Lower

open Draft

variable {s t : Draft}

theorem note_quiet {e : Entry} {u : Unit} (h : note e s = .ok u t) : Quiet s t := by
  refine ⟨note_emits h, by rw [note_vars h], ?_⟩
  obtain rfl := note_eq_ok.mp h
  rfl

theorem freshLabel_quiet {kind : String} {l : Nat} (h : freshLabel kind s = .ok l t) :
    Quiet s t := by
  refine ⟨(freshLabel_emits h).1, by rw [freshLabel_vars h], ?_⟩
  obtain ⟨-, rfl⟩ := modifyGet_eq_ok.mp h
  rfl

theorem namedLabel_quiet {name : String} {l : Nat} (h : namedLabel name s = .ok l t) :
    Quiet s t := by
  refine ⟨(namedLabel_emits h).1, by rw [namedLabel_vars h], ?_⟩
  obtain ⟨-, rfl⟩ := modifyGet_eq_ok.mp h
  obtain ⟨_, _, he⟩ | ⟨_, he⟩ := s.emitter.namedLabel_cases name <;> rw [he]

theorem bindLabel_quiet {l : Nat} {u : Unit} (h : bindLabel l s = .ok u t) : Quiet s t := by
  refine ⟨(bindLabel_emits h).1, by rw [bindLabel_vars h], ?_⟩
  rw [bindLabel] at h
  cases hb : s.emitter.bind l with
  | error f => rw [hb] at h; cases h
  | ok e =>
      rw [hb] at h
      cases h
      obtain ⟨_, _, rfl⟩ := Emitter.bind_eq_ok hb
      rfl

theorem emit_events {block : List Instr} {u : Unit} (h : emit block s = .ok u t) :
    t.emitter.events = s.emitter.events := by
  obtain rfl := modify_eq_ok.mp h
  rfl

theorem declare_events {name : String} {ty : Ty} {init : Init} {u : Unit}
    (h : declare name ty init s = .ok u t) :
    t.emitter.events = s.emitter.events := by
  obtain ⟨vs, _, rfl⟩ := declare_eq_ok.mp h
  rfl

theorem generate_events {cx : Context} {kind x : String} {ty : Ty} {init : Init}
    (h : generate cx kind ty init s = .ok x t) : t.emitter.events = s.emitter.events := by
  simp only [generate, bind_eq_ok, pure_eq_ok, modifyGet_eq_ok] at h
  obtain ⟨_, _, ⟨rfl, rfl⟩, _, _, hd, rfl, rfl⟩ := h
  exact (declare_events hd).trans rfl

end Lower

/-- A first value that does not wait for a label. The one address among them is where the
program ends. -/
def Variable.Settled (v : Variable) : Prop :=
  match v.init with
  | .null | .literal _ => True
  | .label _ => False
  | .addr a => v.name = Names.returnAddress ∧ a = haltAddress

namespace Draft

variable {s t : Draft}

/-- A draft that has got no code, no variable that waits for the address of a label, and no
such address. -/
structure Still (s t : Draft) : Prop where
  emits : Emits s t []
  declared : ∀ v ∈ t.vars.declared, v ∈ s.vars.declared ∨ v.Settled
  bound : ∀ {l a}, t.Bound l a → s.Bound l a

theorem Still.of_vars (e : Emits s t []) (hv : t.vars.declared = s.vars.declared)
    (hb : ∀ {l a}, t.Bound l a → s.Bound l a) : Still s t :=
  ⟨e, fun _ h => .inl (hv ▸ h), hb⟩

theorem Still.refl (s : Draft) : Still s s := .of_vars (.refl s) rfl id

theorem Still.of_declared {v : Variable} (e : Emits s t [])
    (ht : t.vars.declared = s.vars.declared ++ [v]) (hv : v.Settled)
    (hb : ∀ {l a}, t.Bound l a → s.Bound l a) : Still s t := by
  refine ⟨e, fun w hw => ?_, hb⟩
  rw [ht, List.mem_append, List.mem_singleton] at hw
  obtain hw | rfl := hw
  · exact .inl hw
  · exact .inr hv

/-- A relation between drafts that steps can be chained along, and that does not mind steps without
code. -/
class Closed (R : Draft → Draft → Prop) : Prop where
  still : ∀ {s t}, Still s t → R s t
  trans : ∀ {s t u}, R s t → R t u → R s u

instance : Closed Still where
  still h := h
  trans h k := by
    refine ⟨h.emits.skip k.emits, fun v hv => ?_, fun hb => h.bound (k.bound hb)⟩
    obtain hv | hv := k.declared v hv
    · exact h.declared v hv
    · exact .inr hv

end Draft

namespace Lower

open Draft

variable {α β : Type} {R : Draft → Draft → Prop} [Closed R]

/-- Whenever the step succeeds, it goes along `R`; if it fails, that is not because of a label. -/
structure Along (R : Draft → Draft → Prop) (x : Lower α) : Prop extends Refuses x where
  of_ok : ∀ {s a t}, x s = .ok a t → R s t

namespace Along

theorem bind {x : Lower α} {f : α → Lower β} (hx : Along R x) (hf : ∀ a, Along R (f a)) :
    Along R (x >>= f) := by
  refine ⟨hx.toRefuses.bind fun a => (hf a).toRefuses, fun {s b t} h => ?_⟩
  obtain ⟨a, u, ha, hb⟩ := bind_eq_ok.mp h
  exact Closed.trans (hx.of_ok ha) ((hf a).of_ok hb)

omit [Closed R] in
theorem reject {d : Diagnostic} (hd : (Fault.rejected d).isUnlabelled) :
    Along R (reject d : Lower α) :=
  ⟨.reject hd, fun h => (reject_eq_ok.mp h).elim⟩

omit [Closed R] in
theorem reject_bind {d : Diagnostic} (hd : (Fault.rejected d).isUnlabelled) (f : α → Lower β) :
    Along R ((Lower.reject d : Lower α) >>= f) := by
  refine ⟨⟨fun h => ?_⟩, fun h => ?_⟩
  · obtain h | ⟨_, _, hr, _⟩ := bind_eq_error.mp h
    · exact (Refuses.reject hd).of_error h
    · exact (reject_eq_ok.mp hr).elim
  · obtain ⟨_, _, hr, _⟩ := bind_eq_ok.mp h
    exact (reject_eq_ok.mp hr).elim

omit [Closed R] in
theorem located {p : Pos} {x : Lower α} (hx : Along R x) : Along R (located p x) :=
  ⟨hx.toRefuses.located, fun h => hx.of_ok (located_eq_ok.mp h)⟩

theorem of_still {x : Lower α} (hr : Refuses x) (hx : ∀ {s a t}, x s = .ok a t → s = t) :
    Along R x := by
  refine ⟨hr, fun {s a t} h => ?_⟩
  obtain rfl := hx h
  exact Closed.still (.refl s)

theorem pure (a : α) : Along R (Pure.pure a : Lower α) :=
  of_still (.pure a) fun h => (pure_eq_ok.mp h).2

theorem forIn {f : α → β → Lower (ForInStep β)} (hf : ∀ a b, Along R (f a b))
    (xs : List α) (b : β) :
    Along R (ForIn.forIn xs b f) := by
  induction xs generalizing b with
  | nil => exact pure b
  | cons x xs ih =>
      rw [List.forIn_cons]
      refine .bind (hf x b) fun r => ?_
      split
      · exact pure _
      · exact ih _

omit [Closed R] in
theorem accept_bind {r : Except Diagnostic α} {f : α → Lower β} (hr : Checks r)
    (hf : ∀ a, r = .ok a → Along R (f a)) : Along R (Lower.accept r >>= f) := by
  cases r with
  | error d => exact reject_bind (hr.of_error rfl) f
  | ok a =>
      have ha : Lower.accept (.ok a) >>= f = f a := rfl
      rw [ha]
      exact hf a rfl

theorem get : Along R (get : Lower Draft) := of_still .get fun h => (get_eq_ok.mp h).2

theorem contains (name : String) : Along R (contains name) :=
  of_still (.contains name) fun h => (contains_eq_ok.mp h).2

theorem note (e : Entry) : Along R (note e) := by
  refine ⟨.modify _, fun h => Closed.still (.of_vars (note_emits h) ?_ ?_)⟩
  · rw [note_vars h]
  · obtain rfl := note_eq_ok.mp h
    exact id

theorem freshLabel (kind : String) : Along R (freshLabel kind) := by
  refine ⟨.modifyGet _, fun h =>
    Closed.still (.of_vars (freshLabel_emits h).1 ?_ (freshLabel_bound h))⟩
  rw [freshLabel_vars h]

theorem declare {name : String} {ty : Ty} {init : Init} (hv : Variable.Settled ⟨name, ty, init⟩) :
    Along R (declare name ty init) := by
  refine ⟨.declare .., fun h => ?_⟩
  obtain ⟨vs, hvs, rfl⟩ := declare_eq_ok.mp h
  obtain ⟨_, _, rfl⟩ := Variables.declare_eq_ok hvs
  exact Closed.still (.of_declared (declare_emits h) rfl hv id)

variable {cx : Context}

theorem generate {kind : String} {ty : Ty} {init : Init}
    (hv : ∀ x, Variable.Settled ⟨x, ty, init⟩) :
    Along R (generate cx kind ty init) := by
  refine ⟨.generate .., fun h => ?_⟩
  obtain ⟨_, _, ht⟩ := generate_eq_ok h
  exact Closed.still (.of_declared (generate_emits h) (by rw [ht]) (hv _) (generate_bound h))

theorem temp (kind : String) (ty : Ty) : Along R (temp cx kind ty) := generate fun _ => trivial

theorem outcome (ret : Ty) (discard : Bool) : Along R (outcome cx ret discard) := by
  rw [Lower.outcome]
  split
  · exact pure _
  · split
    · exact pure _
    · exact .bind (temp ..) fun _ => pure _

theorem resolve (name : String) : Along R (resolve cx name) :=
  of_still (.resolve name) fun h => (resolve_eq_ok.mp h).2

theorem typeOf (x : String) : Along R (typeOf cx x) :=
  of_still (.typeOf x) fun h => (typeOf_eq_ok.mp h).2

theorem typesOf (xs : List String) : Along R (typesOf cx xs) :=
  of_still (.typesOf xs) fun h => (typesOf_eq_ok.mp h).2

end Along
end Lower
end StackScript
