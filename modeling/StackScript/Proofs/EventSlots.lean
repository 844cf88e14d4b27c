import StackScript.Proofs.StackDepth

namespace StackScript

open Draft

theorem Variable.find?_of_becomes {c : Catalog} {labels : List Label} {vs : List Variable}
    {ws : List DataVar} (h : List.Forall₂ (Becomes c labels) vs ws) {x : String} {v : Variable}
    (hv : vs.find? (·.name = x) = some v) :
    ∃ w, ws.find? (·.name = x) = some w ∧ Becomes c labels v w := by
  induction h with
  | nil => cases hv
  | @cons u w vs ws hu _ ih =>
      rw [List.find?_cons] at hv ⊢
      rw [hu.name]
      by_cases hx : u.name = x
      · simp only [hx, decide_true, Option.some.injEq] at hv ⊢
        exact ⟨w, rfl, hv ▸ hu⟩
      · simp only [hx, decide_false] at hv ⊢
        exact ih hv

namespace Module

variable {c : Catalog} {m : Module} {p : Program} {fs : Functions} {d : Nat → Draft}

theorem lookup_announces {st : Stmt} {x : String} {ty : Ty} (hst : st ∈ m.body)
    (hx : (x, ty) ∈ st.announces c) :
    ((m.announces c).lookup x).isSome := by
  rw [List.lookup_isSome_iff]
  exact ⟨(x, ty), List.mem_append_right _ (List.mem_flatMap.mpr ⟨st, hst, hx⟩), beq_self_eq_true x⟩

theorem Layout.exists_dataVar (L : Layout c m p fs d) {x : String} {ty : Ty}
    (hx : (d m.body.length).Typed x ty) :
    ∃ w, p.vars.find? (·.name = x) = some w ∧ c.machineType? ty.name = some w.machineType := by
  obtain ⟨v, hv, rfl⟩ := hx
  obtain ⟨w, hw, hb⟩ := Variable.find?_of_becomes L.vars hv
  exact ⟨w, hw, hb.machine⟩

section

variable {q : Pos} {name : String} {params : List Param} {returns : Option String}
  {body : List Stmt} {slots : List Slot}

theorem mem_slots {slot : Slot} (he : Names.isEvent name) (hs : c.event? name = some slots)
    (hm : slot ∈ slots) :
    (slot.name, .named slot.ty) ∈ Stmt.announces c (.define q name params returns body) := by
  rw [Stmt.announces, Stmt.slots, if_pos he, hs]
  exact List.mem_append_left _ (List.mem_map.mpr ⟨slot, hm, rfl⟩)

theorem mem_locals {param : Param} {ty : String} (he : Names.isEvent name) (hm : param ∈ params)
    (ht : param.typeName = some ty) :
    (Names.qualify name param.name, .named ty) ∈
    Stmt.locals (.define q name params returns body) := by
  rw [Stmt.locals, if_pos he]
  exact List.mem_filterMap.mpr ⟨param, hm, by rw [ht]; rfl⟩

theorem Sketch.annotated (K : Sketch c m fs d) (hst : .define q name params returns body ∈ m.body)
    (he : Names.isEvent name) (hs : c.event? name = some slots) :
    List.Forall₂ (fun slot param => param.typeName = some slot.ty) slots params := by
  obtain ⟨s₁, s₂, _, _, D, _⟩ := Lower.header_declares c K.header
  have hmap := D.events q name params returns body hst he slots hs
  have hf : List.Forall₂ Eq (slots.map fun slot => some slot.ty) (params.map Param.typeName) := by
    rw [List.forall₂_eq_eq_eq]
    exact hmap.symm
  rw [List.forall₂_map_left_iff, List.forall₂_map_right_iff] at hf
  exact hf.imp fun _ _ => Eq.symm

theorem Sketch.locals (K : Sketch c m fs d) {st : Stmt} (hst : st ∈ m.body) {x : String} {ty : Ty}
    (hx : (x, ty) ∈ st.locals) {k : Nat} (hk : k ≤ m.body.length) : (d k).Typed x ty := by
  obtain ⟨s₁, s₂, _, _, D, h₂, _⟩ := Lower.header_declares c K.header
  exact (D.locals st hst _ hx).moves (h₂.emits.moves.trans (K.moves (Nat.zero_le k) hk))

/-- The parameters of an event have the types that the catalog gives its arguments. The slot that a
parameter is copied from has its type if it is announced first with this type, by whatever
definition that is. -/
theorem compile_slot_types (hc : m.compile c = .ok p) {k : Nat}
    (hk : m.body[k]? = some (.define q name params returns body)) (he : Names.isEvent name)
    (hs : c.event? name = some slots) :
    ∃ fs F s t, m.lowered c m.body.length = some (fs, F) ∧
      m.Spans c k (.define q name params returns body) s t ∧
      Code.At p.code s.emitter.pc (eventHead c name params) ∧ slots.length = params.length ∧
      ∀ slot param, (slot, param) ∈ slots.zip params →
        F.Typed (Names.qualify name param.name) (.named slot.ty) ∧
        (F.Typed slot.name (.named slot.ty) ↔
          (m.announces c).lookup slot.name = some (.named slot.ty)) ∧
        ∃ w ty, p.vars.find? (·.name = slot.name) = some w ∧
          (m.announces c).lookup slot.name = some ty ∧
          c.machineType? ty.name = some w.machineType := by
  obtain ⟨fs, d, L⟩ := layout_of_compile hc
  have hlt := (List.getElem?_eq_some_iff.mp hk).1
  have hst := List.mem_of_getElem? hk
  have hann := L.annotated hst he hs
  refine ⟨fs, d m.body.length, d k, d (k + 1), L.lowered _ le_rfl,
    L.spans_iff.mpr ⟨hk, rfl, rfl⟩, ?_, hann.length_eq, fun slot param hmem => ?_⟩
  · obtain ⟨code, e, hp⟩ := L.placed hk
    cases hp with
    | event =>
        have hhas := e.has (L.size_code hlt.le) (L.moves hlt le_rfl) L.linked
        exact hhas.left.at_of_noTarget target_eventHead
    | function hf =>
        rw [Stmt.function?, if_pos he] at hf
        cases hf
    | loose hl => exact absurd rfl (hl q name params returns body)
  · obtain ⟨hslot, hparam⟩ := List.of_mem_zip hmem
    have hty := (List.forall₂_iff_zip.mp hann).2 hmem
    have hknown := lookup_announces hst (mem_slots he hs hslot)
    obtain ⟨ty, hx⟩ := Option.isSome_iff_exists.mp hknown
    obtain ⟨w, hw, hmachine⟩ := L.exists_dataVar ((L.typed_iff hknown le_rfl).mpr hx)
    exact ⟨L.locals hst (mem_locals he hparam hty) le_rfl, L.typed_iff hknown le_rfl, w, ty, hw,
      hx, hmachine⟩

end

/-- Two events that the host hands an argument in the same slot, with different types. -/
def sharing : Catalog :=
  ⟨[("SystemUInt32", "SystemUInt32"), ("SystemInt32", "SystemInt32"),
    ("SystemString", "SystemString")], [],
    [("_counted", [⟨"SystemInt32", "argument"⟩]), ("_named", [⟨"SystemString", "argument"⟩])]⟩

def listeners : Module :=
  ⟨[Build.define "_counted" [("n", "SystemInt32")] none [.pass .unknown],
    Build.define "_named" [("s", "SystemString")] none [.pass .unknown]]⟩

theorem listeners_code : (listeners.compile sharing).toOption.map Program.code =
    some (eventHead sharing "_counted" [⟨"n", some "SystemInt32"⟩] ++ Block.halt ++
      (eventHead sharing "_named" [⟨"s", some "SystemString"⟩] ++ Block.halt)) := by
  decide +kernel

theorem listeners_types : (listeners.lowered sharing 2).map (fun x =>
      ["argument", "_counted__n", "_named__s"].map fun y => (x.2.vars.find? y).map Variable.ty) =
    some [some .int32, some .int32, some .string] := by
  decide +kernel

theorem listeners_slot_types : ∃ p fs F, listeners.compile sharing = .ok p ∧
    listeners.lowered sharing 2 = some (fs, F) ∧ F.Typed "argument" .int32 ∧
    F.Typed "_counted__n" .int32 := by
  cases hc : listeners.compile sharing with
  | error e =>
      have hcode := listeners_code
      rw [hc] at hcode
      cases hcode
  | ok p =>
      obtain ⟨fs, F, s, t, hF, -, -, -, hslots⟩ := compile_slot_types hc (k := 0) rfl rfl rfl
      obtain ⟨hparam, hslot, -⟩ :=
        hslots ⟨"SystemInt32", "argument"⟩ ⟨"n", some "SystemInt32"⟩ (by simp)
      exact ⟨p, fs, F, rfl, hF, hslot.mpr rfl, hparam⟩

/-- The second event copies a slot of the first one's type into its own parameter. -/
theorem listeners_slot_differs : sharing.event? "_named" = some [⟨"SystemString", "argument"⟩] ∧
    ∃ p fs F, listeners.compile sharing = .ok p ∧ listeners.lowered sharing 2 = some (fs, F) ∧
      Block.assign "_named__s" "argument" <:+: p.code ∧
      F.Typed "argument" .int32 ∧ ¬ F.Typed "argument" .string ∧ F.Typed "_named__s" .string := by
  refine ⟨rfl, ?_⟩
  have hcode := listeners_code
  have htypes := listeners_types
  cases hc : listeners.compile sharing with
  | error e =>
      rw [hc] at hcode
      cases hcode
  | ok p =>
      cases hF : listeners.lowered sharing 2 with
      | none =>
          rw [hF] at htypes
          cases htypes
      | some x =>
          obtain ⟨fs, F⟩ := x
          rw [hc] at hcode
          rw [hF] at htypes
          simp only [Except.toOption, Option.map_some, Option.some.injEq] at hcode htypes
          simp only [List.map_cons, List.cons.injEq, ← typed_iff] at htypes
          obtain ⟨harg, -, hs, -⟩ := htypes
          refine ⟨p, fs, F, rfl, rfl, ?_, harg, fun h => ?_, hs⟩
          · rw [hcode]
            exact ⟨eventHead sharing "_counted" [⟨"n", some "SystemInt32"⟩] ++ Block.halt ++
              (.eventHead "_named" :: .pushAddr haltAddress :: Block.popInto Names.returnAddress),
              Block.halt, rfl⟩
          · exact absurd (harg.unique h) (by decide)

end Module
end StackScript
