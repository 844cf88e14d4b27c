import Mathlib.Data.List.Nodup
import StackScript.Proofs.Purpose.Trace

namespace StackScript

open Draft

namespace Instr

def operand? : Instr → Option String
  | .push x | .jumpIndirect x => some x
  | _ => none

def event? : Instr → Option String
  | .eventHead name => some name
  | _ => none

end Instr

/-- All that a program refers to is there, and once. -/
structure Program.Closed (p : Program) : Prop where
  vars : (p.vars.map DataVar.name).Nodup
  code : p.code.filterMap Instr.operand? ⊆ p.vars.map DataVar.name
  exports : p.exports.Nodup ∧ p.exports ⊆ p.vars.map DataVar.name
  events : p.events.Nodup ∧ p.events = p.code.filterMap Instr.event?

theorem Linked.filterMap_eq {α : Type} {f : Instr → Option α}
    (hf : ∀ i, i.target? ≠ none → f i = none) {labels : List Label} {xs ys : List Instr}
    (h : Linked labels xs ys) : ys.filterMap f = xs.filterMap f := by
  induction h with
  | nil => rfl
  | cons hi _ ih =>
      rw [List.filterMap_cons, List.filterMap_cons, ih]
      obtain rfl | ⟨id, a, _, ⟨rfl, rfl⟩ | ⟨rfl, rfl⟩⟩ := Instr.resolve_cases hi
      · rfl
      · rw [hf _ (by simp [Instr.target?]), hf _ (by simp [Instr.target?])]
      · rw [hf _ (by simp [Instr.target?]), hf _ (by simp [Instr.target?])]

theorem Linked.operands_eq {labels : List Label} {xs ys : List Instr} (h : Linked labels xs ys) :
    ys.filterMap Instr.operand? = xs.filterMap Instr.operand? :=
  h.filterMap_eq fun i hi => by cases i <;> simp_all [Instr.target?, Instr.operand?]

theorem Linked.events_eq {labels : List Label} {xs ys : List Instr} (h : Linked labels xs ys) :
    ys.filterMap Instr.event? = xs.filterMap Instr.event? :=
  h.filterMap_eq fun i hi => by cases i <;> simp_all [Instr.target?, Instr.event?]

namespace Variables

theorem contains_iff {vs : Variables} {x : String} :
    vs.contains x ↔ x ∈ vs.declared.map Variable.name := by
  simp [contains, find?]

theorem nodup_markExported {vs : Variables} (h : vs.exported.Nodup) (name : String) :
    (vs.markExported name).exported.Nodup := by
  rw [markExported]
  split
  case isTrue => exact h
  case isFalse hn => exact List.nodup_append.mpr ⟨h, by simp, by grind⟩

end Variables

theorem Draft.Moves.nodup {s : Draft} (h : Moves .empty s) :
    (s.vars.declared.map Variable.name).Nodup ∧ s.vars.exported.Nodup := by
  induction h with
  | refl => exact ⟨List.nodup_nil, List.nodup_nil⟩
  | tail _ hm ih =>
      cases hm with
      | declare h =>
          obtain ⟨hnew, _, rfl⟩ := Variables.declare_eq_ok h
          refine ⟨?_, ih.2⟩
          rw [← Bool.not_eq_true, Variables.contains_iff] at hnew
          rw [List.map_append]
          exact List.nodup_append.mpr ⟨ih.1, by simp, by grind⟩
      | mark name =>
          rw [Variables.declared_markExported]
          exact ⟨ih.1, Variables.nodup_markExported ih.2 name⟩
      | _ => exact ih

theorem Draft.Moves.find?_of_mem {s : Draft} (h : Moves .empty s) {v : Variable}
    (hv : v ∈ s.vars.declared) :
    s.vars.find? v.name = some v := by
  have hknown := Variables.contains_iff.mpr (List.mem_map.mpr ⟨v, hv, rfl⟩)
  obtain ⟨w, hw⟩ := Option.isSome_iff_exists.mp hknown
  have hname : w.name = v.name := by simpa using List.find?_some hw
  rw [hw, List.inj_on_of_nodup_map h.nodup.1 (List.mem_of_find?_eq_some hw) hv hname]

theorem Variable.names_of_becomes {c : Catalog} {labels : List Label} {vs : List Variable}
    {ws : List DataVar} (h : List.Forall₂ (Becomes c labels) vs ws) :
    ws.map DataVar.name = vs.map Variable.name := by
  induction h with
  | nil => rfl
  | cons hv _ ih => rw [List.map_cons, List.map_cons, hv.name, ih]

section

variable {fs : Functions} {F : Draft} {code : List Instr}

theorem Block.events_pushAll (xs : List String) : (pushAll xs).filterMap Instr.event? = [] := by
  simp [pushAll, Instr.event?]

theorem Block.events_popIntoAll (xs : List String) :
    (popIntoAll xs).filterMap Instr.event? = [] := by
  rw [popIntoAll, List.filterMap_flatMap, List.flatMap_eq_nil_iff]
  exact fun _ _ => rfl

theorem Straight.events (h : Straight fs F code) : code.filterMap Instr.event? = [] := by
  induction h with
  | nil | assign => rfl
  | append _ _ hx hy => rw [List.filterMap_append, hx, hy, List.append_nil]
  | invoke symbol operands =>
      rw [Block.invoke, List.filterMap_append, Block.events_pushAll]
      rfl
  | @call f g result =>
      rw [Block.enter_eq, Block.leave_eq]
      simp only [List.filterMap_append, Block.events_pushAll, Block.events_popIntoAll]
      cases result <;> rfl

theorem Leaves.events {place : Place} (h : Leaves fs F place code) :
    code.filterMap Instr.event? = [] := by
  cases h with
  | halt | void => rfl
  | value _ hx =>
      rw [List.filterMap_append, List.filterMap_append, hx.events]
      rfl

theorem Laid.events {place : Place} {a : Nat} {ss : List Stmt} (h : Laid fs F place a ss code) :
    code.filterMap Instr.event? = [] := by
  induction h with
  | nil => rfl
  | plain _ hx _ ih => rw [List.filterMap_append, hx.events, ih, List.append_nil]
  | leave hx _ ih => rw [List.filterMap_append, hx.events, ih, List.append_nil]
  | branch hx _ _ _ _ _ _ _ _ _ _ hy hz hw =>
      simp only [List.filterMap_append, hx.events, hy, hz, hw]
      rfl
  | loop hx _ _ _ _ _ _ _ _ hy hw =>
      simp only [List.filterMap_append, hx.events, hy, hw]
      rfl

theorem events_eventHead (c : Catalog) (name : String) (params : List Param) :
    (eventHead c name params).filterMap Instr.event? = [name] := by
  have hreceive : (Lower.receiveSlots c name params).filterMap Instr.event? = [] := by
    rw [Lower.receiveSlots, List.filterMap_flatMap, List.flatMap_eq_nil_iff]
    exact fun _ _ => rfl
  rw [eventHead, List.filterMap_cons, List.filterMap_append, hreceive]
  rfl

theorem Placed.events {c : Catalog} {a : Nat} {st : Stmt} (h : Placed c fs F a st code) :
    code.filterMap Instr.event? = st.event?.toList := by
  cases h with
  | event he _ hy =>
      rw [List.filterMap_append, List.filterMap_append, events_eventHead, hy.events,
        Stmt.event?, if_pos he]
      rfl
  | function hf _ _ _ hy =>
      obtain ⟨he, _⟩ := Stmt.function?_define hf
      rw [List.filterMap_append, List.filterMap_append, Block.events_popIntoAll, hy.events,
        Stmt.event?, he]
      rfl
  | loose hs hx =>
      rw [hx.events]
      cases st with
      | define q name params returns body => exact absurd rfl (hs q name params returns body)
      | _ => rfl

end

namespace Module

variable {c : Catalog} {m : Module} {p : Program} {fs : Functions} {d : Nat → Draft} {s : Draft}

theorem Trace.events (h : m.Trace c fs d s) : s.emitter.events = (d 0).emitter.events := by
  induction h with
  | refl => rfl
  | tail _ h ih =>
      obtain ⟨k, st, h⟩ := h
      rw [h.act.events, ih]

theorem Sketch.events_zero (K : Sketch c m fs d) :
    (d 0).emitter.events = m.body.filterMap Stmt.event? ∧ (d 0).emitter.events.Nodup := by
  obtain ⟨s₁, s₂, _, _, D, _, _, h₁, h₂⟩ := Lower.header_declares c K.header
  have hs₁ : s₁.emitter.events = [] := h₁
  rw [h₂]
  refine ⟨by rw [D.entries, hs₁, List.nil_append], D.once ?_⟩
  rw [hs₁]
  exact List.nodup_nil

theorem Sketch.events_code (K : Sketch c m fs d) {k : Nat} (hk : k ≤ m.body.length) :
    (d k).code.filterMap Instr.event? = (m.body.take k).filterMap Stmt.event? := by
  induction k with
  | zero => rw [K.code_zero]; rfl
  | succ k ih =>
      have hst := List.getElem?_eq_getElem hk
      obtain ⟨code, e, hp⟩ := K.placed hst
      rw [e.code, List.filterMap_append, ih (Nat.le_of_succ_le hk), hp.events,
        List.take_add_one, hst, List.filterMap_append]
      cases h : m.body[k].event? <;> simp [h]

theorem Layout.finished (L : Layout c m p fs d) (hc : m.compile c = .ok p) :
    p.exports = (d m.body.length).vars.exported ∧ p.events = (d m.body.length).emitter.events ∧
      ∀ x ∈ p.exports, (d m.body.length).vars.contains x := by
  obtain ⟨fs', F, t, hF, hfin⟩ := finished_of_compile hc
  obtain ⟨rfl, rfl⟩ : fs = fs' ∧ d m.body.length = F := by
    simpa using (L.lowered _ le_rfl).symm.trans hF
  obtain ⟨exports, vars, hdata, hlink⟩ := Lower.finish_eq_ok hfin
  obtain ⟨code, ws, rfl, _⟩ := Program.link_eq_ok hlink
  obtain ⟨hexports, hknown, _⟩ := Lower.dataSegment_parts hdata
  exact ⟨hexports, rfl, hknown⟩

/-- A compiled program is closed. -/
theorem compile_closed (hc : m.compile c = .ok p) : p.Closed := by
  obtain ⟨fs, d, L⟩ := layout_of_compile hc
  obtain ⟨hexports, hevents, hknown⟩ := L.finished hc
  obtain ⟨hvars, honce⟩ := (L.moves_empty le_rfl).nodup
  have hnames := Variable.names_of_becomes L.vars
  have htrace := L.trace le_rfl
  obtain ⟨hstart, hfirst⟩ := L.events_zero
  refine ⟨by rwa [hnames], fun x hx => ?_, ⟨by rwa [hexports], fun x hx => ?_⟩, ?_, ?_⟩
  · rw [Linked.operands_eq L.linked, List.mem_filterMap] at hx
    obtain ⟨i, hi, hx⟩ := hx
    rw [hnames, ← Variables.contains_iff]
    apply L.grounded htrace
    cases i with
    | push y => cases hx; exact .inl hi
    | jumpIndirect y => cases hx; exact .inr hi
    | _ => cases hx
  · rw [hnames, ← Variables.contains_iff]
    exact hknown x hx
  · rwa [hevents, htrace.events]
  · rw [hevents, htrace.events, hstart, Linked.events_eq L.linked, L.events_code le_rfl,
      List.take_length]

def visible : Module :=
  ⟨[Build.global ["n"], Build.assign (.name .unknown "n") (.int .unknown 1),
    Build.assign (.name .unknown "b") (.name .unknown "SystemBoolean"),
    Build.define "_start" [] none
      [Build.assign (.name .unknown "n")
        (Build.call (.name .unknown "f") [.name .unknown "n", .name .unknown "b"]),
        Build.global ["b", "n"]],
    Build.define "f" [("a", "SystemInt32"), ("b", "SystemBoolean")] (some "SystemInt32")
      [Build.loop (.name .unknown "b") [Build.ret (some (.name .unknown "a"))],
        Build.ret (some (.int .unknown 0))],
    Build.define "_update" [] none [.pass .unknown]]⟩

theorem visible_closed : ∃ p, visible.compile scalars = .ok p ∧ p.exports = ["n", "b"] ∧
    p.events = ["_start", "_update"] ∧ p.Closed := by
  have hok : (visible.compile scalars).toOption.map (fun p => (p.exports, p.events)) =
      some (["n", "b"], ["_start", "_update"]) := by decide +kernel
  cases hc : visible.compile scalars with
  | error e => rw [hc] at hok; cases hok
  | ok p =>
      rw [hc] at hok
      obtain ⟨hexports, hevents⟩ := Prod.mk.inj (Option.some.inj hok)
      exact ⟨p, rfl, hexports, hevents, compile_closed hc⟩

end Module
end StackScript
