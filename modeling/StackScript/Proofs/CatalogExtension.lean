import StackScript.Proofs.Purpose.Basic
import StackScript.Proofs.TwoRuns.Lowering
import StackScript.Proofs.Meaning.Event

namespace StackScript

def Member.key (x : Member) : MemberKind × String × String × List String :=
  (x.kind, x.owner, x.name, x.args)

/-- The overlay brings members only, and none of them is found in place of one that the catalog has.
A call on a type looks for a constructor last, so a static function also hides the constructor of
its name. -/
structure Overlay.AddsTo (o : Overlay) (c : Catalog) : Prop where
  types : o.types = []
  events : o.events = []
  new : ∀ x ∈ o.members, x.key ∉ c.members.map Member.key
  static : ∀ x ∈ o.members, x.kind = .static →
    (.ctor, x.owner, x.name, x.args) ∉ c.members.map Member.key

namespace Overlay.AddsTo

variable {o : Overlay} {c : Catalog} {kind kind' : MemberKind} {owner name : String}
  {args : List Ty} {f : Method}

theorem merge_eq (h : o.AddsTo c) : c.merge o = c.withMembers (o.members.reverse ++ c.members) := by
  rw [Catalog.merge, h.types, h.events]
  rfl

theorem method?_merge :
    (c.withMembers (o.members.reverse ++ c.members)).method? kind owner name args =
    ((o.members.reverse.find? (·.answers kind owner name args)).map Member.toMethod).or
      (c.method? kind owner name args) := by
  rw [Catalog.method?, Catalog.withMembers, List.find?_append, Option.map_or, Catalog.method?]

theorem find?_eq_none (hf : c.method? kind owner name args = some f)
    (hnew : ∀ x ∈ o.members, x.kind = kind' →
      (kind, x.owner, x.name, x.args) ∉ c.members.map Member.key) :
    o.members.reverse.find? (·.answers kind' owner name args) = none := by
  obtain ⟨y, hy, -, rfl, rfl, rfl, rfl⟩ := Catalog.method?_eq_some hf
  refine List.find?_eq_none.mpr fun x hx hxa => ?_
  obtain ⟨hkind, ho, hn, ha⟩ := Member.answers_iff.mp hxa
  have hargs : x.args = y.args := List.map_injective_iff.mpr (fun _ _ h => Ty.named.inj h) ha
  refine hnew x (List.mem_reverse.mp hx) hkind ?_
  rw [ho, hn, hargs]
  exact List.mem_map_of_mem hy

theorem find?_same (h : o.AddsTo c) (hf : c.method? kind owner name args = some f) :
    o.members.reverse.find? (·.answers kind owner name args) = none := by
  refine find?_eq_none hf fun x hx hkind => ?_
  have hx := h.new x hx
  rwa [Member.key, hkind] at hx

theorem supplies (h : o.AddsTo c) : c.Supplies False (o.members.reverse ++ c.members) where
  method kind owner name args := by
    cases hf : c.method? kind owner name args with
    | none => exact .inr ⟨rfl, not_false⟩
    | some f => exact .inl (by rw [method?_merge, h.find?_same hf, hf]; rfl)
  static owner name args := by
    rw [method?_merge, method?_merge]
    cases hs : c.method? .static owner name args with
    | some f => exact .inl (by rw [h.find?_same hs]; rfl)
    | none =>
        cases hf : c.method? .ctor owner name args with
        | none => exact .inr ⟨rfl, not_false⟩
        -- a new static function would be found before the constructor
        | some f => exact .inl (by rw [find?_eq_none hf h.static, h.find?_same hf]; rfl)

end Overlay.AddsTo

namespace Module

variable {c : Catalog} {m : Module} {p : Program}

/-- New members change no program. -/
theorem compile_merge {o : Overlay} (ho : o.AddsTo c) (hc : m.compile c = .ok p) :
    m.compile (c.merge o) = .ok p := by
  rw [ho.merge_eq]
  exact compile_unplaced_eq_ok.mp (compile_unplaced_of_ok ho.supplies hc)

def furnished : Catalog :=
  arithmetic.withMembers
    (⟨.ctor, "SystemString", "ctor", ["SystemInt32"], some "SystemString", "spell"⟩ ::
      arithmetic.members)

def furniture : Overlay :=
  ⟨[], [⟨.static, "SystemString", "ctor", [], some "SystemString", "blank"⟩,
    ⟨.method, "SystemString", "ctor", ["SystemInt32"], none, "respell"⟩,
    ⟨.static, "SystemInt32", "op_Addition", ["SystemInt32", "SystemString"],
      some "SystemString", "join"⟩], []⟩

def spelling : Module :=
  ⟨[Build.define "_start" [] none
      [Build.assign (.name .unknown "text") (Build.method (.name .unknown "SystemString") "ctor"
          [Build.binary (.int .unknown 1) .add (.int .unknown 2)]),
        Build.branch (.bool .unknown true) [.pass .unknown] []]]⟩

theorem spelling_merge : ∃ p, spelling.compile furnished = .ok p ∧ furniture.AddsTo furnished ∧
    spelling.compile (furnished.merge furniture) = .ok p := by
  have hok : (spelling.compile furnished).isOk := by decide +kernel
  have hadds : furniture.AddsTo furnished := ⟨rfl, rfl, by decide, by decide⟩
  cases hc : spelling.compile furnished with
  | error e => rw [hc] at hok; cases hok
  | ok p => exact ⟨p, rfl, hadds, compile_merge hadds hc⟩

end Module
end StackScript
