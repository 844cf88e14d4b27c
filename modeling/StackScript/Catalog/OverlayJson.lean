import StackScript.Catalog.Basic
import StackScript.Json.Field
import StackScript.Json.Tree

namespace StackScript

open Json

def MemberKind.tags : List (String × MemberKind) :=
  [("StaticFunc", .static), ("Constructor", .ctor), ("InstanceFunc", .method)]

namespace Member

def ofJson? : Nat → Json → Option Member
  | 0, _ => none
  | n + 1, v =>
    match fields ["kind", "owner", "name", "args", "ret", "extern"] v with
    | some [kind, owner, name, args, ret, symbol] => do
      return ⟨← kind.required (choice MemberKind.tags n), ← owner.required text?,
        ← name.required text?, ← args.orElse [] (listOf (fun _ => text?) n),
        ← ret.orElse none (orNull text?), ← symbol.required text?⟩
    | _ => none

def toJson (m : Member) : Json :=
  .record [("kind", tagOf MemberKind.tags m.kind), ("owner", .text m.owner), ("name", .text m.name),
    ("args", .texts m.args), ("ret", nullable .text m.ret), ("extern", .text m.symbol)]

end Member

namespace Slot

def ofJson? : Nat → Json → Option Slot
  | 0, _ => none
  | _ + 1, v =>
    match fields ["ty", "slot"] v with
    | some [ty, name] => do return ⟨← ty.required text?, ← name.required text?⟩
    | _ => none

def toJson (s : Slot) : Json := .record [("ty", .text s.ty), ("slot", .text s.name)]

end Slot

namespace Overlay

def ofJson? : Nat → Json → Option Overlay
  | 0, _ => none
  | n + 1, v =>
    match fields ["types", "methods", "events"] v with
    | some [types, members, events] => do
      return ⟨← types.orElse [] (tableOf (fun _ => text?) n),
        ← members.orElse [] (listOf Member.ofJson? n),
        ← events.orElse [] (tableOf (listOf Slot.ofJson?) n)⟩
    | _ => none

def parse? (s : String) : Option Overlay := (Json.parse? s).bind (ofJson? nestingLimit)

def toJson (o : Overlay) : Json :=
  .record [("types", .record (o.types.map fun (k, v) => (k, .text v))),
    ("methods", .arr (o.members.map Member.toJson)),
    ("events", .record (o.events.map fun (k, ss) => (k, .arr (ss.map Slot.toJson))))]

end Overlay
end StackScript
