import StackScript.Code.Program
import StackScript.Json.Field
import StackScript.Json.Tree

namespace StackScript

open Json

namespace Target

def ofJson? (n : Nat) (v : Json) : Option Target :=
  match tagged? n v with
  | some (_, "Addr", v) => (word? 32 v).map .addr
  | some (_, "Label", v) => (word? 64 v).map .label
  | _ => none

def toJson : Target → Json
  | .addr a => .tagged "Addr" (.int a)
  | .label id => .tagged "Label" (.int id)

end Target

namespace Init

def ofJson? (n : Nat) (v : Json) : Option Init :=
  match tagged? n v with
  | some (_, "Literal", v) => (text? v).map .literal
  | some (_, "Label", v) => (word? 64 v).map .label
  | some (_, "Addr", v) => (word? 32 v).map .addr
  | _ => choice [("Null", .null)] n v

def toJson : Init → Json
  | .null => .text "Null"
  | .literal t => .tagged "Literal" (.text t)
  | .label id => .tagged "Label" (.int id)
  | .addr a => .tagged "Addr" (.int a)

end Init

namespace Instr

def invoke? : Nat → Json → Option Instr
  | 0, _ => none
  | _ + 1, v =>
    match fields ["symbol", "arity"] v with
    | some [symbol, arity] => do
      return .invoke (← symbol.required text?) (← arity.required (word? 64))
    | _ => none

def ofJson? (n : Nat) (v : Json) : Option Instr :=
  match tagged? n v with
  | some (_, "Push", v) => (text? v).map .push
  | some (_, "PushAddr", v) => (word? 32 v).map .pushAddr
  | some (n, "Jump", v) => (Target.ofJson? n v).map .jump
  | some (n, "JumpIfFalse", v) => (Target.ofJson? n v).map .jumpIfFalse
  | some (_, "JumpIndirect", v) => (text? v).map .jumpIndirect
  | some (n, "Extern", v) => invoke? n v
  | some (_, "EventHead", v) => (text? v).map .eventHead
  | _ => choice [("Pop", .pop), ("Copy", .copy)] n v

def toJson : Instr → Json
  | .pop => .text "Pop"
  | .copy => .text "Copy"
  | .push x => .tagged "Push" (.text x)
  | .pushAddr a => .tagged "PushAddr" (.int a)
  | .jump t => .tagged "Jump" t.toJson
  | .jumpIfFalse t => .tagged "JumpIfFalse" t.toJson
  | .jumpIndirect x => .tagged "JumpIndirect" (.text x)
  | .invoke symbol arity =>
    .tagged "Extern" (.record [("symbol", .text symbol), ("arity", .int arity)])
  | .eventHead name => .tagged "EventHead" (.text name)

end Instr

namespace DataVar

def ofJson? : Nat → Json → Option DataVar
  | 0, _ => none
  | n + 1, v =>
    match fields ["name", "vm_type", "init"] v with
    | some [name, machineType, init] => do
      return ⟨← name.required text?, ← machineType.required text?, ← init.required (Init.ofJson? n)⟩
    | _ => none

def toJson (v : DataVar) : Json :=
  .record [("name", .text v.name), ("vm_type", .text v.machineType), ("init", v.init.toJson)]

end DataVar

namespace Label

def ofJson? : Nat → Json → Option Label
  | 0, _ => none
  | _ + 1, v =>
    match fields ["name", "addr"] v with
    | some [name, addr] => do return ⟨← name.required text?, ← addr.optional (word? 32)⟩
    | _ => none

def toJson (l : Label) : Json :=
  .record [("name", .text l.name), ("addr", nullable (fun a : Nat => .int a) l.addr)]

end Label

namespace Program

def ofJson? : Nat → Json → Option Program
  | 0, _ => none
  | n + 1, v =>
    match fields ["exports", "vars", "events", "code", "labels"] v with
    | some [exports, vars, events, code, labels] => do
      return ⟨← exports.required (listOf (fun _ => text?) n),
        ← vars.required (listOf DataVar.ofJson? n), ← events.required (listOf (fun _ => text?) n),
        ← code.required (listOf Instr.ofJson? n), ← labels.required (listOf Label.ofJson? n)⟩
    | _ => none

def parse? (s : String) : Option Program := (Json.parse? s).bind (ofJson? nestingLimit)

def toJson (p : Program) : Json :=
  .record [("exports", .texts p.exports), ("vars", .arr (p.vars.map DataVar.toJson)),
    ("events", .texts p.events), ("code", .arr (p.code.map Instr.toJson)),
    ("labels", .arr (p.labels.map Label.toJson))]

end Program
end StackScript
