import StackScript.Code.Block
import StackScript.Code.Program
import StackScript.Diagnostic.Wording
import StackScript.Names

namespace StackScript

/-- Code that only grows, with the labels and names made for it. `pc` is the address after the last
instruction, `named` the labels that are shared by name. -/
structure Emitter where
  code : Array Instr
  pc : Nat
  labels : Array Label
  named : List (String × Nat)
  events : List String
  counter : Nat

namespace Emitter

def empty : Emitter := ⟨#[], 0, #[], [], [], 0⟩

def append (e : Emitter) (block : List Instr) : Emitter :=
  { e with code := e.code ++ block, pc := e.pc + Code.size block }

def nextName (e : Emitter) (kind : String) : String × Emitter :=
  (Names.generated e.counter kind, { e with counter := e.counter + 1 })

def pushLabel (e : Emitter) (name : String) : Nat × Emitter :=
  (e.labels.size, { e with labels := e.labels.push ⟨name, none⟩ })

def freshLabel (e : Emitter) (kind : String) : Nat × Emitter :=
  let (name, e) := e.nextName kind
  e.pushLabel name

def namedLabel (e : Emitter) (name : String) : Nat × Emitter :=
  match e.named.lookup name with
  | some id => (id, e)
  | none =>
    let (id, e) := e.pushLabel name
    (id, { e with named := (name, id) :: e.named })

def bind (e : Emitter) (id : Nat) : Except Fault Emitter :=
  match e.labels[id]? with
  | none => .error (.dangling id)
  | some l =>
    if l.addr.isSome then .error (.rejected (.boundTwice l.name))
    else .ok { e with labels := e.labels.setIfInBounds id { l with addr := some e.pc } }

def addEvent (e : Emitter) (name : String) : Emitter := { e with events := e.events ++ [name] }

def toProgram (e : Emitter) (exports : List String) (vars : List DataVar) : Program :=
  ⟨exports, vars, e.events, e.code.toList, e.labels.toList⟩

end StackScript.Emitter
