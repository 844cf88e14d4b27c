import StackScript.Code.Emitter
import StackScript.Journal
import StackScript.Symbols.Functions
import StackScript.Symbols.Variables

namespace StackScript

inductive Place where
  | module
  | event
  | function (ret : Ty)
  deriving DecidableEq

/-- The definition that code is generated for: the qualifier of its locals and the parameters that
it has to keep over a call. -/
structure Scope where
  place : Place
  qualifier : String
  env : List String

namespace Scope

def module : Scope := ⟨.module, "", []⟩

def event (name : String) : Scope := ⟨.event, name, []⟩

def function (id : String) (ret : Ty) (params : List String) : Scope := ⟨.function ret, id, params⟩

end Scope

structure Context where
  catalog : Catalog
  functions : Functions
  scope : Scope

/-- What lowering builds; the journal has its last entry first. -/
structure Draft where
  vars : Variables
  emitter : Emitter
  journal : List Entry

def Draft.empty : Draft := ⟨.empty, .empty, []⟩

/-- A step of lowering. A step that fails leaves the draft as far as it came, since the journal of a
failed run is shown. -/
abbrev Lower := EStateM Fault Draft

namespace Lower

def reject (d : Diagnostic) : Lower α := throw (.rejected d)

def accept : Except Diagnostic α → Lower α
  | .ok a => pure a
  | .error d => reject d

def located (p : Pos) (step : Lower α) : Lower α := fun s =>
  match step s with
  | .ok a s => .ok a s
  | .error f s => .error (f.locate p) s

def note (e : Entry) : Lower Unit := modify fun s => { s with journal := e :: s.journal }

def emit (block : List Instr) : Lower Unit := modify fun s =>
  let addresses := Code.addressesFrom s.emitter.pc block
  let entries := (addresses.zip block).map fun (a, i) => Entry.instr a i
  { s with emitter := s.emitter.append block, journal := entries.reverse ++ s.journal }

def bindLabel (label : Nat) : Lower Unit := fun s =>
  match s.emitter.bind label with
  | .error f => .error f s
  | .ok e =>
    let entry := .bound e.pc ((e.labels[label]?.map Label.name).getD "")
    .ok () { s with emitter := e, journal := entry :: s.journal }

def freshLabel (kind : String) : Lower Nat := modifyGet fun s =>
  let (id, e) := s.emitter.freshLabel kind
  (id, { s with emitter := e })

def namedLabel (name : String) : Lower Nat := modifyGet fun s =>
  let (id, e) := s.emitter.namedLabel name
  (id, { s with emitter := e })

def addEvent (name : String) : Lower Unit :=
  modify fun s => { s with emitter := s.emitter.addEvent name }

def declare (name : String) (ty : Ty) (init : Init) : Lower Unit := do
  let s ← get
  let vars ← accept (s.vars.declare name ty init)
  set { s with vars := vars }

def contains (name : String) : Lower Bool := return (← get).vars.contains name

variable (cx : Context)

def generate (kind : String) (ty : Ty) (init : Init) : Lower String := do
  let name ← modifyGet fun s =>
    let (name, e) := s.emitter.nextName kind
    (cx.scope.qualifier ++ name, { s with emitter := e })
  declare name ty init
  return name

def temp (kind : String) (ty : Ty) : Lower String := generate cx kind ty .null

def resolve (name : String) : Lower String := return (← get).vars.resolve cx.scope.qualifier name

def typeOf (var : String) : Lower Ty := do
  accept ((← get).vars.typeOf cx.catalog var)

def typesOf (vars : List String) : Lower (List Ty) := vars.mapM (typeOf cx)

end Lower
end StackScript
