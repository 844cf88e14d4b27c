import StackScript.Code.Program
import StackScript.Diagnostic.Wording
import StackScript.Names

namespace StackScript

structure Variable where
  name : String
  ty : Ty
  init : Init
  deriving DecidableEq

/-- The variables of a compile unit, in the order of their declaration; they live in one namespace.
`exported` are the names that the host can see. -/
structure Variables where
  declared : List Variable
  exported : List String
  deriving DecidableEq

inductive Agreement where
  | agrees
  | differs
  | unknown
  deriving DecidableEq

namespace Variables

def empty : Variables := ⟨[], []⟩

def find? (vs : Variables) (name : String) : Option Variable := vs.declared.find? (·.name = name)

def contains (vs : Variables) (name : String) : Bool := (vs.find? name).isSome

def declare (vs : Variables) (name : String) (ty : Ty) (init : Init) :
    Except Diagnostic Variables :=
  if vs.contains name then .error (.alreadyDeclared name)
  else if ty.isVoid then .error (.voidVariable name)
  else .ok { vs with declared := vs.declared ++ [⟨name, ty, init⟩] }

/-- The type of a variable. The name of a type that is no variable stands for that type. -/
def typeOf (vs : Variables) (c : Catalog) (name : String) : Except Diagnostic Ty :=
  match vs.find? name with
  | some v => .ok v.ty
  | none => if c.isType name then .ok (.named name) else .error (.unknownVariable name)

/-- The variable that a name means inside a scope: a local one if there is one. -/
def resolve (vs : Variables) (scope name : String) : String :=
  if scope ≠ "" ∧ vs.contains (Names.qualify scope name) then Names.qualify scope name else name

def check (vs : Variables) (name : String) (ty : Ty) : Agreement :=
  match vs.find? name with
  | none => .unknown
  | some v => if v.ty = ty then .agrees else .differs

def markExported (vs : Variables) (name : String) : Variables :=
  if vs.exported.contains name then vs else { vs with exported := vs.exported ++ [name] }

def dataVar (c : Catalog) (v : Variable) : Except Diagnostic DataVar :=
  match c.machineType? v.ty.name with
  | some machineType => .ok ⟨v.name, machineType, v.init⟩
  | none => .error (.unknownType v.ty.name)

def dataSegment (vs : Variables) (c : Catalog) : Except Diagnostic (List String × List DataVar) :=
  match vs.exported.find? (!vs.contains ·) with
  | some name => .error (.unassignedGlobal name)
  | none => (vs.declared.mapM (dataVar c)).map (vs.exported, ·)

end StackScript.Variables
