import StackScript.Diagnostic.Wording

namespace StackScript

/-- A function of the script. Its parameters are given by the variables that hold them. -/
structure Function where
  name : String
  types : List Ty
  ret : Ty
  params : List String
  deriving DecidableEq

abbrev Functions := List Function

namespace Functions

def find? (fs : Functions) (name : String) (types : List Ty) : Option Function :=
  List.find? (fun f => f.name = name ∧ f.types = types) fs

def add (fs : Functions) (f : Function) : Except Diagnostic Functions :=
  if (fs.find? f.name f.types).isSome then .error (.functionTwice f.name f.types)
  else .ok (fs ++ [f])

def returnType (fs : Functions) (name : String) (types : List Ty) : Except Diagnostic Ty :=
  match fs.find? name types with
  | some f => .ok f.ret
  | none => .error (.noOverload name types)

end StackScript.Functions
