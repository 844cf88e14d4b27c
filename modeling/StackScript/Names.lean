import StackScript.Ty

namespace StackScript.Names

def qualify (scope name : String) : String := scope ++ "__" ++ name

def functionId (name : String) (types : List Ty) : String :=
  if types.isEmpty then name else name ++ "__" ++ "_".intercalate (types.map Ty.name)

def symbol (owner name : String) (args : List String) (ret : String) : String :=
  let inputs := if args.isEmpty then "" else "_".intercalate args ++ "__"
  owner ++ ".__" ++ name ++ "__" ++ inputs ++ ret

def generated (counter : Nat) (kind : String) : String :=
  "__" ++ toString counter ++ "_" ++ kind

/-- Names that start with an underscore are events, which the host enters. -/
def isEvent (name : String) : Bool := name.toList.head? == some '_'

def returnAddress : String := "ret_addr"

end StackScript.Names
