import StackScript.Lowering.Basic

namespace StackScript

/-- What an expression comes to: a variable with its value, a type, or nothing. -/
inductive Operand where
  | var (name : String)
  | type (ty : Ty)
  | nothing
  deriving DecidableEq

namespace Lower

variable (cx : Context)

/-- Calls a host member. One that has a result gets a new variable for it as last operand. -/
def hostCall (m : Method) (operands : List String) : Lower Operand := do
  note (.hostCall m.symbol)
  if m.ret.isVoid then
    emit (Block.invoke m.symbol operands)
    return .nothing
  else
    let result ← temp cx "extern" m.ret
    emit (Block.invoke m.symbol (operands ++ [result]))
    return .var result

def operator (member left : String) (rest : List String) : Lower Operand := do
  let ty ← typeOf cx left
  let types ← typesOf cx rest
  match cx.catalog.method? .static ty.name member (ty :: types) with
  | some m => hostCall cx m (left :: rest)
  | none => reject (.noMember .static ty.name member (ty :: types))

def methodCall (receiver member : String) (args : List String) : Lower Operand := do
  let owner ← typeOf cx receiver
  let types ← typesOf cx args
  match cx.catalog.method? .method owner.name member types with
  | some m => hostCall cx m (receiver :: args)
  | none => reject (.noMember .method owner.name member types)

/-- A static function, or else a constructor. -/
def staticMember? (owner member : String) (types : List Ty) : Option Method :=
  (cx.catalog.method? .static owner member types).or (cx.catalog.method? .ctor owner member types)

def staticCall (owner member : String) (args : List String) : Lower Operand := do
  let types ← typesOf cx args
  match staticMember? cx owner member types with
  | some m => hostCall cx m args
  | none =>
    let d := Diagnostic.noMember .static owner member types
    reject (if cx.catalog.isType owner then
      d.withHint "no constructor with these argument types either" else d)

def outcome (ret : Ty) (discard : Bool) : Lower Block.Outcome :=
  if ret.isVoid then return .none
  else if discard then return .discard
  else return .into (← temp cx "ret_value" ret)

def userCall (name : String) (args : List String) (discard : Bool) : Lower Operand := do
  let types ← typesOf cx args
  let ret ← accept (cx.functions.returnType name types)
  let id := Names.functionId name types
  note (.call id ret)
  let entry ← namedLabel id
  let back ← freshLabel "ret_call_label"
  let returnConst ← generate cx "const_ret_addr" .uint32 (.label back)
  emit (Block.enter ⟨Names.returnAddress, cx.scope.env, returnConst, args, entry⟩)
  bindLabel back
  let result ← outcome cx ret discard
  emit (Block.leave result cx.scope.env Names.returnAddress)
  return match result with
    | .into x => .var x
    | _ => .nothing

def cast (name : String) (args : List String) : Lower Operand :=
  match args with
  | [arg] => do
    let result ← temp cx "cast" (.named name)
    emit (Block.assign result arg)
    return .var result
  | _ => reject (.castArity name args.length)

/-- `name(args)`: the built-in `instantiate`, a conversion, or a function of the script. -/
def plainCall (name : String) (args : List String) (discard : Bool) : Lower Operand :=
  if name = "instantiate" then
    if args.length = 1 then staticCall cx "VRCInstantiate" "Instantiate" args
    else reject (.instantiateArity args.length)
  else if cx.catalog.isType name then cast cx name args
  else userCall cx name args discard

end Lower
end StackScript
