import StackScript.Decimal.Shortest
import StackScript.Lowering.Call
import StackScript.Lowering.Operators
import StackScript.Text.Quoted

namespace StackScript

/-- Type and first value of a literal that needs no code; none for other expressions. -/
def Expr.literal? : Expr → Except Diagnostic (Option (Ty × Init))
  | .int p n =>
    if Int32.minValue.toInt ≤ n.toInt ∧ n.toInt ≤ Int32.maxValue.toInt then
      .ok (some (.int32, .literal (toString n.toInt)))
    else .error ((Diagnostic.intRange n.toInt).locate p)
  | .float _ x => .ok (some (.single, .literal x.text))
  | .str _ s => .ok (some (.string, .literal (Text.Quoted.quote s)))
  | .null _ => .ok (some (.object, .null))
  | _ => .ok none

namespace Lower

variable (cx : Context)

def literal (e : Expr) : Lower Operand := do
  match ← accept e.literal? with
  | some (ty, init) => return .var (← generate cx "const" ty init)
  | none => reject (.unsupported e.describe)

/-- The machine has no truth values of its own: one is parsed from a string when the code runs. -/
def boolean (b : Bool) : Lower Operand := do
  match cx.catalog.method? .static "SystemBoolean" "Parse" [.string] with
  | some m =>
    let text ← generate cx "const" .string
      (.literal (Text.Quoted.quote (if b then "true" else "false")))
    let result ← temp cx "bool" .boolean
    emit (Block.invoke m.symbol [text, result])
    return .var result
  | none => reject (.noMember .static "SystemBoolean" "Parse" [.string])

def nameOperand (ident : String) : Lower Operand := do
  let var ← resolve cx ident
  if ← contains var then return .var var
  else if cx.catalog.isType ident then return .type (.named ident)
  else reject (.unknownName ident)

/-- A name that is no variable owns static members. -/
def staticOwner? : Expr → Lower (Option String)
  | .name _ ident => do
    if ← contains (← resolve cx ident) then return none else return some ident
  | _ => return none

def operandOf (e : Expr) (step : Lower Operand) : Lower Operand := do
  note (.expression e.pos e.describe)
  located e.pos step

def valueOf (e : Expr) (step : Lower Operand) : Lower String := do
  match ← operandOf e step with
  | .var name => return name
  | .nothing => located e.pos (reject (.noValue e))
  | .type ty => located e.pos (reject (.typeAsValue ty))

mutual

/-- Lowers an expression. With `discard`, a function's result is dropped. Arguments are evaluated
before the receiver. -/
def lowerExpr (discard : Bool) : Expr → Lower Operand
  | .int p n => literal cx (.int p n)
  | .float p x => literal cx (.float p x)
  | .str p s => literal cx (.str p s)
  | .null p => literal cx (.null p)
  | .bool _ b => boolean cx b
  | .name _ ident => nameOperand cx ident
  | .call _ (.member _ owner name) args => do
    let args ← lowerValues args
    match ← staticOwner? cx owner with
    | some ident => staticCall cx ident name args
    | none =>
      let receiver ← valueOf owner (lowerExpr false owner)
      methodCall cx receiver name args
  | .call _ (.name _ ident) args => do
    let args ← lowerValues args
    plainCall cx ident args discard
  | .call _ callee args => do
    let _ ← lowerValues args
    reject (.callOf callee)
  | .subscript _ container index => do
    let receiver ← valueOf container (lowerExpr false container)
    let index ← valueOf index (lowerExpr false index)
    methodCall cx receiver "Get" [index]
  | .unary p op operand =>
    match op.member? with
    | none => reject (.unsupported (Expr.unary p op operand).describe)
    | some member => do
      let operand ← valueOf operand (lowerExpr false operand)
      operator cx member operand []
  | .binary p left op right =>
    match op.member? with
    | none => reject (.unsupported (Expr.binary p left op right).describe)
    | some member => do
      let left ← valueOf left (lowerExpr false left)
      let right ← valueOf right (lowerExpr false right)
      operator cx member left [right]
  | .compare _ left [op] [right] =>
    match op.member? with
    | none => reject (.comparison op)
    | some member => do
      let left ← valueOf left (lowerExpr false left)
      let right ← valueOf right (lowerExpr false right)
      operator cx member left [right]
  | .compare _ _ _ _ => reject .chainedComparison
  | .logic _ op [left, right] => do
    let left ← valueOf left (lowerExpr false left)
    let right ← valueOf right (lowerExpr false right)
    operator cx op.member left [right]
  | .logic _ op operands => reject (.logicArity op operands.length)
  | .member _ _ name => reject (.memberOutsideCall name)
  | .other p kind => reject (.unsupported (Expr.other p kind).describe)

def lowerValues : List Expr → Lower (List String)
  | [] => return []
  | e :: es => do
    let x ← valueOf e (lowerExpr false e)
    let xs ← lowerValues es
    return x :: xs

end

def expr (e : Expr) : Lower Operand := operandOf e (lowerExpr cx false e)

def value (e : Expr) : Lower String := valueOf e (lowerExpr cx false e)

end Lower
end StackScript
