import StackScript.Lowering.Expr

namespace StackScript.Lower

variable (cx : Context)

/-- Assigns to a name. The first assignment declares it; a type declares it without a value. -/
def assignName (name : String) (e : Expr) : Lower Unit := do
  let src ← expr cx e
  let dst ← resolve cx name
  match src with
  | .nothing =>
    if ← contains dst then reject (.assignsNothing name) else declare dst .void .null
  | .type ty => declare dst ty .null
  | .var src =>
    let ty ← typeOf cx src
    match (← get).vars.check dst ty with
    | .unknown => declare dst ty .null
    | .agrees => pure ()
    | .differs => reject (.assignsOther name ty (← typeOf cx dst))
    emit (Block.assign dst src)

def assign (target e : Expr) : Lower Unit :=
  match target with
  | .name _ name => assignName cx name e
  | .subscript p container index => do
    let receiver ← value cx container
    let index ← value cx index
    let item ← value cx e
    let _ ← located p (methodCall cx receiver "Set" [index, item])
  | _ => located target.pos (reject (.assignmentTo target))

/-- A literal that a new name gets outside of all definitions becomes the variable's first value.
The answer is whether it did. -/
def dataInit (target e : Expr) : Lower Bool :=
  match target with
  | .name _ name => do
    if ← contains name then return false
    else match ← accept e.literal? with
      | none => return false
      | some (ty, init) =>
        declare name ty init
        return true
  | _ => return false

def condition (test : Expr) : Lower String := do
  let var ← value cx test
  let ty ← typeOf cx var
  if ty = .boolean then return var else located test.pos (reject (.conditionType ty))

/-- Leaves a function with a value: the return address is taken off the stack first. -/
def returnValue (ret : Ty) (e : Expr) : Lower Unit := do
  emit (Block.popInto Names.returnAddress)
  let var ← value cx e
  let ty ← typeOf cx var
  if ty = ret then emit (Block.exit Names.returnAddress (some var))
  else located e.pos (reject (.returnType ret ty))

def lowerReturn (e : Option Expr) : Lower Unit :=
  match cx.scope.place, e with
  | .event, some _ => reject .eventReturnsValue
  | .event, none => emit Block.halt
  | .module, _ => reject .returnOutside
  | .function ret, none =>
    if ret.isVoid then emit (Block.ret Names.returnAddress none) else reject (.noReturnValue ret)
  | .function ret, some e => if ret.isVoid then reject .voidReturnsValue else returnValue cx ret e

def effects (e : Expr) : Lower Unit := do
  match e with
  | .call p _ _ => let _ ← located p (lowerExpr cx true e)
  | _ => let _ ← expr cx e

def noted (s : Stmt) (step : Lower Unit) : Lower Unit := do
  note (.statement s.pos s.describe)
  step

mutual

def lowerStmt : Stmt → Lower Unit
  | .assign _ target e => assign cx target e
  | .update _ target op e => assign cx target (.binary target.pos target op e)
  | .branch _ test body orelse => do
    let elseLabel ← freshLabel "else_label"
    let endLabel ← freshLabel "if_end_label"
    let cond ← condition cx test
    emit (Block.branchUnless cond elseLabel)
    block body
    emit (Block.goto endLabel)
    bindLabel elseLabel
    block orelse
    bindLabel endLabel
  | .loop _ test body orelse =>
    if orelse.isEmpty then do
      let top ← freshLabel "while_label"
      let endLabel ← freshLabel "while_end_label"
      bindLabel top
      let cond ← condition cx test
      emit (Block.branchUnless cond endLabel)
      block body
      emit (Block.goto top)
      bindLabel endLabel
    else reject .loopElse
  | .ret _ e => lowerReturn cx e
  | .eval _ e => effects cx e
  | .global _ names => modify fun s => { s with vars := names.foldl Variables.markExported s.vars }
  | .imports _ _ | .importsFrom _ _ _ | .pass _ => return
  | .define _ name _ _ _ => reject (.nestedDefinition name)
  | .forLoop p => reject (.unsupported (Stmt.forLoop p).describe)
  | .breakLoop p => reject (.unsupported (Stmt.breakLoop p).describe)
  | .continueLoop p => reject (.unsupported (Stmt.continueLoop p).describe)
  | .other p kind => reject (.unsupported (Stmt.other p kind).describe)

def block : List Stmt → Lower Unit
  | [] => return
  | s :: ss => do
    located s.pos (noted s (lowerStmt s))
    block ss

end

def stmt (s : Stmt) : Lower Unit := noted s (lowerStmt cx s)

end StackScript.Lower
