import StackScript.Json.Tree
import StackScript.Script.ExprJson

namespace StackScript

open Json

namespace Param

def ofJson? : Nat → Json → Option Param
  | 0, _ => none
  | _ + 1, v =>
    match fields ["name", "annotation"] v with
    | some [name, typeName] => do
      return ⟨← name.required text?, ← typeName.orElse none (orNull text?)⟩
    | _ => none

def toJson (p : Param) : Json :=
  .record [("name", .text p.name), ("annotation", nullable .text p.typeName)]

end Param

namespace Stmt

def bare? (p : Pos) : String → Option Stmt
  | "Pass" => some (.pass p)
  | "For" => some (.forLoop p)
  | "Break" => some (.breakLoop p)
  | "Continue" => some (.continueLoop p)
  | _ => none

def simple? (n : Nat) (p : Pos) (tag : String) (v : Json) : Option Stmt :=
  match tag with
  | "Global" => (textList? n v).map (.global p)
  | "Return" => (orNull (Expr.ofJson? n) v).map (.ret p)
  | "Expr" => (Expr.ofJson? n v).map (.eval p)
  | "Import" => (textList? n v).map (.imports p)
  | "Other" => (text? v).map (.other p)
  | _ => if v matches .null then bare? p tag else none

mutual

def ofJson? : Nat → Json → Option Stmt
  | 0, _ => none
  | n + 1, v =>
    match fields ["pos", "kind"] v with
    | some [p, kind] => do
      let p ← p.orElse .unknown (Pos.ofJson? n)
      kind.required (kind? n p)
    | _ => none

def kind? : Nat → Pos → Json → Option Stmt
  | n + 1, p, .obj [(some tag, v)] => body? n p tag v
  | _, p, .str (some tag) => bare? p tag
  | _, _, _ => none

def body? : Nat → Pos → String → Json → Option Stmt
  | 0, p, tag, v => simple? 0 p tag v
  | n + 1, p, tag, v =>
    match tag with
    | "FunctionDef" =>
      match fields ["name", "params", "returns", "body"] v with
      | some [name, params, returns, body] => do
        return .define p (← name.required text?) (← params.required (listOf Param.ofJson? n))
          (← returns.orElse none (orNull text?)) (← body.required (block? n))
      | _ => none
    | "Assign" =>
      match fields ["target", "value"] v with
      | some [target, value] => do
        return .assign p (← target.required (Expr.ofJson? n)) (← value.required (Expr.ofJson? n))
      | _ => none
    | "AugAssign" =>
      match fields ["target", "op", "value"] v with
      | some [target, op, value] => do
        return .update p (← target.required (Expr.ofJson? n)) (← op.required (BinaryOp.ofJson? n))
          (← value.required (Expr.ofJson? n))
      | _ => none
    | "If" =>
      match fields ["test", "body", "orelse"] v with
      | some [test, body, orelse] => do
        return .branch p (← test.required (Expr.ofJson? n)) (← body.required (block? n))
          (← orelse.orElse [] (block? n))
      | _ => none
    | "While" =>
      match fields ["test", "body", "orelse"] v with
      | some [test, body, orelse] => do
        return .loop p (← test.required (Expr.ofJson? n)) (← body.required (block? n))
          (← orelse.orElse [] (block? n))
      | _ => none
    | "ImportFrom" =>
      match fields ["module", "names"] v with
      | some [source, names] => do
        return .importsFrom p (← source.optional text?) (← names.required (textList? n))
      | _ => none
    | _ => simple? (n + 1) p tag v

def block? : Nat → Json → Option (List Stmt)
  | n + 1, .arr items => items.mapM (ofJson? n)
  | _, _ => none

end

mutual

def kindToJson (float : Binary64 → Json) : Stmt → Json
  | .define _ name params returns body =>
    .tagged "FunctionDef" (.record [("name", .text name),
      ("params", .arr (params.map Param.toJson)), ("returns", nullable .text returns),
      ("body", .arr (blockToJson float body))])
  | .global _ names => .tagged "Global" (.texts names)
  | .assign _ target value =>
    .tagged "Assign" (.record [("target", target.toJson float), ("value", value.toJson float)])
  | .update _ target op value =>
    .tagged "AugAssign" (.record [("target", target.toJson float), ("op", tagOf BinaryOp.tags op),
      ("value", value.toJson float)])
  | .branch _ test body orelse =>
    .tagged "If" (.record [("test", test.toJson float), ("body", .arr (blockToJson float body)),
      ("orelse", .arr (blockToJson float orelse))])
  | .loop _ test body orelse =>
    .tagged "While" (.record [("test", test.toJson float), ("body", .arr (blockToJson float body)),
      ("orelse", .arr (blockToJson float orelse))])
  | .ret _ value => .tagged "Return" (nullable (Expr.toJson float) value)
  | .eval _ value => .tagged "Expr" (value.toJson float)
  | .imports _ names => .tagged "Import" (.texts names)
  | .importsFrom _ source names =>
    .tagged "ImportFrom" (.record [("module", nullable .text source), ("names", .texts names)])
  | .pass _ => .text "Pass"
  | .forLoop _ => .text "For"
  | .breakLoop _ => .text "Break"
  | .continueLoop _ => .text "Continue"
  | .other _ k => .tagged "Other" (.text k)

def blockToJson (float : Binary64 → Json) : List Stmt → List Json
  | [] => []
  | s :: ss => node s.pos (kindToJson float s) :: blockToJson float ss

end

def toJson (float : Binary64 → Json) (s : Stmt) : Json := node s.pos (kindToJson float s)

end Stmt

namespace Module

def ofJson? : Nat → Json → Option Module
  | 0, _ => none
  | n + 1, v =>
    match fields ["body"] v with
    | some [body] => (body.required (Stmt.block? n)).map Module.mk
    | _ => none

def parse? (s : String) : Option Module := (Json.parse? s).bind (ofJson? nestingLimit)

def toJson (float : Binary64 → Json) (m : Module) : Json :=
  .record [("body", .arr (Stmt.blockToJson float m.body))]

end Module
end StackScript
