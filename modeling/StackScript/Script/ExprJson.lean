import StackScript.Json.Field
import StackScript.Script.Basic

namespace StackScript

open Json

def UnaryOp.tags : List (String × UnaryOp) :=
  [("Neg", .neg), ("Not", .not), ("Pos", .pos), ("Invert", .invert)]

def BinaryOp.tags : List (String × BinaryOp) :=
  [("Add", .add), ("Sub", .sub), ("Mul", .mul), ("Div", .div), ("Mod", .mod),
    ("FloorDiv", .floorDiv), ("Pow", .pow)]

def CompareOp.tags : List (String × CompareOp) :=
  [("Eq", .eq), ("NotEq", .notEq), ("Lt", .lt), ("Gt", .gt), ("LtE", .ltE), ("GtE", .gtE),
    ("Is", .same), ("IsNot", .notSame), ("In", .member), ("NotIn", .notMember)]

def LogicOp.tags : List (String × LogicOp) := [("And", .and), ("Or", .or)]

def UnaryOp.ofJson? : Nat → Json → Option UnaryOp := choice UnaryOp.tags
def BinaryOp.ofJson? : Nat → Json → Option BinaryOp := choice BinaryOp.tags
def CompareOp.ofJson? : Nat → Json → Option CompareOp := choice CompareOp.tags
def LogicOp.ofJson? : Nat → Json → Option LogicOp := choice LogicOp.tags

namespace Pos

def ofJson? : Nat → Json → Option Pos
  | 0, _ => none
  | _ + 1, v =>
    match fields ["line", "col"] v with
    | some [line, col] => do
      let line ← line.required (word? 32)
      let col ← col.required (word? 32)
      return ⟨line.toUInt32, col.toUInt32⟩
    | _ => none

def toJson (p : Pos) : Json := .record [("line", .int p.line.toNat), ("col", .int p.col.toNat)]

end Pos

def node (p : Pos) (kind : Json) : Json := .record [("pos", p.toJson), ("kind", kind)]

def textList? : Nat → Json → Option (List String) := listOf fun _ => text?

namespace Expr

def leaf? (p : Pos) (tag : String) (v : Json) : Option Expr :=
  match tag with
  | "Int" => (int64? v).map (.int p)
  | "Float" => (binary64? v).map (.float p)
  | "Str" => (text? v).map (.str p)
  | "Bool" => (bool? v).map (.bool p)
  | "NoneLit" => if v matches .null then some (.null p) else none
  | "Name" => (text? v).map (.name p)
  | "Other" => (text? v).map (.other p)
  | _ => none

mutual

/-- Reads an expression. The number bounds how deep objects and arrays may still nest, so it
decreases with every bracket. -/
def ofJson? : Nat → Json → Option Expr
  | 0, _ => none
  | n + 1, v =>
    match fields ["pos", "kind"] v with
    | some [p, kind] => do
      let p ← p.orElse .unknown (Pos.ofJson? n)
      kind.required (kind? n p)
    | _ => none

def kind? : Nat → Pos → Json → Option Expr
  | n + 1, p, .obj [(some tag, v)] => body? n p tag v
  | _, p, .str (some "NoneLit") => some (.null p)
  | _, _, _ => none

def body? : Nat → Pos → String → Json → Option Expr
  | 0, p, tag, v => leaf? p tag v
  | n + 1, p, tag, v =>
    match tag with
    | "Attribute" =>
      match fields ["value", "attr"] v with
      | some [owner, attr] => do
        return .member p (← owner.required (ofJson? n)) (← attr.required text?)
      | _ => none
    | "Subscript" =>
      match fields ["value", "index"] v with
      | some [container, index] => do
        return .subscript p (← container.required (ofJson? n)) (← index.required (ofJson? n))
      | _ => none
    | "Call" =>
      match fields ["func", "args"] v with
      | some [callee, args] => do
        return .call p (← callee.required (ofJson? n)) (← args.required (list? n))
      | _ => none
    | "UnaryOp" =>
      match fields ["op", "operand"] v with
      | some [op, operand] => do
        return .unary p (← op.required (UnaryOp.ofJson? n)) (← operand.required (ofJson? n))
      | _ => none
    | "BinOp" =>
      match fields ["left", "op", "right"] v with
      | some [left, op, right] => do
        return .binary p (← left.required (ofJson? n)) (← op.required (BinaryOp.ofJson? n))
          (← right.required (ofJson? n))
      | _ => none
    | "Compare" =>
      match fields ["left", "ops", "comparators"] v with
      | some [left, ops, rights] => do
        return .compare p (← left.required (ofJson? n))
          (← ops.required (listOf CompareOp.ofJson? n)) (← rights.required (list? n))
      | _ => none
    | "BoolOp" =>
      match fields ["op", "values"] v with
      | some [op, operands] => do
        return .logic p (← op.required (LogicOp.ofJson? n)) (← operands.required (list? n))
      | _ => none
    | _ => leaf? p tag v

def list? : Nat → Json → Option (List Expr)
  | n + 1, .arr items => items.mapM (ofJson? n)
  | _, _ => none

end

mutual

/-- The kind of an expression. Every field is written; `float` writes the literals that are
doubles. -/
def kindToJson (float : Binary64 → Json) : Expr → Json
  | .int _ n => .tagged "Int" (.int n.toInt)
  | .float _ x => .tagged "Float" (float x)
  | .str _ s => .tagged "Str" (.text s)
  | .bool _ b => .tagged "Bool" (.bool b)
  | .null _ => .text "NoneLit"
  | .name _ x => .tagged "Name" (.text x)
  | .member _ e m =>
    .tagged "Attribute" (.record [("value", node e.pos (kindToJson float e)), ("attr", .text m)])
  | .subscript _ e i =>
    .tagged "Subscript" (.record [("value", node e.pos (kindToJson float e)),
      ("index", node i.pos (kindToJson float i))])
  | .call _ f as =>
    .tagged "Call" (.record [("func", node f.pos (kindToJson float f)),
      ("args", .arr (listToJson float as))])
  | .unary _ op e =>
    .tagged "UnaryOp" (.record [("op", tagOf UnaryOp.tags op),
      ("operand", node e.pos (kindToJson float e))])
  | .binary _ l op r =>
    .tagged "BinOp" (.record [("left", node l.pos (kindToJson float l)),
      ("op", tagOf BinaryOp.tags op), ("right", node r.pos (kindToJson float r))])
  | .compare _ l ops rs =>
    .tagged "Compare" (.record [("left", node l.pos (kindToJson float l)),
      ("ops", .arr (ops.map (tagOf CompareOp.tags))), ("comparators", .arr (listToJson float rs))])
  | .logic _ op es =>
    .tagged "BoolOp" (.record [("op", tagOf LogicOp.tags op),
      ("values", .arr (listToJson float es))])
  | .other _ k => .tagged "Other" (.text k)

def listToJson (float : Binary64 → Json) : List Expr → List Json
  | [] => []
  | e :: es => node e.pos (kindToJson float e) :: listToJson float es

end

def toJson (float : Binary64 → Json) (e : Expr) : Json := node e.pos (kindToJson float e)

end Expr
end StackScript
