import StackScript.Decimal.Binary64

namespace StackScript

/-- A place in the source text; `0:0` stands for no place. -/
structure Pos where
  line : UInt32
  col : UInt32
  deriving DecidableEq

namespace Pos

def unknown : Pos := ⟨0, 0⟩

def text (p : Pos) : String := toString p.line.toNat ++ ":" ++ toString p.col.toNat

end Pos

inductive UnaryOp where
  | neg
  | not
  | pos
  | invert
  deriving DecidableEq

inductive BinaryOp where
  | add
  | sub
  | mul
  | div
  | mod
  | floorDiv
  | pow
  deriving DecidableEq

inductive CompareOp where
  | eq
  | notEq
  | lt
  | gt
  | ltE
  | gtE
  | same
  | notSame
  | member
  | notMember
  deriving DecidableEq

inductive LogicOp where
  | and
  | or
  deriving DecidableEq

/-- Expressions, each with the place where it stands. `other` is a form that the source language has
and this compiler refuses, by its name. -/
inductive Expr where
  | int (pos : Pos) (value : Int64)
  | float (pos : Pos) (value : Binary64)
  | str (pos : Pos) (value : String)
  | bool (pos : Pos) (value : Bool)
  | null (pos : Pos)
  | name (pos : Pos) (ident : String)
  | member (pos : Pos) (owner : Expr) (name : String)
  | subscript (pos : Pos) (container index : Expr)
  | call (pos : Pos) (callee : Expr) (args : List Expr)
  | unary (pos : Pos) (op : UnaryOp) (operand : Expr)
  | binary (pos : Pos) (left : Expr) (op : BinaryOp) (right : Expr)
  | compare (pos : Pos) (left : Expr) (ops : List CompareOp) (rights : List Expr)
  | logic (pos : Pos) (op : LogicOp) (operands : List Expr)
  | other (pos : Pos) (kind : String)

structure Param where
  name : String
  typeName : Option String
  deriving DecidableEq

inductive Stmt where
  | define (pos : Pos) (name : String) (params : List Param) (returns : Option String)
      (body : List Stmt)
  | global (pos : Pos) (names : List String)
  | assign (pos : Pos) (target value : Expr)
  | update (pos : Pos) (target : Expr) (op : BinaryOp) (value : Expr)
  | branch (pos : Pos) (test : Expr) (body orelse : List Stmt)
  | loop (pos : Pos) (test : Expr) (body orelse : List Stmt)
  | ret (pos : Pos) (value : Option Expr)
  | eval (pos : Pos) (value : Expr)
  | imports (pos : Pos) (names : List String)
  | importsFrom (pos : Pos) (source : Option String) (names : List String)
  | pass (pos : Pos)
  | forLoop (pos : Pos)
  | breakLoop (pos : Pos)
  | continueLoop (pos : Pos)
  | other (pos : Pos) (kind : String)

structure Module where
  body : List Stmt

def Expr.pos : Expr → Pos
  | .int p _ | .float p _ | .str p _ | .bool p _ | .null p | .name p _ | .member p _ _
  | .subscript p _ _ | .call p _ _ | .unary p _ _ | .binary p _ _ _ | .compare p _ _ _
  | .logic p _ _ | .other p _ => p

def Expr.moveTo (p : Pos) : Expr → Expr
  | .int _ v => .int p v
  | .float _ v => .float p v
  | .str _ v => .str p v
  | .bool _ v => .bool p v
  | .null _ => .null p
  | .name _ x => .name p x
  | .member _ e m => .member p e m
  | .subscript _ e i => .subscript p e i
  | .call _ f as => .call p f as
  | .unary _ op e => .unary p op e
  | .binary _ l op r => .binary p l op r
  | .compare _ l ops rs => .compare p l ops rs
  | .logic _ op es => .logic p op es
  | .other _ k => .other p k

def Stmt.pos : Stmt → Pos
  | .define p _ _ _ _ | .global p _ | .assign p _ _ | .update p _ _ _ | .branch p _ _ _
  | .loop p _ _ _ | .ret p _ | .eval p _ | .imports p _ | .importsFrom p _ _ | .pass p
  | .forLoop p | .breakLoop p | .continueLoop p | .other p _ => p

end StackScript
