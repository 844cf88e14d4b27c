import StackScript.Script.Basic

namespace StackScript.Build

def member (owner : Expr) (name : String) : Expr := .member owner.pos owner name

def subscript (container index : Expr) : Expr := .subscript container.pos container index

def call (callee : Expr) (args : List Expr) : Expr := .call callee.pos callee args

def method (owner : Expr) (name : String) (args : List Expr) : Expr :=
  call (member owner name) args

def unary (op : UnaryOp) (operand : Expr) : Expr := .unary operand.pos op operand

def binary (left : Expr) (op : BinaryOp) (right : Expr) : Expr := .binary left.pos left op right

def compare (left : Expr) (op : CompareOp) (right : Expr) : Expr :=
  .compare left.pos left [op] [right]

def logic (op : LogicOp) (operands : List Expr) : Expr :=
  .logic ((operands.head?.map Expr.pos).getD .unknown) op operands

def assign (target value : Expr) : Stmt := .assign target.pos target value

def update (target : Expr) (op : BinaryOp) (value : Expr) : Stmt :=
  .update target.pos target op value

def eval (value : Expr) : Stmt := .eval value.pos value

def branch (test : Expr) (body orelse : List Stmt) : Stmt := .branch test.pos test body orelse

def loop (test : Expr) (body : List Stmt) : Stmt := .loop test.pos test body []

def ret (value : Option Expr) : Stmt := .ret ((value.map Expr.pos).getD .unknown) value

def global (names : List String) : Stmt := .global .unknown names

def define (name : String) (params : List (String × String)) (returns : Option String)
    (body : List Stmt) : Stmt :=
  .define .unknown name (params.map fun (n, t) => ⟨n, some t⟩) returns body

end StackScript.Build
