import StackScript.Catalog.Basic
import StackScript.Decimal.Shortest
import StackScript.Proofs.Machine
import StackScript.Script.Basic

namespace StackScript

/-- An expression in which everything is resolved. Arguments are evaluated in their order, a
receiver after them. -/
inductive Term where
  | const (init : Init)
  | var (x : String)
  | host (symbol : String) (args : List Term)
  | method (symbol : String) (args : List Term) (receiver : Term)

inductive Cmd where
  | skip
  | assign (x : String) (t : Term)
  | run (t : Term)
  | seq (a b : Cmd)
  | ite (test : Term) (a b : Cmd)
  | loop (test : Term) (body : Cmd)
  | stop

section

variable {D H : Type} (E : Host D H) (I : Init → Value D)

mutual

def Term.eval : Term → Store D → H → Value D × H
  | .const init, _, h => (I init, h)
  | .var x, σ, h => (σ x, h)
  | .host symbol args, σ, h =>
    let (vs, h) := Term.evalAll args σ h
    E.call symbol vs h
  | .method symbol args receiver, σ, h =>
    let (vs, h) := Term.evalAll args σ h
    let (v, h) := Term.eval receiver σ h
    E.call symbol (v :: vs) h

def Term.evalAll : List Term → Store D → H → List (Value D) × H
  | [], _, h => ([], h)
  | t :: ts, σ, h =>
    let (v, h) := Term.eval t σ h
    let (vs, h) := Term.evalAll ts σ h
    (v :: vs, h)

end

abbrev Cmd.Result (D H : Type) := Bool × Store D × H

/-- So many turns of a loop at most; no result if they do not suffice. -/
def Cmd.turns (test : Store D → H → Value D × H) (body : Store D → H → Option (Cmd.Result D H)) :
    Nat → Store D → H → Option (Cmd.Result D H)
  | 0, _, _ => none
  | n + 1, σ, h =>
    let (v, h) := test σ h
    if v.isFalse then some (false, σ, h)
    else match body σ h with
      | some (false, σ, h) => Cmd.turns test body n σ h
      | r => r

/-- The run of a command in which no loop takes more than `n` turns. -/
def Cmd.exec (n : Nat) : Cmd → Store D → H → Option (Cmd.Result D H)
  | .skip, σ, h => some (false, σ, h)
  | .assign x t, σ, h =>
    let (v, h) := t.eval E I σ h
    some (false, Function.update σ x v, h)
  | .run t, σ, h => some (false, σ, (t.eval E I σ h).2)
  | .seq a b, σ, h =>
    match a.exec n σ h with
    | some (false, σ, h) => b.exec n σ h
    | r => r
  | .ite test a b, σ, h =>
    let (v, h) := test.eval E I σ h
    if v.isFalse then b.exec n σ h else a.exec n σ h
  | .loop test body, σ, h => Cmd.turns (test.eval E I) (body.exec n) n σ h
  | .stop, σ, h => some (true, σ, h)

end

/-- The types of the names that are known at a place of a script. -/
abbrev Typing := String → Option Ty

/-- The variable that an identifier of an event means: one of the event's own, if there is one. -/
def Typing.locate (Γ : Typing) (event ident : String) : String :=
  if (Γ (event ++ "__" ++ ident)).isSome then event ++ "__" ++ ident else ident

inductive Operator where
  | unary (op : UnaryOp)
  | binary (op : BinaryOp)
  | compare (op : CompareOp)
  | logic (op : LogicOp)
  deriving DecidableEq

namespace Operator

def table : List (Operator × String) :=
  [(.binary .add, "op_Addition"), (.binary .sub, "op_Subtraction"),
    (.binary .mul, "op_Multiplication"), (.binary .div, "op_Division"),
    (.binary .mod, "op_Modulus"), (.compare .eq, "op_Equality"),
    (.compare .notEq, "op_Inequality"), (.compare .lt, "op_LessThan"),
    (.compare .gt, "op_GreaterThan"), (.compare .ltE, "op_LessThanOrEqual"),
    (.compare .gtE, "op_GreaterThanOrEqual"), (.logic .and, "op_LogicalAnd"),
    (.logic .or, "op_LogicalOr"), (.unary .neg, "op_UnaryMinus"),
    (.unary .not, "op_UnaryNegation")]

def host? (op : Operator) : Option String := table.lookup op

end Operator

/-- What an expression stands for: a value of a type, a type, or an effect without a value. -/
inductive Meaning where
  | value (t : Term) (ty : Ty)
  | type (ty : Ty)
  | effect (t : Term)

namespace Meaning

def value? : Meaning → Option (Term × Ty)
  | .value t ty => some (t, ty)
  | _ => none

def command : Meaning → Cmd
  | .value t _ | .effect t => .run t
  | .type _ => .skip

def ofMember (m : Method) (t : Term) : Meaning :=
  if m.ret.isVoid then .effect t else .value t m.ret

def constant (ty text : String) : Meaning := .value (.const (.literal text)) (.named ty)

def integer (n : Int) : Option Meaning :=
  if -2147483648 ≤ n ∧ n ≤ 2147483647 then some (constant "SystemInt32" (toString n)) else none

def escaped : Char → String
  | '\\' => "\\\\"
  | '"' => "\\\""
  | '\n' => "\\n"
  | '\r' => "\\r"
  | '\t' => "\\t"
  | c => c.toString

def string (s : String) : Meaning :=
  constant "SystemString" ("\"" ++ String.join (s.toList.map escaped) ++ "\"")

variable (c : Catalog)

/-- An operator is a static member of the type of its left operand. -/
def operator (op : Operator) (left : Term × Ty) (rest : List (Term × Ty)) : Option Meaning := do
  let m ← c.method? .static left.2.name (← op.host?) (left.2 :: rest.map Prod.snd)
  return ofMember m (.host m.symbol (left.1 :: rest.map Prod.fst))

/-- A static member of a type, or a constructor if there is none. -/
def static (owner member : String) (args : List (Term × Ty)) : Option Meaning := do
  let m ← (c.method? .static owner member (args.map Prod.snd)).or
    (c.method? .ctor owner member (args.map Prod.snd))
  return ofMember m (.host m.symbol (args.map Prod.fst))

/-- A member of something that is evaluated before the arguments. -/
def item (receiver : Term × Ty) (member : String) (args : List (Term × Ty)) : Option Meaning := do
  let m ← c.method? .method receiver.2.name member (args.map Prod.snd)
  return ofMember m (.host m.symbol (receiver.1 :: args.map Prod.fst))

/-- A member of something that is evaluated after the arguments. -/
def method (receiver : Term × Ty) (member : String) (args : List (Term × Ty)) :
    Option Meaning := do
  let m ← c.method? .method receiver.2.name member (args.map Prod.snd)
  return ofMember m (.method m.symbol (args.map Prod.fst) receiver.1)

/-- `name(args)` without functions of the script: the built-in `instantiate`, or a conversion, which
keeps the value. -/
def call (name : String) (args : List (Term × Ty)) : Option Meaning :=
  if name = "instantiate" then
    if args.length = 1 then static c "VRCInstantiate" "Instantiate" args else none
  else if c.isType name then
    match args with
    | [a] => some (.value a.1 (.named name))
    | _ => none
  else none

def boolean (b : Bool) : Option Meaning := do
  let m ← c.method? .static "SystemBoolean" "Parse" [.named "SystemString"]
  let text := if b then "\"true\"" else "\"false\""
  return .value (.host m.symbol [.const (.literal text)]) (.named "SystemBoolean")

variable (event : String) (Γ : Typing)

def name (ident : String) : Option Meaning :=
  match Γ (Γ.locate event ident) with
  | some ty => some (.value (.var (Γ.locate event ident)) ty)
  | none => if c.isType ident then some (.type (.named ident)) else none

def owner? : Expr → Option String
  | .name _ ident => if (Γ (Γ.locate event ident)).isSome then none else some ident
  | _ => none

/-- An assignment to a name. The first one makes it known, and settles its type. -/
def assign (ident : String) : Meaning → Option (Cmd × Typing)
  | .value t ty =>
    let x := Γ.locate event ident
    match Γ x with
    | none => some (.assign x t, Function.update Γ x (some ty))
    | some ty' => if ty' = ty then some (.assign x t, Γ) else none
  | .type ty =>
    let x := Γ.locate event ident
    if (Γ x).isSome then none else some (.skip, Function.update Γ x (some ty))
  | .effect _ => none

end Meaning

namespace Expr

variable (c : Catalog) (event : String) (Γ : Typing)

mutual

def meaning : Expr → Option Meaning
  | .int _ n => Meaning.integer n.toInt
  | .float _ x => some (Meaning.constant "SystemSingle" x.text)
  | .str _ s => some (Meaning.string s)
  | .null _ => some (.value (.const .null) (.named "SystemObject"))
  | .bool _ b => Meaning.boolean c b
  | .name _ ident => Meaning.name c event Γ ident
  | .call _ (.member _ owner key) args => do
    let args ← values args
    match Meaning.owner? event Γ owner with
    | some ident => Meaning.static c ident key args
    | none => Meaning.method c (← (meaning owner).bind Meaning.value?) key args
  | .call _ (.name _ ident) args => do Meaning.call c ident (← values args)
  | .call _ _ _ => none
  | .subscript _ container index => do
    let receiver ← (meaning container).bind Meaning.value?
    let index ← (meaning index).bind Meaning.value?
    Meaning.item c receiver "Get" [index]
  | .unary _ op operand => do
    Meaning.operator c (.unary op) (← (meaning operand).bind Meaning.value?) []
  | .binary _ left op right => do
    let left ← (meaning left).bind Meaning.value?
    let right ← (meaning right).bind Meaning.value?
    Meaning.operator c (.binary op) left [right]
  | .compare _ left [op] [right] => do
    let left ← (meaning left).bind Meaning.value?
    let right ← (meaning right).bind Meaning.value?
    Meaning.operator c (.compare op) left [right]
  | .logic _ op [left, right] => do
    let left ← (meaning left).bind Meaning.value?
    let right ← (meaning right).bind Meaning.value?
    Meaning.operator c (.logic op) left [right]
  | _ => none

def values : List Expr → Option (List (Term × Ty))
  | [] => some []
  | e :: es => do
    let v ← (meaning e).bind Meaning.value?
    return v :: (← values es)

end

def value (e : Expr) : Option (Term × Ty) := (e.meaning c event Γ).bind Meaning.value?

def condition (e : Expr) : Option Term :=
  (e.value c event Γ).bind fun (t, ty) => if ty = .named "SystemBoolean" then some t else none

end Expr

namespace Stmt

variable (c : Catalog) (event : String)

def assignment (target e : Expr) (Γ : Typing) : Option (Cmd × Typing) :=
  match target with
  | .name _ ident => (e.meaning c event Γ).bind (Meaning.assign event Γ ident)
  | .subscript _ container index => do
    let receiver ← container.value c event Γ
    let index ← index.value c event Γ
    let item ← e.value c event Γ
    return ((← Meaning.item c receiver "Set" [index, item]).command, Γ)
  | _ => none

mutual

def meaning : Stmt → Typing → Option (Cmd × Typing)
  | .assign _ target e, Γ => assignment c event target e Γ
  | .update _ target op e, Γ => assignment c event target (.binary target.pos target op e) Γ
  | .branch _ test body orelse, Γ => do
    let t ← test.condition c event Γ
    let (a, Γ) ← meaningAll body Γ
    let (b, Γ) ← meaningAll orelse Γ
    return (.ite t a b, Γ)
  | .loop _ test body [], Γ => do
    let t ← test.condition c event Γ
    let (a, Γ) ← meaningAll body Γ
    return (.loop t a, Γ)
  | .ret _ none, Γ => some (.stop, Γ)
  | .eval _ e, Γ => (e.meaning c event Γ).map fun m => (m.command, Γ)
  | .global _ _, Γ | .imports _ _, Γ | .importsFrom _ _ _, Γ | .pass _, Γ => some (.skip, Γ)
  | _, _ => none

def meaningAll : List Stmt → Typing → Option (Cmd × Typing)
  | [], Γ => some (.skip, Γ)
  | st :: ss, Γ => do
    let (a, Γ) ← meaning st Γ
    let (b, Γ) ← meaningAll ss Γ
    return (.seq a b, Γ)

end

end Stmt
end StackScript
