import StackScript.Diagnostic.Basic
import StackScript.Script.Describe

namespace StackScript.Diagnostic

def alreadyDeclared (name : String) : Diagnostic := of (.declaration name "already declared")

def voidVariable (name : String) : Diagnostic :=
  (of (.declaration name "a variable cannot have the void type")).withHint
    "the right-hand side produces no value"

def boundTwice (label : String) : Diagnostic := of (.declaration label "label is bound twice")

def functionTwice (name : String) (types : List Ty) : Diagnostic :=
  of (.declaration name ("function with arguments " ++ Ty.tuple types ++ " is defined twice"))

def eventTwice (name : String) : Diagnostic := of (.declaration name "event is defined twice")

def untypedParam (param : String) : Diagnostic :=
  (of (.declaration param "parameter has no type annotation")).withHint
    ("write `" ++ param ++ ": SystemInt32` or another type")

def voidParam (param : String) : Diagnostic :=
  of (.declaration param "a parameter cannot have the void type")

def unknownVariable (name : String) : Diagnostic := of (.undefined .var name)

def unknownName (name : String) : Diagnostic :=
  (unknownVariable name).withHint "variables are declared by their first assignment"

def unassignedGlobal (name : String) : Diagnostic :=
  (unknownVariable name).withHint "a `global` name must be assigned somewhere in the script"

def unknownType (name : String) : Diagnostic := of (.undefined .type name)

def unknownFunction (id : String) : Diagnostic := of (.undefined .function id)

def noOverload (name : String) (types : List Ty) : Diagnostic :=
  (unknownFunction (name ++ Ty.tuple types)).withHint
    "argument types must match a definition exactly"

def noMember (kind : MemberKind) (owner name : String) (args : List Ty) : Diagnostic :=
  of (.noMember kind owner name args)

def unresolvedLabel (name : String) : Diagnostic := of (.unresolvedLabel name)

def eventReturns (name : String) (ret : Ty) : Diagnostic :=
  of (.typeMismatch ("event '" ++ name ++ "' cannot return " ++ ret.name))

def eventArity (name : String) (required declared : Nat) : Diagnostic :=
  of (.typeMismatch ("event '" ++ name ++ "' takes " ++ toString required ++ " arguments, " ++
    toString declared ++ " declared"))

def eventArgument (event : String) (slot : Slot) (found : Ty) : Diagnostic :=
  of (.typeMismatch ("argument '" ++ slot.name ++ "' of event '" ++ event ++ "' must be " ++
    slot.ty ++ ", found " ++ found.name))

def customEventArguments (name : String) : Diagnostic :=
  (of (.typeMismatch ("custom event '" ++ name ++ "' cannot take arguments"))).withHint
    "only events known to the catalog receive arguments from the VM"

def assignsNothing (name : String) : Diagnostic :=
  of (.typeMismatch ("cannot assign a call without a result to '" ++ name ++ "'"))

def assignsOther (name : String) (found declared : Ty) : Diagnostic :=
  (of (.typeMismatch ("cannot assign " ++ found.name ++ " to '" ++ name ++ "' of type " ++
    declared.name))).withHint ("convert explicitly, e.g. `" ++ declared.name ++ "(...)`")

def conditionType (found : Ty) : Diagnostic :=
  of (.typeMismatch ("condition must be SystemBoolean, found " ++ found.name))

def eventReturnsValue : Diagnostic := of (.typeMismatch "an event cannot return a value")

def noReturnValue (ret : Ty) : Diagnostic :=
  of (.typeMismatch ("missing return value of type " ++ ret.name))

def voidReturnsValue : Diagnostic :=
  (of (.typeMismatch "a function without a return type cannot return a value")).withHint
    "annotate the function with `-> <type>`"

def returnType (ret found : Ty) : Diagnostic :=
  of (.typeMismatch ("expected return value of type " ++ ret.name ++ ", found " ++ found.name))

def noValue (e : Expr) : Diagnostic := of (.typeMismatch (e.describe ++ " produces no value"))

def typeAsValue (ty : Ty) : Diagnostic :=
  (of (.typeMismatch ("type " ++ ty.name ++ " cannot be used as a value"))).withHint
    ("to convert a value write `" ++ ty.name ++ "(value)`")

def unsupported (what : String) : Diagnostic := of (.unsupported what)

def loopElse : Diagnostic := unsupported "`else` clause on a while loop"

def nestedDefinition (name : String) : Diagnostic :=
  unsupported ("nested definition of '" ++ name ++ "'")

def assignmentTo (target : Expr) : Diagnostic := unsupported ("assignment to " ++ target.describe)

def returnOutside : Diagnostic := unsupported "return outside of a function"

def callOf (callee : Expr) : Diagnostic := unsupported ("call of " ++ callee.describe)

def comparison (op : CompareOp) : Diagnostic :=
  unsupported ("comparison operator `" ++ op.text ++ "`")

def memberOutsideCall (name : String) : Diagnostic :=
  (unsupported ("attribute access `." ++ name ++ "` outside of a call")).withHint
    ("use the accessor method, e.g. `.get_" ++ name ++ "()`")

def malformed (text : String) : Diagnostic := of (.malformed text)

def intRange (n : Int) : Diagnostic :=
  malformed ("integer literal " ++ toString n ++ " does not fit SystemInt32")

def chainedComparison : Diagnostic :=
  (malformed "comparisons cannot be chained").withHint
    "write `0 <= x < 100` as `(0 <= x) and (x < 100)`"

def logicArity (op : LogicOp) (found : Nat) : Diagnostic :=
  (malformed ("`" ++ op.text ++ "` takes exactly two operands, found " ++ toString found)).withHint
    ("parenthesize: `(a " ++ op.text ++ " b) " ++ op.text ++ " c`")

def instantiateArity (found : Nat) : Diagnostic :=
  malformed ("instantiate takes exactly one argument, found " ++ toString found)

def castArity (name : String) (found : Nat) : Diagnostic :=
  malformed ("a cast to " ++ name ++ " takes exactly one argument, found " ++ toString found)

end StackScript.Diagnostic
