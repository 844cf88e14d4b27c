import StackScript.Code.Instr

namespace StackScript.Block

def pushAll (names : List String) : List Instr := names.map .push

def assign (dst src : String) : List Instr := [.push src, .push dst, .copy]

/-- Moves the top of the stack into a variable: the destination is pushed, and the copy takes the
value beneath it. -/
def popInto (x : String) : List Instr := [.push x, .copy]

def popIntoAll (xs : List String) : List Instr := xs.reverse.flatMap popInto

def invoke (symbol : String) (operands : List String) : List Instr :=
  pushAll operands ++ [.invoke symbol operands.length]

def branchUnless (cond : String) (label : Nat) : List Instr :=
  [.push cond, .jumpIfFalse (.label label)]

def goto (label : Nat) : List Instr := [.jump (.label label)]

def halt : List Instr := [.jump (.addr haltAddress)]

/-- What a caller puts on the stack before it jumps: its own return address, its parameters, the
constant that holds the address to come back to, the arguments. -/
structure Frame where
  returnSlot : String
  env : List String
  returnConst : String
  args : List String
  entry : Nat

def enter (f : Frame) : List Instr :=
  .push f.returnSlot :: pushAll f.env ++ .push f.returnConst :: pushAll f.args ++ goto f.entry

inductive Outcome where
  | none
  | discard
  | into (x : String)

def collect : Outcome → List Instr
  | .none => []
  | .discard => [.pop]
  | .into x => popInto x

/-- The caller's half of a call, after the callee came back: the result, then the parameters from
the last to the first, then the return address. -/
def leave (result : Outcome) (env : List String) (returnSlot : String) : List Instr :=
  collect result ++ popIntoAll env ++ popInto returnSlot

def exit (returnSlot : String) (value : Option String) : List Instr :=
  pushAll value.toList ++ [.jumpIndirect returnSlot]

def ret (returnSlot : String) (value : Option String) : List Instr :=
  popInto returnSlot ++ exit returnSlot value

end StackScript.Block
