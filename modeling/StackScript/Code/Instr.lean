namespace StackScript

/-- Where a jump goes: an address, or a label that still has to be resolved. -/
inductive Target where
  | addr (a : Nat)
  | label (id : Nat)
  deriving DecidableEq

/-- Instructions of the stack machine. `invoke` calls a host operation, which takes `arity` operands
off the stack: the inputs and then the slot of the result, if there is one. -/
inductive Instr where
  | pop
  | copy
  | push (name : String)
  | pushAddr (a : Nat)
  | jump (t : Target)
  | jumpIfFalse (t : Target)
  | jumpIndirect (name : String)
  | invoke (symbol : String) (arity : Nat)
  | eventHead (name : String)
  deriving DecidableEq

def haltAddress : Nat := 0xFFFFFF

namespace Instr

def width : Instr → Nat
  | .pop | .copy => 1
  | .push _ | .pushAddr _ | .jump _ | .jumpIfFalse _ | .jumpIndirect _ | .invoke _ _ => 5
  | .eventHead _ => 0

def effect : Instr → Nat × Nat
  | .push _ | .pushAddr _ => (0, 1)
  | .pop | .jumpIfFalse _ => (1, 0)
  | .copy => (2, 0)
  | .invoke _ arity => (arity, 0)
  | .jump _ | .jumpIndirect _ | .eventHead _ => (0, 0)

def target? : Instr → Option Target
  | .jump t | .jumpIfFalse t => some t
  | _ => none

end Instr

namespace Code

def size : List Instr → Nat
  | [] => 0
  | i :: is => i.width + size is

def addressesFrom (start : Nat) : List Instr → List Nat
  | [] => []
  | i :: is => start :: addressesFrom (start + i.width) is

/-- The change of the stack's height along a straight run. Counts are words of 64 bits, read with
their sign. -/
def netEffect : List Instr → Int
  | [] => 0
  | i :: is => Int.bmod i.effect.2 UInt64.size - Int.bmod i.effect.1 UInt64.size + netEffect is

end Code
end StackScript
