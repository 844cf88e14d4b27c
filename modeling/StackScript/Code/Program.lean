import StackScript.Code.Instr

namespace StackScript

/-- The first value of a variable; a literal is given as it is written. -/
inductive Init where
  | null
  | literal (text : String)
  | label (id : Nat)
  | addr (a : Nat)
  deriving DecidableEq

structure DataVar where
  name : String
  machineType : String
  init : Init
  deriving DecidableEq

structure Label where
  name : String
  addr : Option Nat
  deriving DecidableEq

/-- A compile unit in the machine's terms. A label is named by its place in `labels`. -/
structure Program where
  exports : List String
  vars : List DataVar
  events : List String
  code : List Instr
  labels : List Label
  deriving DecidableEq

namespace Program

def codeSize (p : Program) : Nat := Code.size p.code

def addresses (p : Program) : List Nat := Code.addressesFrom 0 p.code

end StackScript.Program
