namespace StackScript

/-- The type of a value. `void` is what a call without a result gives; it has the same name as the
named type `SystemVoid`, and differs from it. -/
inductive Ty where
  | void
  | named (name : String)
  deriving DecidableEq

namespace Ty

def voidName : String := "SystemVoid"

def int32 : Ty := .named "SystemInt32"
def uint32 : Ty := .named "SystemUInt32"
def single : Ty := .named "SystemSingle"
def string : Ty := .named "SystemString"
def boolean : Ty := .named "SystemBoolean"
def object : Ty := .named "SystemObject"

def isVoid : Ty → Bool
  | .void => true
  | .named _ => false

def name : Ty → String
  | .void => voidName
  | .named n => n

def le : Ty → Ty → Bool
  | .void, _ => true
  | .named _, .void => false
  | .named a, .named b => decide (a ≤ b)

def tuple (ts : List Ty) : String := "(" ++ ", ".intercalate (ts.map name) ++ ")"

end StackScript.Ty
