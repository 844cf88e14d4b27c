import StackScript.Script.Basic

namespace StackScript

def UnaryOp.member? : UnaryOp → Option String
  | .neg => some "op_UnaryMinus"
  | .not => some "op_UnaryNegation"
  | .pos | .invert => none

def BinaryOp.member? : BinaryOp → Option String
  | .add => some "op_Addition"
  | .sub => some "op_Subtraction"
  | .mul => some "op_Multiplication"
  | .div => some "op_Division"
  | .mod => some "op_Modulus"
  | .floorDiv | .pow => none

def CompareOp.member? : CompareOp → Option String
  | .eq => some "op_Equality"
  | .notEq => some "op_Inequality"
  | .lt => some "op_LessThan"
  | .gt => some "op_GreaterThan"
  | .ltE => some "op_LessThanOrEqual"
  | .gtE => some "op_GreaterThanOrEqual"
  | .same | .notSame | .member | .notMember => none

def LogicOp.member : LogicOp → String
  | .and => "op_LogicalAnd"
  | .or => "op_LogicalOr"

end StackScript
