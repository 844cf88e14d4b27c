import StackScript.Script.Basic

namespace StackScript

def UnaryOp.text : UnaryOp → String
  | .neg => "-"
  | .not => "not"
  | .pos => "+"
  | .invert => "~"

def BinaryOp.text : BinaryOp → String
  | .add => "+"
  | .sub => "-"
  | .mul => "*"
  | .div => "/"
  | .mod => "%"
  | .floorDiv => "//"
  | .pow => "**"

def CompareOp.text : CompareOp → String
  | .eq => "=="
  | .notEq => "!="
  | .lt => "<"
  | .gt => ">"
  | .ltE => "<="
  | .gtE => ">="
  | .same => "is"
  | .notSame => "is not"
  | .member => "in"
  | .notMember => "not in"

def LogicOp.text : LogicOp → String
  | .and => "and"
  | .or => "or"

def Expr.describe : Expr → String
  | .int _ _ | .float _ _ | .str _ _ | .bool _ _ => "literal"
  | .null _ => "None"
  | .name _ x => "name '" ++ x ++ "'"
  | .member _ _ m => "attribute '." ++ m ++ "'"
  | .subscript _ _ _ => "subscript"
  | .call _ _ _ => "call"
  | .unary _ op _ => "unary operator " ++ op.text
  | .binary _ _ op _ => "binary operator " ++ op.text
  | .compare _ _ _ _ => "comparison"
  | .logic _ op _ => "boolean operator " ++ op.text
  | .other _ k => k ++ " expression"

def Stmt.describe : Stmt → String
  | .define _ n _ _ _ => "definition of '" ++ n ++ "'"
  | .global _ _ => "global declaration"
  | .assign _ _ _ => "assignment"
  | .update _ _ _ _ => "augmented assignment"
  | .branch _ _ _ _ => "if statement"
  | .loop _ _ _ _ => "while statement"
  | .ret _ _ => "return statement"
  | .eval _ _ => "expression statement"
  | .imports _ _ | .importsFrom _ _ _ => "import"
  | .pass _ => "pass"
  | .forLoop _ => "for statement"
  | .breakLoop _ => "break statement"
  | .continueLoop _ => "continue statement"
  | .other _ k => k ++ " statement"

end StackScript
