namespace StackScript.Text.Quoted

/-- The letter that stands for `c` behind a backslash, for the five characters that have one. -/
def letter? : Char → Option Char
  | '\\' => some '\\'
  | '"' => some '"'
  | '\n' => some 'n'
  | '\r' => some 'r'
  | '\t' => some 't'
  | _ => none

def escape (c : Char) : List Char :=
  match letter? c with
  | some l => ['\\', l]
  | none => [c]

def encode (s : List Char) : List Char := s.flatMap escape

def quote (s : String) : String := String.ofList ('"' :: encode s.toList ++ ['"'])

end StackScript.Text.Quoted
