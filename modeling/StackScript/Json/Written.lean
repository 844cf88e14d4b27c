import StackScript.Json.Token
import StackScript.Text.Hex

namespace StackScript.Json

def escape (c : Char) : List Char :=
  if c = '"' then ['\\', '"']
  else if c = '\\' then ['\\', '\\']
  else if c < ' ' then '\\' :: 'u' :: (StackScript.Text.hex 4 c.toNat).toList
  else [c]

/-- A text with its quotes. A literal without a text is written as one half of a pair. -/
def quoted : Text → List Char
  | some s => '"' :: s.toList.flatMap escape ++ ['"']
  | none => "\"\\ud800\"".toList

namespace Number

def written (n : Number) : List Char :=
  let digits := Nat.toDigits 10 n.whole
  let point := if n.fraction.isEmpty then [] else '.' :: n.fraction.map Nat.digitChar
  let power := match n.exponent with
    | none => []
    | some e => 'e' :: (toString e).toList
  (if n.negative then ['-'] else []) ++ digits ++ point ++ power

end Number

namespace Token

def written : Token → List Char
  | .openObject => ['\x7b']
  | .closeObject => ['\x7d']
  | .openArray => ['[']
  | .closeArray => [']']
  | .colon => [':']
  | .comma => [',']
  | .null => "null".toList
  | .bool true => "true".toList
  | .bool false => "false".toList
  | .num n => n.written
  | .str s => quoted s

end Token

mutual

def tokens : Json → List Token
  | .null => [.null]
  | .bool b => [.bool b]
  | .num n => [.num n]
  | .str s => [.str s]
  | .arr [] => [.openArray, .closeArray]
  | .arr (v :: vs) => .openArray :: (tokens v ++ itemTokens vs)
  | .obj [] => [.openObject, .closeObject]
  | .obj ((k, v) :: ms) => .openObject :: .str k :: .colon :: (tokens v ++ memberTokens ms)

def itemTokens : List Json → List Token
  | [] => [.closeArray]
  | v :: vs => .comma :: (tokens v ++ itemTokens vs)

def memberTokens : List (Text × Json) → List Token
  | [] => [.closeObject]
  | (k, v) :: ms => .comma :: .str k :: .colon :: (tokens v ++ memberTokens ms)

end

def render (v : Json) : String := String.ofList (v.tokens.flatMap Token.written)

end StackScript.Json
