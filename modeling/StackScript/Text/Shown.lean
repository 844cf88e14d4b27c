import StackScript.Text.Unseen

namespace StackScript.Text

def isPlain (c : Char) : Bool :=
  if c.toNat < 0x7F then ' ' ≤ c else !unseen.any fun (low, high) => low ≤ c.toNat && c.toNat ≤ high

def shownChar (c : Char) : List Char :=
  match c with
  | '\x00' => ['\\', '0']
  | '\t' => ['\\', 't']
  | '\r' => ['\\', 'r']
  | '\n' => ['\\', 'n']
  | '"' => ['\\', '"']
  | '\\' => ['\\', '\\']
  | c => if isPlain c then [c] else '\\' :: 'u' :: '\x7b' :: Nat.toDigits 16 c.toNat ++ ['\x7d']

def shown (s : String) : String := String.ofList ('"' :: s.toList.flatMap shownChar ++ ['"'])

end StackScript.Text
