import StackScript.Json.Basic

namespace StackScript.Json

inductive Token where
  | openObject
  | closeObject
  | openArray
  | closeArray
  | colon
  | comma
  | null
  | bool (b : Bool)
  | num (n : Number)
  | str (s : Text)
  deriving DecidableEq

/-- What a string literal has spelled so far, last character first. `high` is the first half of a
surrogate pair that waits for its second; `sound` falls for good when a half stays alone. -/
structure Spelling where
  chars : List Char
  high : Option Nat
  sound : Bool
  deriving DecidableEq

namespace Spelling

def empty : Spelling := ⟨[], none, true⟩

def char (s : Spelling) (c : Char) : Spelling := ⟨c :: s.chars, none, s.sound && s.high.isNone⟩

def unit (s : Spelling) (n : Nat) : Spelling :=
  match s.high with
  | some h =>
    if 0xDC00 ≤ n ∧ n < 0xE000 then
      ⟨Char.ofNat (0x10000 + (h - 0xD800) * 0x400 + (n - 0xDC00)) :: s.chars, none, s.sound⟩
    else ⟨s.chars, none, false⟩
  | none =>
    if 0xD800 ≤ n ∧ n < 0xDC00 then { s with high := some n }
    else if 0xDC00 ≤ n ∧ n < 0xE000 then { s with sound := false }
    else s.char (Char.ofNat n)

def text (s : Spelling) : Text :=
  if s.sound && s.high.isNone then some (String.ofList s.chars.reverse) else none

end Spelling

/-- What has been read of the token at hand. -/
inductive Reading where
  | between
  | word (left : List Char) (token : Token)
  | text (s : Spelling)
  | escape (s : Spelling)
  | unit (s : Spelling) (left : Nat) (value : Nat)
  | minus
  | zero (negative : Bool)
  | whole (negative : Bool) (n : Nat)
  | point (n : Number)
  | fraction (n : Number)
  | mark (n : Number)
  | sign (n : Number) (negative : Bool)
  | power (n : Number) (negative : Bool) (e : Nat)
  deriving DecidableEq

namespace Reading

def digit? (c : Char) : Option Nat :=
  if '0' ≤ c ∧ c ≤ '9' then some (c.toNat - '0'.toNat) else none

def hexDigit? (c : Char) : Option Nat :=
  if 'a' ≤ c ∧ c ≤ 'f' then some (c.toNat - 'a'.toNat + 10)
  else if 'A' ≤ c ∧ c ≤ 'F' then some (c.toNat - 'A'.toNat + 10)
  else digit? c

def escaped? : Char → Option Char
  | '"' => some '"'
  | '\\' => some '\\'
  | '/' => some '/'
  | 'b' => some '\x08'
  | 'f' => some '\x0c'
  | 'n' => some '\n'
  | 'r' => some '\r'
  | 't' => some '\t'
  | _ => none

def start (c : Char) : Option (List Token × Reading) :=
  match c with
  | ' ' | '\n' | '\t' | '\r' => some ([], .between)
  | '\x7b' => some ([.openObject], .between)
  | '\x7d' => some ([.closeObject], .between)
  | '[' => some ([.openArray], .between)
  | ']' => some ([.closeArray], .between)
  | ':' => some ([.colon], .between)
  | ',' => some ([.comma], .between)
  | '"' => some ([], .text .empty)
  | 'n' => some ([], .word ['u', 'l', 'l'] .null)
  | 't' => some ([], .word ['r', 'u', 'e'] (.bool true))
  | 'f' => some ([], .word ['a', 'l', 's', 'e'] (.bool false))
  | '-' => some ([], .minus)
  | '0' => some ([], .zero false)
  | c => (digit? c).map fun d => ([], .whole false d)

def finish (n : Number) (c : Char) : Option (List Token × Reading) :=
  (start c).map fun (ts, r) => (.num n :: ts, r)

def withPower (n : Number) (negative : Bool) (e : Nat) : Number :=
  { n with exponent := some (if negative then -e else e) }

def isMark (c : Char) : Bool := c == 'e' || c == 'E'

def afterWhole (n : Number) (c : Char) : Option (List Token × Reading) :=
  if c = '.' then some ([], .point n)
  else if isMark c then some ([], .mark n)
  else finish n c

def step : Reading → Char → Option (List Token × Reading)
  | .between, c => start c
  | .word [] _, _ => none
  | .word (l :: ls) t, c =>
    if c = l then some (if ls.isEmpty then ([t], .between) else ([], .word ls t)) else none
  | .text s, c =>
    if c = '"' then some ([.str s.text], .between)
    else if c = '\\' then some ([], .escape s)
    else if c < ' ' then none
    else some ([], .text (s.char c))
  | .escape s, c =>
    if c = 'u' then some ([], .unit s 4 0)
    else (escaped? c).map fun e => ([], .text (s.char e))
  | .unit _ 0 _, _ => none
  | .unit s (left + 1) v, c => (hexDigit? c).map fun d =>
    ([], if left = 0 then .text (s.unit (16 * v + d)) else .unit s left (16 * v + d))
  | .minus, c => (digit? c).map fun d => ([], if d = 0 then .zero true else .whole true d)
  | .zero negative, c => afterWhole ⟨negative, 0, [], none⟩ c
  | .whole negative n, c =>
    match digit? c with
    | some d => some ([], .whole negative (10 * n + d))
    | none => afterWhole ⟨negative, n, [], none⟩ c
  | .point n, c => (digit? c).map fun d => ([], .fraction { n with fraction := [d] })
  | .fraction n, c =>
    match digit? c with
    | some d => some ([], .fraction { n with fraction := d :: n.fraction })
    | none =>
      let n := { n with fraction := n.fraction.reverse }
      if isMark c then some ([], .mark n) else finish n c
  | .mark n, c =>
    if c = '+' then some ([], .sign n false)
    else if c = '-' then some ([], .sign n true)
    else (digit? c).map fun d => ([], .power n false d)
  | .sign n negative, c => (digit? c).map fun d => ([], .power n negative d)
  | .power n negative e, c =>
    match digit? c with
    | some d => some ([], .power n negative (10 * e + d))
    | none => finish (withPower n negative e) c

def close : Reading → Option (List Token)
  | .between => some []
  | .zero negative => some [.num ⟨negative, 0, [], none⟩]
  | .whole negative n => some [.num ⟨negative, n, [], none⟩]
  | .fraction n => some [.num { n with fraction := n.fraction.reverse }]
  | .power n negative e => some [.num (withPower n negative e)]
  | _ => none

end Reading

namespace Token

def scanFrom (r : Reading) (before : List Token) : List Char → Option (List Token)
  | [] => r.close.map fun ts => before.reverse ++ ts
  | c :: cs =>
    match r.step c with
    | none => none
    | some (ts, r) => scanFrom r (ts.reverse ++ before) cs

def scan (s : List Char) : Option (List Token) := scanFrom .between [] s

end StackScript.Json.Token
