import StackScript.Decimal.Shortest

namespace StackScript

namespace Json

/-- A number as it is written. There is a point exactly when `fraction` has digits. -/
structure Number where
  negative : Bool
  whole : Nat
  fraction : List Nat
  exponent : Option Int
  deriving DecidableEq

namespace Number

def ofInt (n : Int) : Number := ⟨decide (n < 0), n.natAbs, [], none⟩

/-- The integer, if the number is written as one. Minus zero is not an integer. -/
def toInt? (n : Number) : Option Int :=
  match n.fraction, n.exponent with
  | [], none =>
    if n.negative then if n.whole = 0 then none else some (-n.whole)
    else some n.whole
  | _, _ => none

def toBinary64? (n : Number) : Option Binary64 :=
  Binary64.ofDecimal? n.negative (n.fraction.foldl (fun m d => 10 * m + d) n.whole)
    (n.exponent.getD 0 - n.fraction.length)

end Number

/-- The text of a string literal. A literal may hold half of a surrogate pair: it is well formed,
and has no text. -/
abbrev Text := Option String

end Json

/-- A value with its members in the order and number in which they are written. -/
inductive Json where
  | null
  | bool (b : Bool)
  | num (n : Json.Number)
  | str (s : Json.Text)
  | arr (items : List Json)
  | obj (members : List (Json.Text × Json))

namespace Json

def text (s : String) : Json := .str (some s)

def int (n : Int) : Json := .num (.ofInt n)

def record (fields : List (String × Json)) : Json := .obj (fields.map fun (k, v) => (some k, v))

def tagged (tag : String) (value : Json) : Json := .record [(tag, value)]

def texts (ss : List String) : Json := .arr (ss.map .text)

def nullable (f : α → Json) : Option α → Json
  | none => .null
  | some a => f a

end StackScript.Json
