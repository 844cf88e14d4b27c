import StackScript.Json.Basic

namespace StackScript.Json

def nestingLimit : Nat := 127

/-- How one field of a record is given: by a value, or not at all in an object (`absent`), or not at
all since the array of fields is too short (`beyond`). -/
inductive Field where
  | given (value : Json)
  | absent
  | beyond

namespace Field

def required (read : Json → Option α) : Field → Option α
  | .given v => read v
  | _ => none

def orElse (default : α) (read : Json → Option α) : Field → Option α
  | .given v => read v
  | _ => some default

end Field

def orNull (read : Json → Option α) : Json → Option (Option α)
  | .null => some none
  | v => (read v).map some

def Field.optional (read : Json → Option α) : Field → Option (Option α)
  | .given v => orNull read v
  | .absent => some none
  | .beyond => none

/-- The field called `name`, unless it is given twice. -/
def fieldOf (members : List (String × Json)) (name : String) : Option Field :=
  match members.filter (·.1 == name) with
  | [] => some .absent
  | [(_, v)] => some (.given v)
  | _ => none

/-- The fields called `names`, in that order. A record is an object, in which other members are
passed over, or the array of its fields. -/
def fields (names : List String) : Json → Option (List Field)
  | .obj members => do
    let members ← members.mapM fun (k, v) => k.map (·, v)
    names.mapM (fieldOf members)
  | .arr items =>
    if items.length ≤ names.length then
      some (items.map .given ++ List.replicate (names.length - items.length) .beyond)
    else none
  | _ => none

def text? : Json → Option String
  | .str s => s
  | _ => none

def bool? : Json → Option Bool
  | .bool b => some b
  | _ => none

def int? : Json → Option Int
  | .num n => n.toInt?
  | _ => none

def word? (bits : Nat) (v : Json) : Option Nat := do
  let n ← v.int?
  if 0 ≤ n ∧ n < Int.pow 2 bits then some n.toNat else none

def int64? (v : Json) : Option Int64 := do
  let n ← v.int?
  if Int64.minValue.toInt ≤ n ∧ n ≤ Int64.maxValue.toInt then some (Int64.ofInt n) else none

def binary64? : Json → Option Binary64
  | .num n => n.toBinary64?
  | _ => none

def listOf (read : Nat → Json → Option α) : Nat → Json → Option (List α)
  | n + 1, .arr items => items.mapM (read n)
  | _, _ => none

/-- An object with arbitrary keys; of equal keys the last counts. -/
def tableOf (read : Nat → Json → Option α) : Nat → Json → Option (List (String × α))
  | n + 1, .obj members => do
    let entries ← members.mapM fun (k, v) => do return (← k, ← read n v)
    return entries.foldr (fun e rest => if rest.any (·.1 == e.1) then rest else e :: rest) []
  | _, _ => none

/-- A tag with nothing in it: the tag alone, or an object that maps it to null. -/
def unitTag? : Nat → Json → Option String
  | _, .str s => s
  | _ + 1, .obj [(some tag, .null)] => some tag
  | _, _ => none

def tagged? : Nat → Json → Option (Nat × String × Json)
  | n + 1, .obj [(some tag, v)] => some (n, tag, v)
  | _, _ => none

def choice (table : List (String × α)) (n : Nat) (v : Json) : Option α := do
  table.lookup (← unitTag? n v)

def tagOf [DecidableEq α] (table : List (String × α)) (a : α) : Json :=
  .text (((table.find? (·.2 = a)).map (·.1)).getD "")

end StackScript.Json
