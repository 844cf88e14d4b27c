import StackScript.Json.Token

namespace StackScript.Json

inductive Frame where
  | array (before : List Json)
  | member (before : List (Text × Json)) (key : Text)

/-- What may come next inside the open frames. -/
inductive Cursor where
  | value (frames : List Frame)
  | firstItem (frames : List Frame)
  | afterItem (before : List Json) (frames : List Frame)
  | firstKey (frames : List Frame)
  | nextKey (before : List (Text × Json)) (frames : List Frame)
  | afterKey (before : List (Text × Json)) (key : Text) (frames : List Frame)
  | afterMember (before : List (Text × Json)) (frames : List Frame)
  | done (value : Json)

namespace Cursor

def deliver (v : Json) : List Frame → Cursor
  | [] => .done v
  | .array before :: frames => .afterItem (v :: before) frames
  | .member before key :: frames => .afterMember ((key, v) :: before) frames

def begin (frames : List Frame) : Token → Option Cursor
  | .null => some (deliver .null frames)
  | .bool b => some (deliver (.bool b) frames)
  | .num n => some (deliver (.num n) frames)
  | .str s => some (deliver (.str s) frames)
  | .openArray => some (.firstItem frames)
  | .openObject => some (.firstKey frames)
  | _ => none

/-- The frames are a list, so nesting costs no recursion. -/
def step : Cursor → Token → Option Cursor
  | .value frames, t => begin frames t
  | .firstItem frames, .closeArray => some (deliver (.arr []) frames)
  | .firstItem frames, t => begin (.array [] :: frames) t
  | .afterItem before frames, .comma => some (.value (.array before :: frames))
  | .afterItem before frames, .closeArray => some (deliver (.arr before.reverse) frames)
  | .firstKey frames, .closeObject => some (deliver (.obj []) frames)
  | .firstKey frames, .str key => some (.afterKey [] key frames)
  | .nextKey before frames, .str key => some (.afterKey before key frames)
  | .afterKey before key frames, .colon => some (.value (.member before key :: frames))
  | .afterMember before frames, .comma => some (.nextKey before frames)
  | .afterMember before frames, .closeObject => some (deliver (.obj before.reverse) frames)
  | _, _ => none

def run : Cursor → List Token → Option Cursor
  | c, [] => some c
  | c, t :: ts =>
    match c.step t with
    | none => none
    | some c => run c ts

end Cursor

def ofTokens? (ts : List Token) : Option Json :=
  match Cursor.run (.value []) ts with
  | some (.done v) => some v
  | _ => none

def parse? (s : String) : Option Json := (Token.scan s.toList).bind ofTokens?

end StackScript.Json
