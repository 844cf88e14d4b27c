import StackScript.Code.Assembly

namespace StackScript.Listing

def destination (labels : List Label) : Target → Except Fault (Option Nat)
  | .addr a => .ok (some a)
  | .label id => (Label.get labels id).map Label.addr

def destinations (p : Program) : Except Fault (List Nat) := do
  let found ← (p.code.filterMap Instr.target?).mapM (destination p.labels)
  return found.filterMap id

def labelLine (l : Label) : String := "  " ++ l.name ++ ":\n"

/-- The lines of the code from an address on. A label stands above the first instruction at its
address and is not shown again; `left` holds those not shown yet. -/
def lines (p : Program) (marked : List Nat) : Nat → List Label → List Instr →
    Except Fault (List String)
  | _, _, [] => .ok []
  | a, left, .eventHead name :: is => do
    let rest ← lines p marked a left is
    return (name ++ ":\n") :: rest
  | a, left, i :: is => do
    let here := left.filter (·.addr = some a)
    let text ← i.text p.labels
    let mark := if marked.contains a then "►" else " "
    let line := addressText a ++ " " ++ mark ++ " " ++ text.getD "" ++ "\n"
    let rest ← lines p marked (a + i.width) (left.filter (·.addr ≠ some a)) is
    return here.map labelLine ++ line :: rest

end Listing

def Program.listing (p : Program) : Except Fault String := do
  let marked ← Listing.destinations p
  let lines ← Listing.lines p marked 0 p.labels p.code
  return String.join lines

end StackScript
