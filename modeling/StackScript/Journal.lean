import StackScript.Code.Instr
import StackScript.Script.Basic
import StackScript.Text.Hex
import StackScript.Text.Shown
import StackScript.Ty

namespace StackScript

def Target.shown : Target → String
  | .addr a => "Addr(" ++ toString a ++ ")"
  | .label id => "Label(LabelId(" ++ toString id ++ "))"

def Instr.shown : Instr → String
  | .pop => "Pop"
  | .copy => "Copy"
  | .push x => "Push(" ++ Text.shown x ++ ")"
  | .pushAddr a => "PushAddr(" ++ toString a ++ ")"
  | .jump t => "Jump(" ++ t.shown ++ ")"
  | .jumpIfFalse t => "JumpIfFalse(" ++ t.shown ++ ")"
  | .jumpIndirect x => "JumpIndirect(" ++ Text.shown x ++ ")"
  | .invoke symbol arity =>
    "Extern \x7b symbol: " ++ Text.shown symbol ++ ", arity: " ++ toString arity ++ " \x7d"
  | .eventHead name => "EventHead(" ++ Text.shown name ++ ")"

inductive Entry where
  | declarations (statements : Nat)
  | event (name : String) (types : List Ty)
  | function (id : String) (ret : Ty)
  | generation
  | finished (vars events instrs : Nat)
  | linked (references size : Nat)
  | statement (pos : Pos) (what : String)
  | expression (pos : Pos) (what : String)
  | hostCall (symbol : String)
  | call (id : String) (ret : Ty)
  | instr (address : Nat) (i : Instr)
  | bound (address : Nat) (label : String)

inductive Detail where
  | silent
  | steps
  | everything
  deriving DecidableEq

namespace Entry

def isStep : Entry → Bool
  | .declarations _ | .event _ _ | .function _ _ | .generation | .finished _ _ _
  | .linked _ _ => true
  | _ => false

def text : Entry → String
  | .declarations n => "declaration pass over " ++ toString n ++ " statements"
  | .event name types => "event " ++ name ++ Ty.tuple types
  | .function id ret => "function " ++ id ++ " -> " ++ ret.name
  | .generation => "generation pass"
  | .finished vars events instrs =>
    toString vars ++ " variables, " ++ toString events ++ " events, " ++ toString instrs ++
      " instructions"
  | .linked references size =>
    "linked " ++ toString references ++ " label references, code segment is " ++ toString size ++
      " bytes"
  | .statement p what => p.text ++ ": " ++ what
  | .expression p what => p.text ++ ":   " ++ what
  | .hostCall symbol => "extern " ++ symbol
  | .call id ret => "call " ++ id ++ " -> " ++ ret.name
  | .instr a i => "0x" ++ Text.hex 8 a ++ ": " ++ i.shown
  | .bound a label => "0x" ++ Text.hex 8 a ++ ": " ++ label ++ ":"

def isShown : Detail → Entry → Bool
  | .silent, _ => false
  | .steps, e => e.isStep
  | .everything, _ => true

def line (e : Entry) : String := (if e.isStep then "[DEBUG] " else "[TRACE] ") ++ e.text ++ "\n"

end Entry

def journalText (detail : Detail) (entries : List Entry) : String :=
  String.join ((entries.filter (Entry.isShown detail)).map Entry.line)

end StackScript
