import StackScript.Code.Resolve
import StackScript.Text.Hex

namespace StackScript

def addressText (a : Nat) : String := "0x" ++ Text.hex 10 a

def Label.reference (labels : List Label) (id : Nat) : Except Fault String :=
  (Label.get labels id).map fun l => "###" ++ l.name ++ "###"

def Target.text (labels : List Label) : Target → Except Fault String
  | .addr a => .ok (addressText a)
  | .label id => Label.reference labels id

def Init.text (labels : List Label) : Init → Except Fault String
  | .null => .ok "null"
  | .literal t => .ok t
  | .addr a => .ok (addressText a)
  | .label id => Label.reference labels id

def Instr.text (labels : List Label) : Instr → Except Fault (Option String)
  | .pop => .ok (some "POP")
  | .copy => .ok (some "COPY")
  | .push x => .ok (some ("PUSH, " ++ x))
  | .pushAddr a => .ok (some ("PUSH, " ++ addressText a))
  | .jump t => (t.text labels).map fun s => some ("JUMP, " ++ s)
  | .jumpIfFalse t => (t.text labels).map fun s => some ("JUMP_IF_FALSE, " ++ s)
  | .jumpIndirect x => .ok (some ("JUMP_INDIRECT, " ++ x))
  | .invoke symbol _ => .ok (some ("EXTERN, \"" ++ symbol ++ "\""))
  | .eventHead _ => .ok none

namespace Assembly

def exportLine (name : String) : String := "    .export " ++ name ++ "\n"

def varLine (labels : List Label) (v : DataVar) : Except Fault String :=
  (v.init.text labels).map fun s =>
    "        " ++ v.name ++ ": %" ++ v.machineType ++ ", " ++ s ++ "\n"

def codeLine (labels : List Label) (i : Instr) : Except Fault String :=
  match i with
  | .eventHead name => .ok ("    " ++ name ++ ":\n")
  | i => (i.text labels).map fun s => "        " ++ s.getD "" ++ "\n"

end Assembly

namespace Program

def dataText (p : Program) : Except Fault String := do
  let lines ← p.vars.mapM (Assembly.varLine p.labels)
  return ".data_start\n\n" ++ String.join (p.exports.map Assembly.exportLine) ++
    String.join lines ++ "\n.data_end\n\n"

def codeText (p : Program) : Except Fault String := do
  let lines ← p.code.mapM (Assembly.codeLine p.labels)
  return ".code_start\n\n" ++ String.join (p.events.map Assembly.exportLine) ++
    String.join lines ++ "\n.code_end\n"

def text (p : Program) : Except Fault String := do
  let data ← p.dataText
  let code ← p.codeText
  return data ++ code

end StackScript.Program
