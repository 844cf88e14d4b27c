import StackScript.Code.Program
import StackScript.Diagnostic.Wording

namespace StackScript

def Label.get (labels : List Label) (id : Nat) : Except Fault Label :=
  match labels[id]? with
  | some l => .ok l
  | none => .error (.dangling id)

def Label.address (labels : List Label) (id : Nat) : Except Fault Nat := do
  let l ← Label.get labels id
  match l.addr with
  | some a => .ok a
  | none => .error (.rejected (.unresolvedLabel l.name))

def Target.resolve (labels : List Label) : Target → Except Fault Target
  | .addr a => .ok (.addr a)
  | .label id => (Label.address labels id).map .addr

def Instr.resolve (labels : List Label) : Instr → Except Fault Instr
  | .jump t => (t.resolve labels).map .jump
  | .jumpIfFalse t => (t.resolve labels).map .jumpIfFalse
  | i => .ok i

def DataVar.resolve (labels : List Label) (v : DataVar) : Except Fault DataVar :=
  match v.init with
  | .label id => (Label.address labels id).map fun a => { v with init := .addr a }
  | _ => .ok v

namespace Program

def link (p : Program) : Except Fault Program := do
  let code ← p.code.mapM (Instr.resolve p.labels)
  let vars ← p.vars.mapM (DataVar.resolve p.labels)
  return { p with code := code, vars := vars }

def isLabelled (i : Instr) : Bool := i.target? matches some (.label _)

def references (p : Program) : Nat :=
  p.code.countP isLabelled + p.vars.countP (·.init matches .label _)

def isLinked (p : Program) : Bool :=
  p.code.all (!isLabelled ·) && p.vars.all fun v => !(v.init matches .label _)

end StackScript.Program
