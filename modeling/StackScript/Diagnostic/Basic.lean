import StackScript.Catalog.Basic
import StackScript.Script.Basic

namespace StackScript

inductive SymbolKind where
  | var
  | function
  | type
  | label
  deriving DecidableEq

def SymbolKind.text : SymbolKind → String
  | .var => "variable"
  | .function => "function"
  | .type => "type"
  | .label => "label"

inductive Problem where
  | declaration (name reason : String)
  | undefined (kind : SymbolKind) (name : String)
  | typeMismatch (text : String)
  | unsupported (what : String)
  | noMember (kind : MemberKind) (owner name : String) (args : List Ty)
  | malformed (text : String)
  | unresolvedLabel (name : String)
  deriving DecidableEq

def Problem.text : Problem → String
  | .declaration name reason => "cannot declare '" ++ name ++ "': " ++ reason
  | .undefined kind name => "undefined " ++ kind.text ++ " '" ++ name ++ "'"
  | .typeMismatch text => "type mismatch: " ++ text
  | .unsupported what => "unsupported " ++ what
  | .noMember kind owner name args =>
    kind.text ++ " " ++ owner ++ "." ++ name ++ Ty.tuple args ++ " not found"
  | .malformed text => "malformed expression: " ++ text
  | .unresolvedLabel name => "label '" ++ name ++ "' is referenced but never bound"

structure Diagnostic where
  problem : Problem
  pos : Option Pos
  hint : Option String
  deriving DecidableEq

namespace Diagnostic

def of (p : Problem) : Diagnostic := ⟨p, none, none⟩

def withHint (d : Diagnostic) (hint : String) : Diagnostic := { d with hint := some hint }

def locate (d : Diagnostic) (p : Pos) : Diagnostic :=
  if p = .unknown then d else { d with pos := d.pos.or (some p) }

def message (d : Diagnostic) : String :=
  let place := match d.pos with
    | some p => p.text ++ ": "
    | none => ""
  let hint := match d.hint with
    | some h => "\n  hint: " ++ h
    | none => ""
  place ++ "compile error: " ++ d.problem.text ++ hint

end Diagnostic

/-- How work on a program can end without a result: the script is refused, or a label that the table
does not have is looked up. -/
inductive Fault where
  | rejected (d : Diagnostic)
  | dangling (label : Nat)
  deriving DecidableEq

def Fault.locate (p : Pos) : Fault → Fault
  | .rejected d => .rejected (d.locate p)
  | .dangling l => .dangling l

end StackScript
