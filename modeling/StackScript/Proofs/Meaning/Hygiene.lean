import Mathlib.Data.List.Infix
import StackScript.Catalog.Basic
import StackScript.Names
import StackScript.Script.Basic

namespace StackScript

namespace Names

/-- The names that a scope generates. -/
def Temporary (scope x : String) : Prop := ∃ n kind, x = scope ++ generated n kind

def Constant (scope x : String) : Prop := ∃ n, x = scope ++ generated n "const"

/-- No two underscores stand side by side. -/
def IsPlain (x : String) : Prop := ¬ ['_', '_'] <:+: x.toList

instance (x : String) : Decidable (IsPlain x) := inferInstanceAs (Decidable (¬ _))

/-- An identifier that does not look like a qualified name, nor like the end of a generated one. -/
def IsProper (x : String) : Prop := IsPlain x ∧ x.toList.head?.any Char.isDigit = false

instance (x : String) : Decidable (IsProper x) := inferInstanceAs (Decidable (_ ∧ _))

theorem toList_generated (n : Nat) (kind : String) :
    (generated n kind).toList = ['_', '_'] ++ (Nat.toDigits 10 n ++ '_' :: kind.toList) := by
  have hn : (toString n).toList = Nat.toDigits 10 n := Nat.toList_repr
  simp only [generated, String.toList_append, hn, List.append_assoc]
  rfl

theorem isDigit_of_mem {n : Nat} {c : Char} (hc : c ∈ Nat.toDigits 10 n) : c.isDigit :=
  Nat.isDigit_of_mem_toDigits (by decide) (by decide) hc

variable {scope x : String}

theorem IsPlain.not_temporary (hx : IsPlain x) : ¬ Temporary scope x := by
  rintro ⟨n, kind, rfl⟩
  apply hx
  rw [String.toList_append, toList_generated, ← List.append_assoc]
  exact List.infix_append ..

theorem IsProper.not_temporary_qualify (hx : IsProper x) : ¬ Temporary scope (qualify scope x) := by
  rintro ⟨n, kind, h⟩
  have hl := congrArg String.toList h
  have hmark : "__".toList = ['_', '_'] := by decide
  simp only [qualify, String.toList_append, toList_generated, hmark, List.append_assoc,
    List.append_cancel_left_eq] at hl
  -- behind the underscores a temporary goes on with a digit, which an identifier does not
  -- begin with
  cases hd : Nat.toDigits 10 n with
  | nil => exact Nat.toDigits_ne_nil hd
  | cons c cs =>
      have hc : c.isDigit := isDigit_of_mem (n := n) (by simp [hd])
      simp [IsProper, hl, hd, hc] at hx

theorem not_constant_generated {kind : String} (hk : kind ≠ "const") (n : Nat) :
    ¬ Constant scope (scope ++ generated n kind) := by
  rintro ⟨m, h⟩
  have hl := congrArg String.toList h
  simp only [String.toList_append, toList_generated, List.append_cancel_left_eq] at hl
  -- the digits end at the same place
  have hd := congrArg (List.takeWhile Char.isDigit) hl
  rw [List.takeWhile_append_of_pos fun c hc => isDigit_of_mem hc,
    List.takeWhile_append_of_pos fun c hc => isDigit_of_mem hc,
    List.takeWhile_cons_of_neg (by decide), List.takeWhile_cons_of_neg (by decide),
    List.append_nil, List.append_nil] at hd
  rw [hd, List.append_cancel_left_eq, List.cons.injEq, String.toList_inj] at hl
  exact hk hl.2

end Names

namespace Expr

mutual

def names : Expr → List String
  | .name _ ident => [ident]
  | .member _ owner _ => names owner
  | .subscript _ container index => names container ++ names index
  | .call _ callee args => names callee ++ namesAll args
  | .unary _ _ operand => names operand
  | .binary _ left _ right => names left ++ names right
  | .compare _ left _ rights => names left ++ namesAll rights
  | .logic _ _ operands => namesAll operands
  | _ => []

def namesAll : List Expr → List String
  | [] => []
  | e :: es => names e ++ namesAll es

end

mutual

/-- No function of the script is called: what is called by its name is `instantiate` or a type. -/
def callFree (c : Catalog) : Expr → Bool
  | .member _ owner _ => callFree c owner
  | .subscript _ container index => callFree c container && callFree c index
  | .call _ (.name _ ident) args => (ident == "instantiate" || c.isType ident) && callFreeAll c args
  | .call _ callee args => callFree c callee && callFreeAll c args
  | .unary _ _ operand => callFree c operand
  | .binary _ left _ right => callFree c left && callFree c right
  | .compare _ left _ rights => callFree c left && callFreeAll c rights
  | .logic _ _ operands => callFreeAll c operands
  | _ => true

def callFreeAll (c : Catalog) : List Expr → Bool
  | [] => true
  | e :: es => callFree c e && callFreeAll c es

end

end Expr

namespace Stmt

mutual

def names : Stmt → List String
  | .assign _ target e | .update _ target _ e => target.names ++ e.names
  | .branch _ test body orelse | .loop _ test body orelse =>
    test.names ++ (namesAll body ++ namesAll orelse)
  | .ret _ e => (e.map Expr.names).getD []
  | .eval _ e => e.names
  | _ => []

def namesAll : List Stmt → List String
  | [] => []
  | st :: ss => names st ++ namesAll ss

end

mutual

def callFree (c : Catalog) : Stmt → Bool
  | .assign _ target e | .update _ target _ e => target.callFree c && e.callFree c
  | .branch _ test body orelse | .loop _ test body orelse =>
    test.callFree c && (callFreeAll c body && callFreeAll c orelse)
  | .ret _ e => (e.map (Expr.callFree c)).getD true
  | .eval _ e => e.callFree c
  | _ => true

def callFreeAll (c : Catalog) : List Stmt → Bool
  | [] => true
  | st :: ss => callFree c st && callFreeAll c ss

end

end Stmt
end StackScript
