import StackScript.Lowering.Expr
import StackScript.Proofs.Lowering.Straight
import StackScript.Proofs.Meaning.Basic
import StackScript.Proofs.Meaning.Hygiene

namespace StackScript

theorem UnaryOp.host?_eq (op : UnaryOp) : (Operator.unary op).host? = op.member? := by
  cases op <;> rfl

theorem BinaryOp.host?_eq (op : BinaryOp) : (Operator.binary op).host? = op.member? := by
  cases op <;> rfl

theorem CompareOp.host?_eq (op : CompareOp) : (Operator.compare op).host? = op.member? := by
  cases op <;> rfl

theorem LogicOp.host?_eq (op : LogicOp) : (Operator.logic op).host? = some op.member := by
  cases op <;> rfl

namespace Meaning

theorem toList_escaped (c : Char) : (escaped c).toList = Text.Quoted.escape c := by
  rw [escaped.eq_def]
  split
  case h_6 h₁ h₂ h₃ h₄ h₅ =>
    have hl : Text.Quoted.letter? c = none := by
      rw [Text.Quoted.letter?.eq_def]
      split <;> first | contradiction | rfl
    rw [Text.Quoted.escape, hl]
    exact String.toList_singleton c
  all_goals rfl

theorem string_eq (s : String) : string s = constant "SystemString" (Text.Quoted.quote s) := by
  have hmark : "\"".toList = ['"'] := by decide
  rw [string]
  congr 1
  rw [← String.toList_inj, Text.Quoted.quote, Text.Quoted.encode, String.toList_ofList]
  simp only [String.toList_append, String.toList_join, List.flatMap_map, toList_escaped, hmark]
  rfl

end Meaning

theorem Expr.meaning_of_literal? {e : Expr} {ty : Ty} {init : Init}
    (h : e.literal? = .ok (some (ty, init))) (c : Catalog) (event : String) (Γ : Typing) :
    e.meaning c event Γ = some (.value (.const init) ty) := by
  cases e with
  | int p n =>
      rw [literal?] at h
      split at h
      case isTrue hn =>
        cases h
        have hn : -2147483648 ≤ n.toInt ∧ n.toInt ≤ 2147483647 := hn
        rw [meaning, Meaning.integer, if_pos hn]
        rfl
      case isFalse => cases h
  | str p s =>
      cases h
      rw [meaning, Meaning.string_eq]
      rfl
  | float | null =>
      cases h
      rw [meaning]
      rfl
  | _ => cases h

namespace Variables

variable {scope x : String} {vs ws : Variables}

/-- Both tables say the same of every name that a script can write. -/
def Agree (scope : String) (vs ws : Variables) : Prop :=
  ∀ x, ¬ Names.Temporary scope x → vs.find? x = ws.find? x

theorem Agree.refl (vs : Variables) : Agree scope vs vs := fun _ _ => rfl

theorem Agree.trans {us : Variables} (h : Agree scope us vs) (k : Agree scope vs ws) :
    Agree scope us ws :=
  fun x hx => (h x hx).trans (k x hx)

theorem agree_markExported (names : List String) (vs : Variables) :
    Agree scope vs (names.foldl markExported vs) := by
  induction names generalizing vs with
  | nil => exact .refl vs
  | cons name names ih =>
      refine Agree.trans (fun x _ => ?_) (ih (vs.markExported name))
      rw [find?, find?, declared_markExported]

theorem not_temporary_resolve (vs : Variables) (hx : Names.IsProper x) :
    ¬ Names.Temporary scope (vs.resolve scope x) := by
  rw [Variables.resolve]
  split
  · exact hx.not_temporary_qualify
  · exact hx.1.not_temporary

def typing (vs : Variables) : Typing := fun x => (vs.find? x).map Variable.ty

end Variables

namespace Typing

variable {scope x : String} {Γ : Typing} {vs ws : Variables}

/-- A table gives every name that a script can write the type that it is known with. -/
def Agrees (scope : String) (Γ : Typing) (vs : Variables) : Prop :=
  ∀ x, ¬ Names.Temporary scope x → Γ x = vs.typing x

theorem Agrees.trans (h : Γ.Agrees scope vs) (k : vs.Agree scope ws) : Γ.Agrees scope ws := by
  intro x hx
  rw [h x hx, Variables.typing, Variables.typing, k x hx]

theorem Agrees.isSome (h : Γ.Agrees scope vs) (hx : ¬ Names.Temporary scope x) :
    (Γ x).isSome = vs.contains x := by
  rw [h x hx, Variables.typing, Option.isSome_map, Variables.contains]

theorem Agrees.locate (h : Γ.Agrees scope vs) (hs : scope ≠ "") (hx : Names.IsProper x) :
    Γ.locate scope x = vs.resolve scope x := by
  have hq : (Γ (scope ++ "__" ++ x)).isSome = vs.contains (Names.qualify scope x) :=
    h.isSome hx.not_temporary_qualify
  simp only [Typing.locate, Variables.resolve, hq, hs, ne_eq, not_false_eq_true, true_and]
  rfl

theorem Agrees.agrees {ty : Ty} (h : Γ.Agrees scope vs) (hx : ¬ Names.Temporary scope x)
    (hc : vs.check x ty = .agrees) : Γ x = some ty := by
  rw [Variables.check] at hc
  rw [h x hx, Variables.typing]
  split at hc
  case h_1 => cases hc
  case h_2 v hv =>
    split at hc
    case isTrue hty => rw [hv, Option.map_some, hty]
    case isFalse => cases hc

theorem Agrees.unknown {ty : Ty} (h : Γ.Agrees scope vs) (hx : ¬ Names.Temporary scope x)
    (hc : vs.check x ty = .unknown) : Γ x = none := by
  rw [Variables.check] at hc
  rw [h x hx, Variables.typing]
  split at hc
  case h_1 hv => rw [hv, Option.map_none]
  case h_2 => split at hc <;> cases hc

theorem Agrees.declare {ty : Ty} {init : Init} (h : Γ.Agrees scope vs)
    (hd : vs.declare x ty init = .ok ws) : Agrees scope (Function.update Γ x (some ty)) ws := by
  obtain ⟨hnew, -, rfl⟩ := Variables.declare_eq_ok hd
  rw [Variables.contains, Option.isSome_eq_false_iff, Option.isNone_iff_eq_none] at hnew
  intro y hy
  rw [Variables.typing, Variables.find?_declared]
  by_cases he : x = y
  · subst he
    rw [Function.update_self, hnew, if_pos rfl]
    rfl
  · rw [Function.update_of_ne (Ne.symm he), if_neg he, Option.or_none, h y hy, Variables.typing]

end Typing
end StackScript
