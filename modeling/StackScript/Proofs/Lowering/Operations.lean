import StackScript.Proofs.Lowering.Straight

namespace StackScript

open Draft

def Expr.isAtom : Expr → Bool
  | .int _ _ | .float _ _ | .str _ _ | .null _ | .bool _ _ | .name _ _ => true
  | _ => false

/-- What an expression is applied to, in the order of evaluation. The owner of a member is an
operand only if it is no type. -/
inductive Expr.Operands : Expr → List Expr → Prop
  | plain (p q ident args) : Operands (.call p (.name q ident) args) args
  | static (p q owner name args) : Operands (.call p (.member q owner name) args) args
  | method (p q owner name args) : Operands (.call p (.member q owner name) args) (args ++ [owner])
  | subscript (p container index) : Operands (.subscript p container index) [container, index]
  | unary (p op operand) : Operands (.unary p op operand) [operand]
  | binary (p left op right) : Operands (.binary p left op right) [left, right]
  | compare (p left op right) : Operands (.compare p left [op] [right]) [left, right]
  | logic (p op left right) : Operands (.logic p op [left, right]) [left, right]

namespace Lower

variable {cx : Context} {s t u v : Draft} {o : Operand} {zs : List String}

/-- The lowering of an operation whose operands have been lowered: of a host operation, of a call,
or of a conversion. -/
inductive Takes (cx : Context) : List String → Operand → Draft → Draft → Prop
  | host {kind owner name types m zs o t v} (hm : cx.catalog.method? kind owner name types = some m)
      (h : hostCall cx m zs t = .ok o v) : Takes cx zs o t v
  | user {name zs discard o t v} (h : userCall cx name zs discard t = .ok o v) : Takes cx zs o t v
  | cast {name z o t v} (h : cast cx name [z] t = .ok o v) : Takes cx [z] o t v

theorem takes_operator {member left : String} {rest : List String}
    (h : operator cx member left rest t = .ok o v) : Takes cx (left :: rest) o t v := by
  simp only [operator, bind_eq_ok, typeOf_eq_ok, typesOf_eq_ok] at h
  obtain ⟨ty, _, ⟨_, rfl⟩, types, _, ⟨_, rfl⟩, h⟩ := h
  cases hm : cx.catalog.method? .static ty.name member (ty :: types) with
  | none => simp only [hm, reject_eq_ok] at h
  | some m => simp only [hm] at h; exact .host hm h

theorem takes_methodCall {receiver member : String} {args : List String}
    (h : methodCall cx receiver member args t = .ok o v) : Takes cx (receiver :: args) o t v := by
  simp only [methodCall, bind_eq_ok, typeOf_eq_ok, typesOf_eq_ok] at h
  obtain ⟨owner, _, ⟨_, rfl⟩, types, _, ⟨_, rfl⟩, h⟩ := h
  cases hm : cx.catalog.method? .method owner.name member types with
  | none => simp only [hm, reject_eq_ok] at h
  | some m => simp only [hm] at h; exact .host hm h

theorem takes_staticCall {owner member : String} {args : List String}
    (h : staticCall cx owner member args t = .ok o v) : Takes cx args o t v := by
  simp only [staticCall, bind_eq_ok, typesOf_eq_ok] at h
  obtain ⟨types, _, ⟨_, rfl⟩, h⟩ := h
  cases hm : staticMember? cx owner member types with
  | none => simp only [hm, reject_eq_ok] at h
  | some m =>
      simp only [hm] at h
      obtain ⟨kind, _, hm⟩ := staticMember?_eq_some hm
      exact .host hm h

theorem cast_eq_ok {name : String} {args : List String} (h : cast cx name args t = .ok o v) :
    ∃ z, args = [z] := by
  rw [cast.eq_def] at h
  split at h
  case h_1 z => exact ⟨z, rfl⟩
  case h_2 => exact (reject_eq_ok.mp h).elim

/-- The operation that an expression is lowered to, on the variables of its operands. The receiver
of a method comes first in the code, wherever it was evaluated. -/
inductive Applies (cx : Context) (discard : Bool) :
    Expr → List String → Operand → Draft → Draft → Prop
  | operator {e member left rest o t v} (h : operator cx member left rest t = .ok o v) :
      Applies cx discard e (left :: rest) o t v
  | method {e receiver member args xs o t v} (hx : (receiver :: args).Perm xs)
      (h : methodCall cx receiver member args t = .ok o v) : Applies cx discard e xs o t v
  | static {e owner member args o t v} (h : staticCall cx owner member args t = .ok o v) :
      Applies cx discard e args o t v
  | cast {p q name args z o t v} (ht : cx.catalog.isType name) (h : cast cx name [z] t = .ok o v) :
      Applies cx discard (.call p (.name q name) args) [z] o t v
  | user {p q name args xs o t v} (h : userCall cx name xs discard t = .ok o v) :
      Applies cx discard (.call p (.name q name) args) xs o t v

theorem Applies.takes {discard : Bool} {e : Expr} {xs : List String}
    (h : Applies cx discard e xs o t v) :
    ∃ zs, zs.Perm xs ∧ Takes cx zs o t v := by
  cases h with
  | operator h => exact ⟨_, .refl _, takes_operator h⟩
  | method hx h => exact ⟨_, hx, takes_methodCall h⟩
  | static h => exact ⟨_, .refl _, takes_staticCall h⟩
  | cast _ h => exact ⟨_, .refl _, .cast h⟩
  | user h => exact ⟨_, .refl _, .user h⟩

theorem applies_plainCall {p q : Pos} {name : String} {es : List Expr} {args : List String}
    {discard : Bool} (h : plainCall cx name args discard t = .ok o v) :
    Applies cx discard (.call p (.name q name) es) args o t v := by
  rw [plainCall] at h
  split at h
  · split at h
    · exact .static h
    · exact (reject_eq_ok.mp h).elim
  · split at h
    case isTrue ht =>
      obtain ⟨z, rfl⟩ := cast_eq_ok h
      exact .cast ht h
    case isFalse => exact .user h

theorem staticOwner?_eq_ok {e : Expr} {found : Option String}
    (h : staticOwner? cx e s = .ok found t) : s = t := by
  cases e with
  | name p ident =>
      simp only [staticOwner?, bind_eq_ok, resolve_eq_ok, contains_eq_ok] at h
      obtain ⟨_, _, ⟨_, rfl⟩, known, _, ⟨_, rfl⟩, h⟩ := h
      split at h <;> exact (pure_eq_ok.mp h).2
  | _ => exact (pure_eq_ok.mp h).2

theorem lowerValues_append {es₁ es₂ : List Expr} :
    lowerValues cx (es₁ ++ es₂) = (do return (← lowerValues cx es₁) ++ (← lowerValues cx es₂)) := by
  induction es₁ with
  | nil => simp [lowerValues]
  | cons e es₁ ih => simp [lowerValues, ih]

theorem lowerValues_singleton {e : Expr} {x : String} (h : value cx e s = .ok x t) :
    lowerValues cx [e] s = .ok [x] t := by
  simp only [lowerValues, bind_eq_ok, pure_eq_ok]
  exact ⟨x, t, h, [], t, ⟨rfl, rfl⟩, rfl, rfl⟩

theorem lowerValues_pair {e₁ e₂ : Expr} {x y : String} (h₁ : value cx e₁ s = .ok x u)
    (h₂ : value cx e₂ u = .ok y t) : lowerValues cx [e₁, e₂] s = .ok [x, y] t := by
  rw [lowerValues]
  simp only [bind_eq_ok, pure_eq_ok]
  exact ⟨x, u, h₁, [y], t, lowerValues_singleton h₂, rfl, rfl⟩

theorem operator_of_binary {discard : Bool} {p : Pos} {left right : Expr} {op : BinaryOp}
    (h : lowerExpr cx discard (.binary p left op right) s = .ok o v) :
    ∃ member x u y t, value cx left s = .ok x u ∧ value cx right u = .ok y t ∧
      operator cx member x [y] t = .ok o v := by
  rw [lowerExpr] at h
  cases hop : op.member? with
  | none => simp only [hop, reject_eq_ok] at h
  | some member =>
      simp only [hop, bind_eq_ok] at h
      obtain ⟨x, u, hx, y, t, hy, h⟩ := h
      exact ⟨member, x, u, y, t, hx, hy, h⟩

theorem binary_eq_ok {discard : Bool} {p : Pos} {left right : Expr} {op : BinaryOp}
    (h : lowerExpr cx discard (.binary p left op right) s = .ok o v) :
    ∃ x u y t, value cx left s = .ok x u ∧ value cx right u = .ok y t ∧ Takes cx [x, y] o t v := by
  obtain ⟨member, x, u, y, t, hx, hy, h⟩ := operator_of_binary h
  exact ⟨x, u, y, t, hx, hy, takes_operator h⟩

/-- A comparison is lowered only if it has one operator. -/
theorem compare_eq_ok {discard : Bool} {p : Pos} {left : Expr} {ops : List CompareOp}
    {rights : List Expr} (h : lowerExpr cx discard (.compare p left ops rights) s = .ok o v) :
    ∃ op right, ops = [op] ∧ rights = [right] := by
  obtain _ | ⟨op, _ | ⟨op', ops⟩⟩ := ops
  · simp only [lowerExpr, reject_eq_ok] at h
  · obtain _ | ⟨right, _ | ⟨right', rights⟩⟩ := rights
    · simp only [lowerExpr, reject_eq_ok] at h
    · exact ⟨op, right, rfl, rfl⟩
    · simp only [lowerExpr, reject_eq_ok] at h
  · simp only [lowerExpr, reject_eq_ok] at h

theorem logic_eq_ok {discard : Bool} {p : Pos} {op : LogicOp} {operands : List Expr}
    (h : lowerExpr cx discard (.logic p op operands) s = .ok o v) :
    ∃ left right, operands = [left, right] := by
  obtain _ | ⟨left, _ | ⟨right, _ | ⟨e, es⟩⟩⟩ := operands
  · simp only [lowerExpr, reject_eq_ok] at h
  · simp only [lowerExpr, reject_eq_ok] at h
  · exact ⟨left, right, rfl⟩
  · simp only [lowerExpr, reject_eq_ok] at h

/-- An expression with operands is lowered to their code, one after the other, and to an operation
that takes their variables. -/
theorem applies_of_lowerExpr {discard : Bool} {e : Expr} (h : lowerExpr cx discard e s = .ok o v)
    (he : e.isAtom = false) :
    ∃ es xs t, e.Operands es ∧ lowerValues cx es s = .ok xs t ∧ Applies cx discard e xs o t v := by
  cases e with
  | int | float | str | null | bool | name => cases he
  | call p callee args =>
      cases callee with
      | member q owner name =>
          simp only [lowerExpr, bind_eq_ok] at h
          obtain ⟨xs, t, hxs, found, t', hf, h⟩ := h
          obtain rfl : t = t' := staticOwner?_eq_ok hf
          cases found with
          | some ident => exact ⟨args, xs, t, .static .., hxs, .static h⟩
          | none =>
              obtain ⟨x, t', hx, h⟩ := bind_eq_ok.mp h
              refine ⟨args ++ [owner], xs ++ [x], t', .method .., ?_,
                .method (List.perm_append_singleton x xs).symm h⟩
              simp only [lowerValues_append, bind_eq_ok, pure_eq_ok]
              exact ⟨xs, t, hxs, [x], t', lowerValues_singleton hx, rfl, rfl⟩
      | name q ident =>
          simp only [lowerExpr, bind_eq_ok] at h
          obtain ⟨xs, t, hxs, h⟩ := h
          exact ⟨args, xs, t, .plain .., hxs, applies_plainCall h⟩
      | _ =>
          simp only [lowerExpr, bind_eq_ok] at h
          obtain ⟨_, _, _, h⟩ := h
          exact (reject_eq_ok.mp h).elim
  | subscript p container index =>
      simp only [lowerExpr, bind_eq_ok] at h
      obtain ⟨x, u, hx, i, t, hi, h⟩ := h
      exact ⟨_, _, t, .subscript .., lowerValues_pair hx hi, .method (.refl _) h⟩
  | unary p op operand =>
      rw [lowerExpr] at h
      cases hop : op.member? with
      | none => simp only [hop, reject_eq_ok] at h
      | some member =>
          simp only [hop, bind_eq_ok] at h
          obtain ⟨x, t, hx, h⟩ := h
          exact ⟨_, _, t, .unary .., lowerValues_singleton hx, .operator h⟩
  | binary p left op right =>
      obtain ⟨member, x, u, y, t, hx, hy, h⟩ := operator_of_binary h
      exact ⟨_, _, t, .binary .., lowerValues_pair hx hy, .operator h⟩
  | compare p left ops rights =>
      obtain ⟨op, right, rfl, rfl⟩ := compare_eq_ok h
      rw [lowerExpr] at h
      cases hop : op.member? with
      | none => simp only [hop, reject_eq_ok] at h
      | some member =>
          simp only [hop, bind_eq_ok] at h
          obtain ⟨x, u, hx, y, t, hy, h⟩ := h
          exact ⟨_, _, t, .compare .., lowerValues_pair hx hy, .operator h⟩
  | logic p op operands =>
      obtain ⟨left, right, rfl⟩ := logic_eq_ok h
      simp only [lowerExpr, bind_eq_ok] at h
      obtain ⟨x, u, hx, y, t, hy, h⟩ := h
      exact ⟨_, _, t, .logic .., lowerValues_pair hx hy, .operator h⟩
  | member | other =>
      rw [lowerExpr] at h
      exact (reject_eq_ok.mp h).elim

theorem takes_of_lowerExpr {discard : Bool} {e : Expr} (h : lowerExpr cx discard e s = .ok o v)
    (he : e.isAtom = false) :
    ∃ es xs zs t, e.Operands es ∧ lowerValues cx es s = .ok xs t ∧ zs.Perm xs ∧
    Takes cx zs o t v := by
  obtain ⟨es, xs, t, ho, hes, ha⟩ := applies_of_lowerExpr h he
  obtain ⟨zs, hz, ht⟩ := ha.takes
  exact ⟨es, xs, zs, t, ho, hes, hz, ht⟩

theorem generate_contains {kind x : String} {ty : Ty} {init : Init}
    (h : generate cx kind ty init s = .ok x t) :
    t.vars.contains x := by
  obtain ⟨_, _, hv⟩ := generate_eq_ok h
  rw [hv, Variables.contains, Variables.find?]
  simp

theorem Takes.contains {x : String} (h : Takes cx zs (.var x) t v) : v.vars.contains x := by
  cases h with
  | host hm h =>
      obtain ⟨_, -, ⟨-, hx, -⟩ | ⟨-, y, t₁, hx, hy, he⟩⟩ := hostCall_steps h
      · cases hx
      · cases hx
        rw [emit_vars he]
        exact generate_contains hy
  | user h =>
      obtain ⟨g, k, entry, back, r, s₁, s₂, C, _, ho⟩ := userCall_eq_ok h
      cases r with
      | none | discard => cases ho
      | into y =>
          cases ho
          rw [Variables.contains, Variables.find?, C.result]
          simp [Block.Outcome.declares]
  | cast h =>
      obtain ⟨y, t₁, hx, hy, he⟩ := cast_steps h
      cases hx
      rw [emit_vars he]
      exact generate_contains hy

theorem Takes.moves (h : Takes cx zs o t v) : Moves t v := by
  have hadv : Advances cx.functions t v := by
    cases h with
    | host hm h => exact (ExprClosed.hostCall hm _).of_ok h
    | user h => exact (ExprClosed.userCall _ _ _).of_ok h
    | cast h => exact (ExprClosed.cast _ _).of_ok h
  obtain ⟨_, e, _⟩ := hadv
  exact e.moves

theorem literal_contains {e : Expr} {x : String} (h : literal cx e s = .ok (.var x) t) :
    t.vars.contains x := by
  simp only [literal, bind_eq_ok, accept_eq_ok] at h
  obtain ⟨found, _, ⟨_, rfl⟩, h⟩ := h
  cases found with
  | none => exact (reject_eq_ok.mp h).elim
  | some found =>
      simp only [bind_eq_ok, pure_eq_ok] at h
      obtain ⟨y, t₁, hy, hx, rfl⟩ := h
      cases hx
      exact generate_contains hy

theorem boolean_contains {b : Bool} {x : String} (h : boolean cx b s = .ok (.var x) t) :
    t.vars.contains x := by
  rw [boolean] at h
  cases hm : cx.catalog.method? .static "SystemBoolean" "Parse" [.string] with
  | none => simp only [hm, reject_eq_ok] at h
  | some m =>
      simp only [hm, bind_eq_ok, pure_eq_ok] at h
      obtain ⟨_, _, _, y, t₁, hy, _, _, he, hx, rfl⟩ := h
      cases hx
      rw [emit_vars he]
      exact generate_contains hy

theorem nameOperand_eq_ok {ident : String} (h : nameOperand cx ident s = .ok o t) :
    s = t ∧ ((∃ x, o = .var x ∧ x = s.vars.resolve cx.scope.qualifier ident ∧ s.vars.contains x) ∨
      o = .type (.named ident) ∧ cx.catalog.isType ident) := by
  simp only [nameOperand, bind_eq_ok, resolve_eq_ok, contains_eq_ok] at h
  obtain ⟨y, _, ⟨rfl, rfl⟩, known, _, ⟨rfl, rfl⟩, h⟩ := h
  split at h
  case isTrue hk =>
    obtain ⟨rfl, rfl⟩ := pure_eq_ok.mp h
    exact ⟨rfl, .inl ⟨_, rfl, rfl, hk⟩⟩
  case isFalse =>
    split at h
    case isTrue ht =>
      obtain ⟨rfl, rfl⟩ := pure_eq_ok.mp h
      exact ⟨rfl, .inr ⟨rfl, ht⟩⟩
    case isFalse => exact (reject_eq_ok.mp h).elim

theorem value_eq_ok {e : Expr} {x : String} (h : value cx e s = .ok x t) :
    ∃ s₁, note (.expression e.pos e.describe) s = .ok () s₁ ∧
    lowerExpr cx false e s₁ = .ok (.var x) t := by
  simp only [value, valueOf, operandOf, bind_eq_ok, located_eq_ok] at h
  obtain ⟨o, t', ⟨_, s₁, hn, h⟩, ho⟩ := h
  cases o with
  | type => exact (reject_eq_ok.mp (located_eq_ok.mp ho)).elim
  | nothing => exact (reject_eq_ok.mp (located_eq_ok.mp ho)).elim
  | var y =>
      obtain ⟨rfl, rfl⟩ := pure_eq_ok.mp ho
      exact ⟨s₁, hn, h⟩

theorem value_moves {e : Expr} {x : String} (h : value cx e s = .ok x t) : Moves s t := by
  obtain ⟨_, ex, _⟩ : Advances cx.functions s t := (Along.value e).of_ok h
  exact ex.moves

theorem lowerExpr_contains {discard : Bool} {e : Expr} {x : String}
    (h : lowerExpr cx discard e s = .ok (.var x) t) :
    t.vars.contains x := by
  cases he : e.isAtom with
  | false =>
      obtain ⟨_, _, _, _, _, _, _, ht⟩ := takes_of_lowerExpr h he
      exact ht.contains
  | true =>
      cases e with
      | int | float | str | null => rw [lowerExpr] at h; exact literal_contains h
      | bool => rw [lowerExpr] at h; exact boolean_contains h
      | name =>
          rw [lowerExpr] at h
          obtain ⟨rfl, ⟨_, ho, -, hx⟩ | ⟨ho, -⟩⟩ := nameOperand_eq_ok h
          · cases ho
            exact hx
          · cases ho
      | _ => cases he

theorem value_contains {e : Expr} {x : String} (h : value cx e s = .ok x t) :
    t.vars.contains x := by
  obtain ⟨s₁, _, h⟩ := value_eq_ok h
  exact lowerExpr_contains h

theorem expr_eq_ok {e : Expr} (h : expr cx e s = .ok o t) :
    ∃ s₁, note (.expression e.pos e.describe) s = .ok () s₁ ∧
    lowerExpr cx false e s₁ = .ok o t := by
  simp only [expr, operandOf, bind_eq_ok, located_eq_ok] at h
  obtain ⟨_, s₁, hn, h⟩ := h
  exact ⟨s₁, hn, h⟩

end Lower
end StackScript
