import StackScript.Proofs.Lowering.Operations
import StackScript.Proofs.StackDepth

namespace StackScript

open Draft

namespace Expr

def accessors : Expr → List Expr
  | .subscript _ container index => [container, index]
  | _ => []

/-- An expression stands in another one: it is the other one, or stands in one of its operands. -/
abbrev Includes : Expr → Expr → Prop :=
  Relation.ReflTransGen fun e x => ∃ es, e.Operands es ∧ x ∈ es

theorem Operands.sizeOf_lt {e x : Expr} {es : List Expr} (h : e.Operands es) (hx : x ∈ es) :
    sizeOf x < sizeOf e := by
  cases h with
  | plain | static =>
      have hlt := List.sizeOf_lt_of_mem hx
      simp only [call.sizeOf_spec]
      omega
  | method =>
      simp only [call.sizeOf_spec, member.sizeOf_spec]
      obtain hx | hx := List.mem_append.mp hx
      · have hlt := List.sizeOf_lt_of_mem hx
        omega
      · obtain rfl := List.mem_singleton.mp hx
        omega
  | subscript | binary | compare | logic =>
      simp only [subscript.sizeOf_spec, binary.sizeOf_spec, compare.sizeOf_spec, logic.sizeOf_spec,
        List.cons.sizeOf_spec]
      obtain rfl | hx := List.mem_cons.mp hx
      · omega
      · obtain rfl := List.mem_singleton.mp hx
        omega
  | unary =>
      obtain rfl := List.mem_singleton.mp hx
      simp only [unary.sizeOf_spec]
      omega

end Expr

namespace Stmt

/-- Target and value of an assignment. An update assigns the value of an operation on its target. -/
def assignment? : Stmt → Option (Expr × Expr)
  | .assign _ target e => some (target, e)
  | .update _ target op e => some (target, .binary target.pos target op e)
  | _ => none

def operands : Stmt → List Expr
  | .assign _ target e => target.accessors ++ [e]
  | .update _ target op e => target.accessors ++ [.binary target.pos target op e]
  | .branch _ test _ _ | .loop _ test _ _ => [test]
  | .ret _ e => e.toList
  | .eval _ e => [e]
  | _ => []

def parts : Stmt → List Stmt
  | .define _ _ _ _ body => body
  | .branch _ _ body orelse | .loop _ _ body orelse => body ++ orelse
  | _ => []

abbrev Includes : Stmt → Stmt → Prop := Relation.ReflTransGen fun st x => x ∈ st.parts

def Holds (st : Stmt) (e : Expr) : Prop := ∃ x, st.Includes x ∧ ∃ e₀ ∈ x.operands, e₀.Includes e

theorem Holds.operand {st : Stmt} {e x : Expr} {es : List Expr} (h : st.Holds e)
    (ho : e.Operands es) (hx : x ∈ es) : st.Holds x := by
  obtain ⟨y, hy, e₀, he, hi⟩ := h
  exact ⟨y, hy, e₀, he, hi.tail ⟨es, ho, hx⟩⟩

theorem Includes.holds {st x : Stmt} {e : Expr} (h : st.Includes x) (he : e ∈ x.operands) :
    st.Holds e :=
  ⟨x, h, e, he, .refl⟩

def scope (c : Catalog) (st : Stmt) : Scope :=
  match st with
  | .define _ name _ _ _ =>
    match st.function? c with
    | some f => .function (Names.functionId f.name f.types) f.ret f.params
    | none => .event name
  | _ => .module

theorem place_scope (c : Catalog) (st : Stmt) : (st.scope c).place = st.place c := by
  cases st with
  | define p name params returns body =>
      rw [scope, place]
      cases function? c (.define p name params returns body) <;> rfl
  | _ => rfl

end Stmt

namespace Module

/-- The drafts `s` and `t` lie between the begin and the end of the lowering of the `k`-th
statement. -/
def During (c : Catalog) (m : Module) (k : Nat) (st : Stmt) (s t : Draft) : Prop :=
  ∃ before after, m.Spans c k st before after ∧ Moves before s ∧ Moves t after

/-- A statement that stands in the `k`-th one is lowered from draft `s` to draft `t`. -/
structure Runs (c : Catalog) (m : Module) (fs : Functions) (k : Nat) (st x : Stmt) (s t : Draft) :
    Prop where
  stands : st.Includes x
  during : m.During c k st s t
  runs : Lower.stmt ⟨c, fs, st.scope c⟩ x s = .ok () t

/-- An expression that stands in the `k`-th statement is lowered from draft `s` to draft `t`, and
comes to `o`. -/
structure Lowers (c : Catalog) (m : Module) (fs : Functions) (k : Nat) (st : Stmt)
    (discard : Bool) (e : Expr) (o : Operand) (s t : Draft) : Prop where
  stands : st.Holds e
  during : m.During c k st s t
  runs : Lower.lowerExpr ⟨c, fs, st.scope c⟩ discard e s = .ok o t

variable {c : Catalog} {m : Module} {p : Program} {fs : Functions} {d : Nat → Draft} {k : Nat}
  {st : Stmt} {s s' t t' : Draft}

theorem During.narrow (h : m.During c k st s t) (hs : Moves s s') (ht : Moves t' t) :
    m.During c k st s' t' := by
  obtain ⟨before, after, hsp, hb, ha⟩ := h
  exact ⟨before, after, hsp, hb.trans hs, ht.trans ha⟩

theorem Layout.moves_during (L : Layout c m p fs d) (h : m.During c k st s t) :
    Moves .empty s ∧ Moves t (d m.body.length) := by
  obtain ⟨before, after, hsp, hb, ha⟩ := h
  obtain ⟨hk, rfl, rfl⟩ := L.spans_iff.mp hsp
  have hlt := (List.getElem?_eq_some_iff.mp hk).1
  exact ⟨(L.moves_empty hlt.le).trans hb, ha.trans (L.moves hlt le_rfl)⟩

end Module
end StackScript
