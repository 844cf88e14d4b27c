import StackScript.Proofs.EventSlots
import StackScript.Proofs.Purpose.Basic

namespace StackScript

open Draft

namespace Names

/-- The kinds of variables that are stored into once. -/
def temporaries : List String := ["bool", "extern", "cast", "ret_value"]

def constants : List String := ["const", "const_ret_addr"]

end Names

namespace Code

theorem addressesFrom_append (a : Nat) (xs ys : List Instr) :
    addressesFrom a (xs ++ ys) = addressesFrom a xs ++ addressesFrom (a + size xs) ys := by
  induction xs generalizing a with
  | nil => rfl
  | cons i xs ih =>
      rw [List.cons_append, addressesFrom, ih, addressesFrom, size, List.cons_append, Nat.add_assoc]

theorem length_addressesFrom (a : Nat) (xs : List Instr) :
    (addressesFrom a xs).length = xs.length := by
  induction xs generalizing a with
  | nil => rfl
  | cons i xs ih => rw [addressesFrom, List.length_cons, ih, List.length_cons]

end Code

theorem Lower.emit_append {xs ys : List Instr} {u : Unit} {s t : Draft}
    (h : emit (xs ++ ys) s = .ok u t) :
    ∃ s₁, emit xs s = .ok () s₁ ∧ emit ys s₁ = .ok () t := by
  obtain rfl := modify_eq_ok.mp h
  have hcode : s.emitter.code ++ xs ++ ys = s.emitter.code ++ (xs ++ ys) :=
    Array.toList_inj.mp (by simp)
  refine ⟨_, rfl, modify_eq_ok.mpr ?_⟩
  simp only [Emitter.append, Code.addressesFrom_append, Code.size_append, Nat.add_assoc,
    List.zip_append (Code.length_addressesFrom _ xs), List.map_append, List.reverse_append,
    List.append_assoc, hcode]

namespace Stmt

def params : Stmt → List Param
  | .define _ _ params _ _ => params
  | _ => []

def paramVars (c : Catalog) (st : Stmt) : List String :=
  st.params.map fun p => Names.qualify (st.scope c).qualifier p.name

theorem paramVars_eq {c : Catalog} {st : Stmt} {f : Function} (hf : st.function? c = some f) :
    st.paramVars c = f.params := by
  cases st with
  | define q name params returns body =>
      have hscope : scope c (.define q name params returns body) =
          .function (Names.functionId f.name f.types) f.ret f.params := by rw [scope, hf]
      rw [paramVars, hscope]
      rw [function?] at hf
      split at hf
      case isTrue => cases hf
      case isFalse =>
        split at hf
        case h_1 => cases hf
        case h_2 => cases hf; rfl
  | _ => cases hf

theorem env_subset (c : Catalog) (st : Stmt) : (st.scope c).env ⊆ st.paramVars c := by
  cases hf : st.function? c with
  | some f =>
      rw [paramVars_eq hf]
      cases st with
      | define => rw [scope, hf]; exact List.Subset.refl _
      | _ => cases hf
  | none =>
      cases st with
      | define => rw [scope, hf]; exact List.nil_subset _
      | _ => exact List.nil_subset _

/-- What the code of a statement stores into, the temporaries apart. A name that is assigned to
stands for itself or for a local variable. -/
inductive Sets (c : Catalog) (st : Stmt) : String → Prop
  | back : Sets c st Names.returnAddress
  | param {x} (h : x ∈ st.paramVars c) : Sets c st x
  | name {y q x e z} (hy : st.Includes y) (ha : y.assignment? = some (.name q x, e))
      (hz : z = x ∨ z = Names.qualify (st.scope c).qualifier x) : Sets c st z

end Stmt

namespace Catalog

def Answers (c : Catalog) (symbol : String) : Prop :=
  (∃ f ∈ c.members, f.symbol = symbol ∧ f.toMethod.ret.isVoid = false) ∨
    ∃ f, c.method? .static "SystemBoolean" "Parse" [.string] = some f ∧ f.symbol = symbol

def Silent (c : Catalog) (symbol : String) : Prop :=
  ∃ f ∈ c.members, f.symbol = symbol ∧ f.toMethod.ret.isVoid

end Catalog

namespace Module

/-- An instruction behind the pushes that it needs, none of which is of a new variable. It calls no
host operation. -/
structure Piece (c : Catalog) (m : Module) (fs : Functions) (F : Draft) (k : Nat) (st : Stmt)
    (vs : Variables) (front : List Instr) (xs : List String) (i : Instr) : Prop where
  purpose : m.Purpose c fs F k st front xs i
  known : ∀ x ∈ xs, vs.contains x
  sets : i = .copy → ∃ ys y, xs = ys ++ [y] ∧ st.Sets c y
  inner : ∀ symbol n, i ≠ .invoke symbol n

/-- One act of the lowering of the `k`-th statement. -/
inductive Act (c : Catalog) (m : Module) (fs : Functions) (F : Draft) (k : Nat) (st : Stmt) :
    Draft → Draft → Prop
  /-- Labels are made and bound, and exports are marked. -/
  | quiet {s t} (h : Quiet s t) : Act c m fs F k st s t
  | const {s t kind ty init x} (hk : kind ∈ Names.constants)
      (h : Lower.generate ⟨c, fs, st.scope c⟩ kind ty init s = .ok x t) : Act c m fs F k st s t
  /-- The script introduces a name by an assignment. -/
  | name {s t y q x e ty init} (hy : st.Includes y) (ha : y.assignment? = some (.name q x, e))
      (h : Lower.declare x ty init s = .ok () t) : Act c m fs F k st s t
  | code {s t} (xs) {i} (hi : m.Piece c fs F k st s.vars s.code xs i)
      (h : Lower.emit (Block.pushAll xs ++ [i]) s = .ok () t) : Act c m fs F k st s t
  /-- A host operation without a result. -/
  | run {s t f xs} (hf : f ∈ c.members) (hv : f.toMethod.ret.isVoid)
      (hx : List.Forall₂ s.Typed xs f.inputs)
      (h : Lower.emit (Block.invoke f.symbol xs) s = .ok () t) : Act c m fs F k st s t
  /-- A temporary is made, and an instruction that stores into it. -/
  | fill {s u t kind ty x} (zs) {i} (hk : kind ∈ Names.temporaries)
      (hx : Lower.temp ⟨c, fs, st.scope c⟩ kind ty s = .ok x u) (hz : ∀ z ∈ zs, s.vars.contains z)
      (hi : m.Purpose c fs F k st s.code (zs ++ [x]) i)
      (hs : i = .copy ∨ ∃ symbol, c.Answers symbol ∧ i = .invoke symbol (zs ++ [x]).length)
      (h : Lower.emit (Block.pushAll (zs ++ [x]) ++ [i]) u = .ok () t) : Act c m fs F k st s t

abbrev Acts (c : Catalog) (m : Module) (fs : Functions) (F : Draft) (k : Nat) (st : Stmt) :
    Draft → Draft → Prop :=
  Relation.ReflTransGen (m.Act c fs F k st)

variable {c : Catalog} {m : Module} {fs : Functions} {F : Draft} {k : Nat} {st : Stmt} {s t : Draft}

theorem Act.moves (h : m.Act c fs F k st s t) : Moves s t := by
  cases h with
  | quiet h => exact h.emits.moves
  | const _ h => exact (Lower.generate_emits h).moves
  | name _ _ h => exact (Lower.declare_emits h).moves
  | code _ _ h | run _ _ _ h => exact (Lower.emit_emits h).moves
  | fill _ _ hx _ _ _ h => exact (Lower.generate_emits hx).moves.trans (Lower.emit_emits h).moves

theorem Acts.moves (h : m.Acts c fs F k st s t) : Moves s t := by
  induction h with
  | refl => exact .refl
  | tail _ h ih => exact ih.trans h.moves

theorem Act.events (h : m.Act c fs F k st s t) : t.emitter.events = s.emitter.events := by
  cases h with
  | quiet h => exact h.events
  | const _ h => exact Lower.generate_events h
  | name _ _ h => exact Lower.declare_events h
  | code _ _ h | run _ _ _ h => exact Lower.emit_events h
  | fill _ _ hx _ _ _ h => exact (Lower.emit_events h).trans (Lower.generate_events hx)

theorem acts_of_pieces {block : List Instr}
    (hp : Code.Pieces (m.Piece c fs F k st s.vars) s.code block)
    (h : Lower.emit block s = .ok () t) : m.Acts c fs F k st s t := by
  generalize hv : s.vars = vs at hp
  generalize hf : s.code = front at hp
  induction hp generalizing s t with
  | nil =>
      have e := Lower.emit_emits h
      exact .single (.quiet ⟨e, by rw [Lower.emit_vars h], Lower.emit_events h⟩)
  | single xs i hi =>
      subst hv hf
      exact .single (.code xs hi h)
  | append _ _ ihx ihy =>
      obtain ⟨u, hx, hy⟩ := Lower.emit_append h
      refine (ihx hx hv hf).trans (ihy hy ?_ ?_)
      · rw [Lower.emit_vars hx, hv]
      · rw [(Lower.emit_emits hx).code, hf]

theorem Act.adds (h : m.Act c fs F k st s t) (hF : Moves t F) :
    Adds (m.Purpose c fs F k st) s t := by
  cases h with
  | quiet h => exact ⟨[], h.emits, .nil _⟩
  | const _ h => exact ⟨[], Lower.generate_emits h, .nil _⟩
  | name _ _ h => exact ⟨[], Lower.declare_emits h, .nil _⟩
  | code _ hi h => exact .single _ _ (Lower.emit_emits h) hi.purpose
  | run hf hv hx h =>
      have e := Lower.emit_emits h
      refine .single _ _ e (.invoke hf ?_)
      rw [Member.operands, if_pos hv, List.append_nil]
      exact hx.imp fun _ _ hx => hx.moves (e.moves.trans hF)
  | fill _ _ hx _ hi _ h =>
      exact .single _ _ ((Lower.generate_emits hx).skip (Lower.emit_emits h)) hi

theorem Acts.adds (h : m.Acts c fs F k st s t) (hF : Moves t F) :
    Adds (m.Purpose c fs F k st) s t := by
  induction h with
  | refl => exact ⟨[], .refl s, .nil _⟩
  | tail _ h ih => exact (ih (h.moves.trans hF)).trans (h.adds hF)

end Module
end StackScript
