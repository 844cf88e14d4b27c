import StackScript.Proofs.Fallthrough

namespace StackScript

/-- An instruction that stores into the variable that was pushed last. -/
def Instr.storesTop (answers : String → Bool) : Instr → Bool
  | .copy => true
  | .invoke symbol _ => answers symbol
  | _ => false

namespace Code

variable {answers : String → Bool} {x : String}

def stores (answers : String → Bool) (x : String) : List Instr → Bool
  | [] => false
  | i :: is => (i == .push x && is.head?.any (Instr.storesTop answers)) || stores answers x is

theorem stores_append_right {ys : List Instr} (xs : List Instr) (h : stores answers x ys) :
    stores answers x (xs ++ ys) := by
  induction xs with
  | nil => exact h
  | cons i xs ih => simp [stores, ih]

theorem stores_append_left {xs : List Instr} (h : stores answers x xs) (ys : List Instr) :
    stores answers x (xs ++ ys) := by
  induction xs with
  | nil => cases h
  | cons i xs ih =>
      rw [stores, Bool.or_eq_true] at h
      rw [List.cons_append, stores, Bool.or_eq_true]
      refine h.imp (fun h => ?_) ih
      cases xs with
      | nil => simp at h
      | cons j xs => exact h

theorem stores_of_infix {xs ys : List Instr} (h : stores answers x xs) (hi : xs <:+: ys) :
    stores answers x ys := by
  obtain ⟨pre, post, rfl⟩ := hi
  exact stores_append_left (stores_append_right pre h) post

theorem stores_popInto (x : String) : stores answers x (Block.popInto x) := by
  simp [stores, Block.popInto, Instr.storesTop]

theorem stores_assign (x src : String) : stores answers x (Block.assign x src) :=
  stores_append_right [.push src] (stores_popInto x)

theorem stores_popIntoAll {xs : List String} (hx : x ∈ xs) :
    stores answers x (Block.popIntoAll xs) := by
  obtain ⟨pre, post, hr⟩ := List.append_of_mem (List.mem_reverse.mpr hx)
  rw [Block.popIntoAll, hr, List.flatMap_append, List.flatMap_cons]
  exact stores_append_right _ (stores_append_left (stores_popInto x) _)

theorem stores_invoke {symbol : String} {xs : List String} (ha : answers symbol)
    (hx : xs.getLast? = some x) :
    stores answers x (Block.invoke symbol xs) := by
  obtain ⟨ys, rfl⟩ := List.getLast?_eq_some_iff.mp hx
  rw [Block.invoke, Block.pushAll, List.map_append, List.append_assoc]
  exact stores_append_right _ (by simp [stores, Instr.storesTop, ha])

end Code

def Init.label? : Init → Option Nat
  | .label l => some l
  | _ => none

theorem Init.label?_eq_some {i : Init} {l : Nat} : i.label? = some l ↔ i = .label l := by
  cases i <;> simp [label?]

namespace Draft

def callees (fs : Functions) (F : Draft) (code : List Instr) : List Function :=
  code.filterMap fun
    | .jump (.label l) => F.callee fs l
    | _ => none

variable {fs : Functions} {F : Draft}

theorem callees_append (xs ys : List Instr) :
    F.callees fs (xs ++ ys) = F.callees fs xs ++ F.callees fs ys :=
  List.filterMap_append

theorem mem_callees_goto {l : Nat} {g : Function} (hg : F.callee fs l = some g) :
    g ∈ F.callees fs (Block.goto l) := by
  simp [callees, Block.goto, hg]

/-- The return constants hold the places of their labels. -/
def Anchors {D : Type} (F : Draft) (σ : Store D) : Prop :=
  ∀ v ∈ F.vars.declared, ∀ l a, v.init = .label l → F.Bound l a → σ v.name = .addr a

def Seals (F : Draft) (answers : String → Bool) : Prop :=
  ∀ v ∈ F.vars.declared, ∀ l, v.init = .label l → Code.stores answers v.name F.code = false

instance {D : Type} [DecidableEq D] (F : Draft) (σ : Store D) : Decidable (F.Anchors σ) :=
  decidable_of_iff (∀ v ∈ F.vars.declared, ∀ l ∈ v.init.label?, ∀ n ∈ F.emitter.labels.toList[l]?,
    ∀ a ∈ n.addr, σ v.name = .addr a) <| by
  simp only [Option.mem_def, Init.label?_eq_some, Anchors, Bound, Label.address_eq_ok_iff]
  exact ⟨fun h v hv l a hl ⟨n, hn, ha⟩ => h v hv l hl n hn a ha,
    fun h v hv l hl n hn a ha => h v hv l a hl ⟨n, hn, ha⟩⟩

instance (F : Draft) (answers : String → Bool) : Decidable (F.Seals answers) :=
  decidable_of_iff (∀ v ∈ F.vars.declared, ∀ l ∈ v.init.label?, Code.stores answers v.name F.code =
    false) <| by
  simp only [Option.mem_def, Init.label?_eq_some, Seals]

theorem Anchors.of_eq {D : Type} {σ τ : Store D} (h : F.Anchors σ) {answers : String → Bool}
    (hs : F.Seals answers) (he : ∀ x, Code.stores answers x F.code = false → τ x = σ x) :
    F.Anchors τ := by
  intro v hv l a hl ha
  rw [he v.name (hs v hv l hl)]
  exact h v hv l a hl ha

end Draft

def Stmt.inner : Stmt → List Stmt
  | .define _ _ _ _ body => body
  | _ => []

namespace Module

open Draft

variable {c : Catalog} {m : Module} {fs : Functions} {d : Nat → Draft} {g : Function}

def segment (c : Catalog) (m : Module) (k : Nat) : List Instr :=
  match m.lowered c k, m.lowered c (k + 1) with
  | some (_, s), some (_, t) => t.code.drop s.code.length
  | _, _ => []

def codeOf (c : Catalog) (m : Module) (g : Function) : List Instr :=
  match m.body.findIdx? fun st => st.function? c = some g with
  | some k => m.segment c k
  | none => []

/-- The functions that may be called while some code runs: those that it calls, and those that they
call. -/
inductive MayCall (c : Catalog) (m : Module) (fs : Functions) (F : Draft) (code : List Instr) :
    Function → Prop
  | direct {g : Function} (h : g ∈ F.callees fs code) : MayCall c m fs F code g
  | through {g g' : Function} (h : MayCall c m fs F code g)
      (h' : g' ∈ F.callees fs (m.codeOf c g)) :
      MayCall c m fs F code g'

def Returns (c : Catalog) (m : Module) (g : Function) : Prop :=
  ∀ st ∈ m.body, st.function? c = some g → g.ret.isVoid ∨ Stmt.returnsIn st.inner

theorem Sketch.segment_eq (K : Sketch c m fs d) {k : Nat} (hk : k < m.body.length)
    {code : List Instr} (e : Emits (d k) (d (k + 1)) code) : m.segment c k = code := by
  simp [segment, K.lowered k hk.le, K.lowered (k + 1) hk, e.code]

theorem Sketch.codeOf_eq (K : Sketch c m fs d) (hg : g ∈ fs) :
    ∃ k st code, m.body[k]? = some st ∧ st.function? c = some g ∧ Emits (d k) (d (k + 1)) code ∧
      m.codeOf c g = code := by
  obtain ⟨j, st, hj, hst⟩ := K.exists_define hg
  cases hk : m.body.findIdx? fun st => st.function? c = some g with
  | none =>
      have hn := List.findIdx?_eq_none_iff.mp hk st (List.mem_of_getElem? hj)
      simp [hst] at hn
  | some k =>
      obtain ⟨hlt, hf, _⟩ := List.findIdx?_eq_some_iff_getElem.mp hk
      obtain ⟨code, e, _⟩ := K.placed (List.getElem?_eq_getElem hlt)
      refine ⟨k, _, code, List.getElem?_eq_getElem hlt, by simpa using hf, e, ?_⟩
      rw [codeOf, hk]
      exact K.segment_eq hlt e

theorem Sketch.function_eq (K : Sketch c m fs d) {k : Nat} {st : Stmt} (hk : m.body[k]? = some st)
    (hg : st.function? c = some g) :
    g.params.length = g.types.length ∧ ∃ s₁ s₂, Emits (d k) s₁ (Block.popIntoAll g.params) ∧
      s₁.vars = (d k).vars ∧
      Lower.Lowered ⟨c, fs, .function (Names.functionId g.name g.types) g.ret g.params⟩
      st.inner s₁ s₂ ∧ Emits s₂ (d (k + 1)) (Block.ret Names.returnAddress none) := by
  have hlt := (List.getElem?_eq_some_iff.mp hk).1
  have hfs := K.mem_functions hk hg
  have htop := topLevel_of_lowered (K.lowered k hlt.le) (K.lowered (k + 1) hlt) hk
  cases st with
  | define p name params returns body =>
      obtain ⟨he, _, _, hlen⟩ := Stmt.function?_define hg
      rw [Lower.topLevel, if_neg (by simpa using he)] at htop
      obtain ⟨l, u₁, u₂, s₁, s₂, hn, hb, hp, hl, hr⟩ :=
        Lower.function_eq_ok hg (K.distinct.find? hfs) htop
      have eb := (Lower.namedLabel_emits hn).1.skip (Lower.bindLabel_emits hb).1
      refine ⟨hlen, s₁, s₂, eb.skip (Lower.emit_emits hp), ?_, Lower.lowered_block hl,
        Lower.emit_emits hr⟩
      rw [Lower.emit_vars hp, Lower.bindLabel_vars hb, Lower.namedLabel_vars hn]
  | _ => cases hg

theorem Sketch.codeOf_infix (K : Sketch c m fs d) (hg : g ∈ fs) :
    m.codeOf c g <:+: (d m.body.length).code := by
  obtain ⟨k, st, code, hk, _, e, rfl⟩ := K.codeOf_eq hg
  obtain ⟨pre, post, hcode, _⟩ := K.at_code (List.getElem?_eq_some_iff.mp hk).1 e
  exact ⟨pre, post, by rw [hcode, List.append_assoc]⟩

end Module
end StackScript
