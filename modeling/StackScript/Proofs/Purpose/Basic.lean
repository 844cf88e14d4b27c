import StackScript.Proofs.Lowering.Codeless
import StackScript.Proofs.Meaning.Expr
import StackScript.Proofs.Purpose.Sites

namespace StackScript

open Draft

namespace Code

def Complete (code : List Instr) : Prop := ∀ x, code.getLast? ≠ some (.push x)

theorem complete_nil : Complete [] := by simp [Complete]

/-- Code that is made of instructions with the pushes that they need, behind some other code. `P`
holds of each instruction, of what is pushed for it, and of all that is in front. -/
inductive Pieces (P : List Instr → List String → Instr → Prop) : List Instr → List Instr → Prop
  | nil (front) : Pieces P front []
  | single {front} (xs i) (h : P front xs i) : Pieces P front (Block.pushAll xs ++ [i])
  | append {front xs ys} (hx : Pieces P front xs) (hy : Pieces P (front ++ xs) ys) :
      Pieces P front (xs ++ ys)

namespace Pieces

variable {P : List Instr → List String → Instr → Prop} {front code : List Instr}

theorem flatMap {α : Type} {f : α → List Instr} {xs : List α}
    (h : ∀ x ∈ xs, ∀ front, Pieces P front (f x)) (front : List Instr) :
    Pieces P front (xs.flatMap f) := by
  induction xs generalizing front with
  | nil => exact .nil front
  | cons x xs ih =>
      rw [List.forall_mem_cons] at h
      exact .append (h.1 front) (ih h.2 _)

theorem popIntoAll {xs : List String} (h : ∀ x ∈ xs, ∀ front, P front [x] .copy)
    (front : List Instr) :
    Pieces P front (Block.popIntoAll xs) :=
  .flatMap (fun x hx front => .single [x] .copy (h x (List.mem_reverse.mp hx) front)) front

theorem complete (h : Pieces P front code) (hP : ∀ {front xs i}, P front xs i → ∀ x, i ≠ .push x)
    (hf : Complete front) : Complete (front ++ code) := by
  induction h with
  | nil => rwa [List.append_nil]
  | single _ _ h =>
      intro x
      rw [← List.append_assoc, List.getLast?_concat]
      exact fun hx => hP h x (Option.some.inj hx)
  | append _ _ hx hy =>
      rw [← List.append_assoc]
      exact hy (hx hf)

theorem split {pre post : List Instr} {i : Instr} (h : Pieces P front (pre ++ i :: post))
    (hi : ∀ x, i ≠ .push x) :
    ∃ before xs, pre = before ++ Block.pushAll xs ∧ Pieces P front before ∧
    P (front ++ before) xs i := by
  generalize hc : pre ++ i :: post = code at h
  induction h generalizing pre post with
  | nil => simp at hc
  | @single front xs j h =>
      obtain ⟨rest, hr, hs⟩ | ⟨rest, hr, hs⟩ := List.append_eq_append_iff.mp hc
      · -- the instruction does not stand among the pushes
        cases rest with
        | nil =>
            cases hs
            exact ⟨[], xs, by simpa using hr.symm, .nil front, by simpa using h⟩
        | cons a rest =>
            cases hs
            have hmem : i ∈ Block.pushAll xs := by simp [hr]
            obtain ⟨x, _, hx⟩ := List.mem_map.mp hmem
            exact absurd hx.symm (hi x)
      · obtain ⟨rfl, hs⟩ := List.append_eq_singleton_iff.mp hs.symm |>.resolve_right (by simp)
        cases hs
        exact ⟨[], xs, by simpa using hr, .nil front, by simpa using h⟩
  | @append front xs ys hx hy ihx ihy =>
      obtain ⟨rest, rfl, hr⟩ | ⟨rest, rfl, hr⟩ := List.append_eq_append_iff.mp hc
      · cases rest with
        | nil =>
            obtain ⟨before, zs, hpre, _, hp⟩ := @ihy [] post hr
            obtain ⟨rfl, hz⟩ := List.append_eq_nil_iff.mp hpre.symm
            exact ⟨pre, zs, by rw [hz, List.append_nil], by simpa using hx, by simpa using hp⟩
        | cons j rest =>
            cases hr
            exact ihx rfl
      · obtain ⟨before, zs, rfl, hb, hp⟩ := ihy hr.symm
        exact ⟨xs ++ before, zs, by simp, .append hx hb, by simpa using hp⟩

end Pieces
end Code

namespace Draft

def Adds (P : List Instr → List String → Instr → Prop) (s t : Draft) : Prop :=
  ∃ code, Emits s t code ∧ Code.Pieces P s.code code

variable {P : List Instr → List String → Instr → Prop} {s t u : Draft}

theorem Adds.single (xs : List String) (i : Instr) (e : Emits s t (Block.pushAll xs ++ [i]))
    (h : P s.code xs i) :
    Adds P s t := ⟨_, e, .single xs i h⟩

theorem Adds.trans (h : Adds P s t) (k : Adds P t u) : Adds P s u := by
  obtain ⟨xs, ex, hx⟩ := h
  obtain ⟨ys, ey, hy⟩ := k
  rw [ex.code] at hy
  exact ⟨xs ++ ys, ex.trans ey, .append hx hy⟩

theorem Typed.named {x : String} {ty : Ty} (hx : s.Typed x ty) (hs : Moves .empty s) :
    ∃ n, ty = .named n := by
  have hv : ∀ v ∈ s.vars.declared, v.ty.isVoid = false := by
    clear hx
    induction hs with
    | refl => exact List.forall_mem_nil _
    | tail _ hm ih =>
        cases hm with
        | declare h =>
            obtain ⟨_, hty, rfl⟩ := Variables.declare_eq_ok h
            exact List.forall_mem_append.mpr ⟨ih, List.forall_mem_singleton.mpr hty⟩
        | mark =>
            rw [Variables.declared_markExported]
            exact ih
        | _ => exact ih
  obtain ⟨v, hf, rfl⟩ := hx
  have := hv v (List.mem_of_find?_eq_some hf)
  cases hty : v.ty with
  | void => rw [hty] at this; cases this
  | named n => exact ⟨n, rfl⟩

theorem exists_types {xs : List String} (h : ∀ x ∈ xs, s.vars.contains x) :
    ∃ tys, List.Forall₂ s.Typed xs tys := by
  induction xs with
  | nil => exact ⟨[], .nil⟩
  | cons x xs ih =>
      rw [List.forall_mem_cons] at h
      obtain ⟨ty, hx⟩ := exists_type h.1
      obtain ⟨tys, hxs⟩ := ih h.2
      exact ⟨ty :: tys, .cons hx hxs⟩

theorem Typed.of_check {x : String} {ty : Ty} (h : s.vars.check x ty = .agrees) : s.Typed x ty := by
  rw [Variables.check] at h
  split at h
  · cases h
  case h_2 v hv =>
    split at h
    case isTrue hty => exact ⟨v, hv, hty⟩
    case isFalse => cases h

end Draft

namespace Member

def inputs (m : Member) : List Ty :=
  (if m.kind = .method then [.named m.owner] else []) ++ m.args.map .named

/-- The types of all that is pushed for a member: what it is called on, and the variable for the
result if it has one. -/
def operands (m : Member) : List Ty :=
  m.inputs ++ (if m.toMethod.ret.isVoid then [] else [m.toMethod.ret])

end Member

theorem Member.answers_iff {m : Member} {kind : MemberKind} {owner name : String}
    {types : List Ty} :
    m.answers kind owner name types ↔
      m.kind = kind ∧ m.owner = owner ∧ m.name = name ∧ m.args.map Ty.named = types := by
  simp only [answers, Bool.and_eq_true, decide_eq_true_eq, and_assoc]

theorem Catalog.method?_eq_some {c : Catalog} {kind : MemberKind} {owner name : String}
    {types : List Ty} {f : Method} (h : c.method? kind owner name types = some f) :
    ∃ m ∈ c.members, m.toMethod = f ∧ m.kind = kind ∧ m.owner = owner ∧ m.name = name ∧
      m.args.map Ty.named = types := by
  obtain ⟨m, hm, rfl⟩ := Option.map_eq_some_iff.mp h
  have ha := List.find?_some hm
  exact ⟨m, List.mem_of_find?_eq_some hm, rfl, Member.answers_iff.mp ha⟩

/-- How a caller takes the result of a call off the stack. -/
def Block.Outcome.taken : Block.Outcome → List Instr
  | .none => []
  | .discard => [.pop]
  | .into y => [.push y, .copy]

theorem Block.collect_eq (r : Block.Outcome) : Block.collect r = r.taken := by
  cases r <;> rfl

namespace Module

/-- A call of the function `g` in the `k`-th statement: its arguments are in the variables `args` in
draft `u`, and the jump to its label `entry` is the last code of draft `v`. -/
def Calls (c : Catalog) (m : Module) (fs : Functions) (k : Nat) (st : Stmt) (g : Function)
    (x : String) (args : List String) (entry : Nat) (r : Block.Outcome) (u v : Draft) : Prop :=
  ∃ discard p q es o s t back w, m.Lowers c fs k st discard (.call p (.name q g.name) es) o s t ∧
    Lower.lowerValues ⟨c, fs, st.scope c⟩ es s = .ok args u ∧
    Lower.Site ⟨c, fs, st.scope c⟩ g x args entry back r u w v t

theorem Layout.of_calls {c : Catalog} {m : Module} {p : Program} {fs : Functions}
    {d : Nat → Draft} {k : Nat} {st : Stmt} {g : Function} {x : String} {args : List String}
    {entry : Nat} {r : Block.Outcome} {u v : Draft} (L : Layout c m p fs d)
    (h : m.Calls c fs k st g x args entry r u v) :
    g ∈ fs ∧ (d m.body.length).emitter.named.lookup (Names.functionId g.name g.types) = some entry ∧
      v.code = u.code ++ (Block.pushAll (Names.returnAddress :: (st.scope c).env ++ x :: args) ++
        [.jump (.label entry)]) ∧
      Code.size v.code = v.emitter.pc := by
  obtain ⟨discard, p, q, es, o, s, t, back, w, hlow, hargs, S⟩ := h
  obtain ⟨hs, ht⟩ := L.moves_during hlow.during
  have hw : Moves .empty w :=
    (hs.trans ((Lower.Along.lowerValues es).of_ok hargs)).trans S.begins.moves
  refine ⟨S.callee, (Moves.grows ((S.enter.trans S.leave).moves.trans ht)).named S.named, ?_,
    Moves.sized (hw.trans S.enter.moves) rfl⟩
  rw [S.enter.code, S.begins.code, List.append_nil, Block.enter_eq_single]

/-- What an instruction of the `k`-th statement is for, with the variables that are pushed for
it and all the code in front of them. Types are those that the variables have in the finished
draft `F`. -/
inductive Purpose (c : Catalog) (m : Module) (fs : Functions) (F : Draft) (k : Nat) (st : Stmt) :
    List Instr → List String → Instr → Prop
  | invoke {front f xs} (hf : f ∈ c.members) (hx : List.Forall₂ F.Typed xs f.operands) :
      Purpose c m fs F k st front xs (.invoke f.symbol xs.length)
  | truth {front f text x} (hf : c.method? .static "SystemBoolean" "Parse" [.string] = some f)
      (ht : F.Typed text .string) (hx : F.Typed x .boolean) :
      Purpose c m fs F k st front [text, x] (.invoke f.symbol 2)
  | assign {front x target e s t dst src ty} (h : m.Runs c fs k st x s t)
      (hx : x.assignment? = some (target, e))
      (hd : F.Typed dst ty) (hs : F.Typed src ty) (ht : t.code = front ++ Block.assign dst src) :
      Purpose c m fs F k st front [src, dst] .copy
  | cast {front discard p q name es s t dst src}
      (h : m.Lowers c fs k st discard (.call p (.name q name) es) (.var dst) s t)
      (hn : c.isType name)
      (hd : F.Typed dst (.named name)) (ht : t.code = front ++ Block.assign dst src) :
      Purpose c m fs F k st front [src, dst] .copy
  | slot {front p name params returns body slot param}
      (hst : st = .define p name params returns body)
      (he : Names.isEvent name) (hs : (slot, param) ∈ ((c.event? name).getD []).zip params) :
      Purpose c m fs F k st front [slot.name, Names.qualify name param.name] .copy
  | enter {front g x args entry r u v} (h : m.Calls c fs k st g x args entry r u v)
      (hu : u.code = front) :
      Purpose c m fs F k st front (Names.returnAddress :: (st.scope c).env ++ x :: args)
      (.jump (.label entry))
  | result {front g x args entry y u v} (h : m.Calls c fs k st g x args entry (.into y) u v)
      (hv : v.code = front) (hy : F.Typed y g.ret) : Purpose c m fs F k st front [y] .copy
  | drop {front g x args entry u v} (h : m.Calls c fs k st g x args entry .discard u v)
      (hv : v.code = front) :
      Purpose c m fs F k st front [] .pop
  | restore {front g x args entry r u v y} (h : m.Calls c fs k st g x args entry r u v)
      (hy : y ∈ Names.returnAddress :: (st.scope c).env) : Purpose c m fs F k st front [y] .copy
  | receive {front f y ty} (hf : st.function? c = some f) (hy : (y, ty) ∈ f.params.zip f.types)
      (ht : F.Typed y ty) :
      Purpose c m fs F k st front [y] .copy
  | origin {front} (hr : F.Typed Names.returnAddress .uint32) :
      Purpose c m fs F k st front [Names.returnAddress] .copy
  | test {front x l} (hx : F.Typed x .boolean) (hl : F.Private l) :
      Purpose c m fs F k st front [x] (.jumpIfFalse (.label l))
  | goto {front l} (hl : F.Private l) : Purpose c m fs F k st front [] (.jump (.label l))
  | halt {front} (hp : st.place c = .event) :
      Purpose c m fs F k st front [] (.jump (.addr haltAddress))
  | head {front} (name) : Purpose c m fs F k st front [] (.eventHead name)
  | start {front} : Purpose c m fs F k st front [] (.pushAddr haltAddress)
  | back {front} : Purpose c m fs F k st front [] (.jumpIndirect Names.returnAddress)
  | value {front p e s t x ret} (h : m.Runs c fs k st (.ret p (some e)) s t)
      (hp : st.place c = .function ret)
      (hx : F.Typed x ret) (ht : t.code = front ++ Block.exit Names.returnAddress (some x)) :
      Purpose c m fs F k st front [x] (.jumpIndirect Names.returnAddress)

theorem Purpose.ne_push {c : Catalog} {m : Module} {fs : Functions} {F : Draft}
    {k : Nat} {st : Stmt} {front : List Instr} {xs : List String} {i : Instr}
    (h : m.Purpose c fs F k st front xs i) (x : String) :
    i ≠ .push x := by
  rintro rfl
  cases h

end Module
end StackScript
