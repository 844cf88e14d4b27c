import Mathlib.Data.Nat.Find
import StackScript.Proofs.Lowering.Blocks
import StackScript.Proofs.Lowering.Declarations

namespace StackScript

/-- What an event does before its body: it sets the address to return to and takes its arguments. -/
def eventHead (c : Catalog) (name : String) (params : List Param) : List Instr :=
  .eventHead name :: (.pushAddr haltAddress :: Block.popInto Names.returnAddress ++
    Lower.receiveSlots c name params)

theorem target_eventHead {c : Catalog} {name : String} {params : List Param} :
    ∀ i ∈ eventHead c name params, i.target? = none := by
  rw [eventHead, List.forall_mem_cons, List.cons_append, List.forall_mem_cons,
    List.forall_mem_append]
  refine ⟨rfl, rfl, Block.target_popInto, fun i hi => ?_⟩
  obtain ⟨_, _, hi⟩ := List.mem_flatMap.mp hi
  exact Block.target_assign i hi

/-- The code of a statement that stands outside of all definitions, from an address on. -/
inductive Placed (c : Catalog) (fs : Functions) (F : Draft) : Nat → Stmt → List Instr → Prop
  | event {a b p name params returns body ys} (he : Names.isEvent name)
      (hb : b = a + Code.size (eventHead c name params)) (hy : Laid fs F .event b body ys) :
      Placed c fs F a (.define p name params returns body)
        (eventHead c name params ++ (ys ++ Block.halt))
  | function {a b p name params returns body f l ys}
      (hf : Stmt.function? c (.define p name params returns body) = some f)
      (hn : F.emitter.named.lookup (Names.functionId f.name f.types) = some l) (hl : F.Bound l a)
      (hb : b = a + Code.size (Block.popIntoAll f.params))
      (hy : Laid fs F (.function f.ret) b body ys)
      (hm : f ∈ fs) :
      Placed c fs F a (.define p name params returns body)
        (Block.popIntoAll f.params ++ (ys ++ Block.ret Names.returnAddress none))
  | loose {a st xs} (hs : ∀ p name params returns body, st ≠ .define p name params returns body)
      (hx : Laid fs F .module a [st] xs) : Placed c fs F a st xs

namespace Lower

open Draft

variable {c : Catalog} {fs : Functions} {s t : Draft}

theorem event_eq_ok {name : String} {params : List Param} {body : List Stmt} {u : Unit}
    (h : event c fs name params body s = .ok u t) :
    ∃ s₁ s₂, Emits s s₁ (eventHead c name params) ∧ s₁.vars = s.vars ∧
      Lowered ⟨c, fs, .event name⟩ body s₁ s₂ ∧ Emits s₂ t Block.halt := by
  simp only [event, bind_eq_ok] at h
  obtain ⟨_, u₁, h₁, _, u₂, h₂, _, s₁, h₃, _, s₂, hb, h₄⟩ := h
  refine ⟨s₁, s₂, ?_, ?_, lowered_block hb, emit_emits h₄⟩
  · exact (emit_emits h₁).trans ((emit_emits h₂).trans (emit_emits h₃))
  · rw [emit_vars h₃, emit_vars h₂, emit_vars h₁]

theorem event_emits {p : Pos} {name : String} {params : List Param} {returns : Option String}
    {body : List Stmt} {u : Unit} (he : Names.isEvent name)
    (h : event c fs name params body s = .ok u t) (hs : s.Numbered) :
    ∃ code, Emits s t code ∧ ∀ F, Moves t F →
      Placed c fs F s.emitter.pc (.define p name params returns body) code := by
  obtain ⟨s₁, s₂, eh, _, hb, et⟩ := event_eq_ok h
  obtain ⟨ys, ey, ly⟩ := hb.emits (eh.moves.numbered hs)
  exact ⟨_, eh.trans (ey.trans et), fun F hF => .event he eh.pc (ly F (et.moves.trans hF))⟩

theorem function?_of_ok {name : String} {params : List Param} {returns : Option String}
    {body : List Stmt} {u : Unit} (he : ¬ Names.isEvent name)
    (h : function c fs name params returns body s = .ok u t) :
    ∃ f, ∀ p, Stmt.function? c (.define p name params returns body) = some f := by
  simp only [function, bind_eq_ok, accept_eq_ok] at h
  obtain ⟨⟨types, ret⟩, _, ⟨hsig, rfl⟩, _⟩ := h
  exact ⟨_, fun p => by rw [Stmt.function?, if_neg he, hsig]⟩

theorem function_eq_ok {p : Pos} {name : String} {params : List Param} {returns : Option String}
    {body : List Stmt} {f : Function} {u : Unit}
    (hf : Stmt.function? c (.define p name params returns body) = some f)
    (hfs : fs.find? f.name f.types = some f)
    (h : function c fs name params returns body s = .ok u t) :
    ∃ l u₁ u₂ s₁ s₂, namedLabel (Names.functionId f.name f.types) s = .ok l u₁ ∧
    bindLabel l u₁ = .ok () u₂ ∧
      emit (Block.popIntoAll f.params) u₂ = .ok () s₁ ∧
      block ⟨c, fs, .function (Names.functionId f.name f.types) f.ret f.params⟩ body s₁ =
      .ok () s₂ ∧ emit (Block.ret Names.returnAddress none) s₂ = .ok () t := by
  simp only [function, bind_eq_ok, accept_eq_ok] at h
  obtain ⟨⟨types, ret⟩, _, ⟨hsig, rfl⟩, h⟩ := h
  obtain ⟨_, rfl, hsig', _⟩ := Stmt.function?_define hf
  rw [hsig] at hsig'
  cases hsig'
  rw [hfs] at h
  simp only [bind_eq_ok] at h
  obtain ⟨l, u₁, hl, _, u₂, hb, _, s₁, hp, _, s₂, hy, hr⟩ := h
  exact ⟨l, u₁, u₂, s₁, s₂, hl, hb, hp, hy, hr⟩

theorem function_emits {p : Pos} {name : String} {params : List Param} {returns : Option String}
    {body : List Stmt} {f : Function} {u : Unit}
    (hf : Stmt.function? c (.define p name params returns body) = some f)
    (hfs : fs.find? f.name f.types = some f)
    (h : function c fs name params returns body s = .ok u t) (hs : s.Numbered) :
    ∃ code, Emits s t code ∧ ∀ F, Moves t F →
      Placed c fs F s.emitter.pc (.define p name params returns body) code := by
  obtain ⟨l, s₁, s₂, s₃, s₄, hl, hb, hp, hy, hr⟩ := function_eq_ok hf hfs h
  obtain ⟨e₁, hn⟩ := namedLabel_emits hl
  obtain ⟨e₂, hbound, _⟩ := bindLabel_emits hb
  have e₃ : Emits s s₃ _ := e₁.skip (e₂.skip (emit_emits hp))
  obtain ⟨ys, ey, ly⟩ := (lowered_block hy).emits (e₃.moves.numbered hs)
  have er := emit_emits hr
  refine ⟨_, e₃.trans (ey.trans er), fun F hF => ?_⟩
  have hF₂ := ((emit_emits hp).trans (ey.trans er)).moves.trans hF
  refine .function hf ((Moves.grows (e₂.moves.trans hF₂)).named hn) ?_ e₃.pc
    (ly F (er.moves.trans hF)) (Functions.find?_eq_some hfs).1
  rw [← e₁.silent]
  exact (Moves.grows hF₂).bound hbound

theorem lowered_stmt {cx : Context} {st : Stmt} {u : Unit} (h : stmt cx st s = .ok u t) :
    Lowered cx [st] s t := by
  refine lowered_block (x := ()) ?_
  simp only [block, bind_eq_ok, located_eq_ok, pure_eq_ok]
  exact ⟨u, t, h, trivial, rfl⟩

theorem loose_emits {st : Stmt} {u : Unit}
    (hd : ∀ p name params returns body, st ≠ .define p name params returns body)
    (h : stmt ⟨c, fs, .module⟩ st s = .ok u t) (hs : s.Numbered) :
    ∃ code, Emits s t code ∧ ∀ F, Moves t F → Placed c fs F s.emitter.pc st code := by
  obtain ⟨xs, ex, lx⟩ := (lowered_stmt h).emits hs
  exact ⟨xs, ex, fun F hF => .loose hd (lx F hF)⟩

theorem Along.dataInit {R : Draft → Draft → Prop} [Closed R] (target e : Expr) :
    Along R (dataInit target e) := by
  rw [Lower.dataInit.eq_def]
  split
  · refine .bind (contains _) fun known => ?_
    split
    · exact pure _
    · refine .accept_bind (Expr.checks_literal? e) fun found hfound => ?_
      split
      · exact pure _
      · exact .bind (declare (Expr.literal?_settled hfound _)) fun _ => pure _
  · exact pure _

theorem topLevel_emits {st : Stmt} {u : Unit}
    (hfs : ∀ f, st.function? c = some f → fs.find? f.name f.types = some f)
    (h : topLevel c fs st s = .ok u t) (hs : s.Numbered) :
    ∃ code, Emits s t code ∧ ∀ F, Moves t F → Placed c fs F s.emitter.pc st code := by
  cases st with
  | define p name params returns body =>
      rw [topLevel] at h
      split at h
      case isTrue he => exact event_emits he h hs
      case isFalse he =>
        obtain ⟨f, hf⟩ := function?_of_ok he h
        exact function_emits (hf p) (hfs f (hf p)) h hs
  | assign p target e =>
      rw [topLevel] at h
      obtain ⟨b, s₁, hi, h⟩ := bind_eq_ok.mp h
      have ei : Emits s s₁ [] := Still.emits ((Along.dataInit target e).of_ok hi)
      cases b with
      | true =>
          obtain ⟨_, rfl⟩ := pure_eq_ok.mp h
          refine ⟨[], ei, fun F _ => .loose (by simp) ?_⟩
          exact Laid.plain rfl (.nil : Straight fs F []) (.nil _)
      | false =>
          obtain ⟨xs, ex, px⟩ := loose_emits (by simp) h (ei.moves.numbered hs)
          refine ⟨xs, ei.skip ex, fun F hF => ?_⟩
          rw [← ei.silent]
          exact px F hF
  | _ => exact loose_emits (by simp) h hs

theorem topLevelAll_append (xs ys : List Stmt) :
    topLevelAll c fs (xs ++ ys) = (do topLevelAll c fs xs; topLevelAll c fs ys) := by
  induction xs with
  | nil => simp [topLevelAll]
  | cons x xs ih => simp [topLevelAll, ih]

theorem finish_eq_ok {p : Program} (h : finish c s = .ok p t) :
    ∃ exports vars, s.vars.dataSegment c = .ok (exports, vars) ∧
      (s.emitter.toProgram exports vars).link = .ok p := by
  simp only [finish, bind_eq_ok, get_eq_ok, accept_eq_ok] at h
  obtain ⟨_, _, ⟨rfl, rfl⟩, ⟨exports, vars⟩, _, ⟨hd, rfl⟩, _, _, _, h⟩ := h
  refine ⟨exports, vars, hd, ?_⟩
  cases hl : (s.emitter.toProgram exports vars).link with
  | error f => rw [hl] at h; cases h
  | ok q =>
      rw [hl] at h
      obtain ⟨_, _, _, hp⟩ := bind_eq_ok.mp h
      rw [(pure_eq_ok.mp hp).1]

theorem dataSegment_parts {exports : List String} {vars : List DataVar}
    (h : s.vars.dataSegment c = .ok (exports, vars)) :
    exports = s.vars.exported ∧ (∀ x ∈ exports, s.vars.contains x) ∧
      s.vars.declared.mapM (Variables.dataVar c) = .ok vars := by
  rw [Variables.dataSegment] at h
  split at h
  case h_1 => cases h
  case h_2 hknown =>
    cases hm : s.vars.declared.mapM (Variables.dataVar c) with
    | error d => rw [hm] at h; cases h
    | ok ws =>
        rw [hm] at h
        cases h
        exact ⟨rfl, fun x hx => by simpa using List.find?_eq_none.mp hknown x hx, rfl⟩

theorem dataSegment_eq_ok {exports : List String} {vars : List DataVar}
    (h : s.vars.dataSegment c = .ok (exports, vars)) :
    List.Forall₂ (fun v w => c.machineType? v.ty.name = some w.machineType ∧ w.name = v.name ∧
      w.init = v.init)
      s.vars.declared vars := by
  refine (forall₂_of_mapM (dataSegment_parts h).2.2).imp fun v w hvw => ?_
  rw [Variables.dataVar] at hvw
  split at hvw
  case h_1 hty =>
    cases hvw
    exact ⟨hty, rfl, rfl⟩
  case h_2 => cases hvw

def upTo (c : Catalog) (m : Module) (k : Nat) : Lower Functions := do
  let fs ← header c m
  topLevelAll c fs (m.body.take k)
  return fs

theorem upTo_eq_ok {m : Module} {k : Nat} :
    upTo c m k s = .ok fs t ↔ ∃ s₀, header c m s = .ok fs s₀ ∧
    topLevelAll c fs (m.body.take k) s₀ = .ok () t := by
  simp only [upTo, bind_eq_ok, pure_eq_ok]
  constructor
  · rintro ⟨_, s₀, hh, _, _, ht, rfl, rfl⟩
    exact ⟨s₀, hh, ht⟩
  · rintro ⟨s₀, hh, ht⟩
    exact ⟨fs, s₀, hh, (), t, ht, rfl, rfl⟩

end Lower

/-- A variable of a draft, and the same variable in the program: one that waits for the address of a
label has got it. -/
structure Variable.Becomes (c : Catalog) (labels : List Label) (v : Variable) (w : DataVar) :
    Prop where
  machine : c.machineType? v.ty.name = some w.machineType
  name : w.name = v.name
  init : (∀ l, v.init ≠ .label l) ∧ w.init = v.init ∨
    ∃ l a, v.init = .label l ∧ Label.address labels l = .ok a ∧ w.init = .addr a

theorem Variable.becomes_of_resolve {c : Catalog} {labels : List Label} {vs : List Variable}
    {us ws : List DataVar}
    (h : List.Forall₂ (fun v u => c.machineType? v.ty.name = some u.machineType ∧ u.name = v.name ∧
      u.init = v.init) vs us)
    (k : List.Forall₂ (fun u w => u.resolve labels = .ok w) us ws) :
    List.Forall₂ (Becomes c labels) vs ws := by
  induction h generalizing ws with
  | nil => cases k; exact .nil
  | cons hv _ ih =>
      cases k with
      | cons hw k =>
          refine .cons ?_ (ih k)
          obtain ⟨hty, hname, hinit⟩ := hv
          obtain ⟨hi, rfl⟩ | ⟨l, a, hl, ha, rfl⟩ := DataVar.resolve_cases hw
          · exact ⟨hty, hname, .inl ⟨hinit ▸ hi, hinit⟩⟩
          · exact ⟨hty, hname, .inr ⟨l, a, hinit ▸ hl, ha, rfl⟩⟩

namespace Module

open Draft

variable {c : Catalog} {m : Module} {fs : Functions} {s t : Draft} {k n : Nat}

/-- The functions of a module, and the draft when its first `k` statements have been lowered. -/
def lowered (c : Catalog) (m : Module) (k : Nat) : Option (Functions × Draft) :=
  match Lower.upTo c m k .empty with
  | .ok fs s => some (fs, s)
  | .error _ _ => none

theorem lowered_eq_some : m.lowered c k = some (fs, s) ↔ Lower.upTo c m k .empty = .ok fs s := by
  rw [lowered]
  split
  case h_1 h => simp [h]
  case h_2 h => simp [h]

theorem lowered_of_le (h : m.lowered c n = some (fs, t)) (hk : k ≤ n) :
    ∃ s, m.lowered c k = some (fs, s) ∧ Lower.topLevelAll c fs ((m.body.take n).drop k) s =
    .ok () t := by
  obtain ⟨s₀, hh, ht⟩ := Lower.upTo_eq_ok.mp (lowered_eq_some.mp h)
  have htake := List.take_append_drop k (m.body.take n)
  rw [List.take_take, Nat.min_eq_left hk] at htake
  rw [← htake, Lower.topLevelAll_append] at ht
  obtain ⟨_, s, hs, ht⟩ := Lower.bind_eq_ok.mp ht
  exact ⟨s, lowered_eq_some.mpr (Lower.upTo_eq_ok.mpr ⟨s₀, hh, hs⟩), ht⟩

theorem topLevel_of_lowered {st : Stmt} (hs : m.lowered c k = some (fs, s))
    (ht : m.lowered c (k + 1) = some (fs, t)) (hst : m.body[k]? = some st) :
    Lower.topLevel c fs st s = .ok () t := by
  obtain ⟨s', hs', hd⟩ := lowered_of_le ht (Nat.le_succ k)
  obtain rfl : s = s' := by simpa [hs] using hs'
  have hdrop : (m.body.take (k + 1)).drop k = [st] := by
    obtain ⟨hk, hget⟩ := List.getElem?_eq_some_iff.mp hst
    rw [List.drop_take, List.drop_eq_getElem_cons hk, hget]
    simp
  rw [hdrop] at hd
  simp only [Lower.topLevelAll, Lower.bind_eq_ok, Lower.located_eq_ok, Lower.pure_eq_ok] at hd
  obtain ⟨_, _, h, _, rfl⟩ := hd
  exact h

theorem header_of_lowered (h : m.lowered c k = some (fs, s)) :
    ∃ s₀, m.lowered c 0 = some (fs, s₀) ∧ Still .empty s₀ ∧
      fs = m.body.filterMap (Stmt.function? c) ∧ fs.Distinct := by
  obtain ⟨s₀, hs₀, _⟩ := lowered_of_le h (Nat.zero_le k)
  obtain ⟨s₁, hh, ht⟩ := Lower.upTo_eq_ok.mp (lowered_eq_some.mp hs₀)
  obtain rfl : s₁ = s₀ := by simpa [Lower.topLevelAll, Lower.pure_eq_ok] using ht
  exact ⟨s₁, hs₀, Lower.header_eq_ok c hh⟩

theorem find?_of_lowered (h : m.lowered c k = some (fs, s)) {st : Stmt} (hst : st ∈ m.body)
    {f : Function} (hf : st.function? c = some f) : fs.find? f.name f.types = some f := by
  obtain ⟨_, _, _, rfl, hdist⟩ := header_of_lowered h
  exact hdist.find? (List.mem_filterMap.mpr ⟨st, hst, hf⟩)

theorem emits_of_lowered {st : Stmt} (hs : m.lowered c k = some (fs, s))
    (ht : m.lowered c (k + 1) = some (fs, t)) (hst : m.body[k]? = some st) (hn : s.Numbered) :
    ∃ code, Emits s t code ∧ ∀ F, Moves t F → Placed c fs F s.emitter.pc st code := by
  have hfs f (hf : st.function? c = some f) := find?_of_lowered hs (List.mem_of_getElem? hst) hf
  exact Lower.topLevel_emits hfs (topLevel_of_lowered hs ht hst) hn

theorem numbered_of_lowered (h : m.lowered c k = some (fs, s)) (hk : k ≤ m.body.length) :
    s.Numbered := by
  induction k generalizing s with
  | zero =>
      obtain ⟨s₀, hs₀, e, _⟩ := header_of_lowered h
      obtain rfl : s = s₀ := by simpa [h] using hs₀
      exact Moves.numbered e.emits.moves numbered_empty
  | succ k ih =>
      obtain ⟨u, hu, _⟩ := lowered_of_le h (Nat.le_succ k)
      have hn := ih hu (Nat.le_of_succ_le hk)
      obtain ⟨code, e, _⟩ := emits_of_lowered hu h (List.getElem?_eq_getElem hk) hn
      exact e.moves.numbered hn

theorem moves_of_lowered (hs : m.lowered c k = some (fs, s)) (ht : m.lowered c n = some (fs, t))
    (hkn : k ≤ n) (hn : n ≤ m.body.length) : Moves s t := by
  induction n, hkn using Nat.le_induction generalizing t with
  | base =>
      obtain rfl : s = t := by simpa [hs] using ht
      exact .refl
  | succ n hkn ih =>
      obtain ⟨u, hu, _⟩ := lowered_of_le ht (Nat.le_succ n)
      have hnum := numbered_of_lowered hu (Nat.le_of_succ_le hn)
      obtain ⟨code, e, _⟩ := emits_of_lowered hu ht (List.getElem?_eq_getElem hn) hnum
      exact (ih hu (Nat.le_of_succ_le hn)).trans e.moves

theorem finished_of_compile {p : Program} (h : m.compile c = .ok p) :
    ∃ fs F t, m.lowered c m.body.length = some (fs, F) ∧ Lower.finish c F = .ok p t := by
  have hm : ∃ s, Lower.module c m .empty = .ok p s := by
    rw [compile, compileNoted] at h
    split at h
    · cases h
      exact ⟨_, ‹_›⟩
    · cases h
  obtain ⟨s, hm⟩ := hm
  rw [Lower.module_eq] at hm
  simp only [Lower.bind_eq_ok] at hm
  obtain ⟨fs, s₀, hh, _, F, ht, hf⟩ := hm
  exact ⟨fs, F, s, lowered_eq_some.mpr (Lower.upTo_eq_ok.mpr ⟨s₀, hh, by rwa [List.take_length]⟩),
    hf⟩

theorem lowered_of_compile {p : Program} (h : m.compile c = .ok p) :
    ∃ fs F, m.lowered c m.body.length = some (fs, F) ∧ p.labels = F.emitter.labels.toList ∧
      Linked p.labels F.code p.code ∧
      List.Forall₂ (Variable.Becomes c p.labels) F.vars.declared p.vars := by
  obtain ⟨fs, F, t, hF, hf⟩ := finished_of_compile h
  obtain ⟨exports, vars, hdata, hlink⟩ := Lower.finish_eq_ok hf
  obtain ⟨code, ws, rfl, hcode, hvars⟩ := Program.link_eq_ok hlink
  exact ⟨fs, F, hF, rfl, hcode, Variable.becomes_of_resolve (Lower.dataSegment_eq_ok hdata) hvars⟩

/-- Where everything of a module is: `d k` is the draft before its `k`-th statement. -/
structure Sketch (c : Catalog) (m : Module) (fs : Functions) (d : Nat → Draft) : Prop where
  lowered : ∀ k ≤ m.body.length, m.lowered c k = some (fs, d k)
  functions : fs = m.body.filterMap (Stmt.function? c)
  distinct : fs.Distinct
  begins : Still .empty (d 0)
  placed : ∀ {k st}, m.body[k]? = some st → ∃ code, Emits (d k) (d (k + 1)) code ∧
    Placed c fs (d m.body.length) (d k).emitter.pc st code
  numbered : ∀ {k}, k ≤ m.body.length → (d k).Numbered

theorem sketch_of_lowered {F : Draft} (hF : m.lowered c m.body.length = some (fs, F)) :
    ∃ d, Sketch c m fs d ∧ d m.body.length = F := by
  obtain ⟨s₀, hs₀, e₀, hfs, hdist⟩ := header_of_lowered hF
  -- the drafts on the way are there, since the last one is
  let d (k : Nat) : Draft := ((m.lowered c k).map Prod.snd).getD .empty
  have hd : ∀ k ≤ m.body.length, m.lowered c k = some (fs, d k) := by
    intro k hk
    obtain ⟨s, hs, _⟩ := lowered_of_le hF hk
    rw [hs]
    simp [d, hs]
  have hd₀ : s₀ = d 0 := by simpa [hs₀] using hd 0 (Nat.zero_le _)
  have hdF : F = d m.body.length := by simpa [hF] using hd _ le_rfl
  have hn : ∀ k ≤ m.body.length, (d k).Numbered := fun k hk => numbered_of_lowered (hd k hk) hk
  refine ⟨d, ⟨hd, hfs, hdist, hd₀ ▸ e₀, fun {k st} hst => ?_, fun {k} => hn k⟩, hdF.symm⟩
  have hk := (List.getElem?_eq_some_iff.mp hst).1
  obtain ⟨code, e, hp⟩ := emits_of_lowered (hd k hk.le) (hd (k + 1) hk) hst (hn k hk.le)
  exact ⟨code, e, hp _ (moves_of_lowered (hd (k + 1) hk) (hd _ le_rfl) hk le_rfl)⟩

/-- The same for a module that is compiled to `p`. -/
structure Layout (c : Catalog) (m : Module) (p : Program) (fs : Functions) (d : Nat → Draft) : Prop
    extends Sketch c m fs d where
  labels : p.labels = (d m.body.length).emitter.labels.toList
  linked : Linked p.labels (d m.body.length).code p.code
  vars : List.Forall₂ (Variable.Becomes c p.labels) (d m.body.length).vars.declared p.vars

theorem layout_of_compile {p : Program} (h : m.compile c = .ok p) : ∃ fs d, Layout c m p fs d := by
  obtain ⟨fs, F, hF, hlabels, hlinked, hvars⟩ := lowered_of_compile h
  obtain ⟨d, K, rfl⟩ := sketch_of_lowered hF
  exact ⟨fs, d, K, hlabels, hlinked, hvars⟩

theorem Layout.data {p : Program} {d : Nat → Draft} (L : Layout c m p fs d) {v : Variable}
    (hv : v ∈ (d m.body.length).vars.declared) (hi : ∀ id, v.init ≠ .label id) :
    ∃ w ∈ p.vars, w.name = v.name ∧ w.init = v.init := by
  obtain ⟨w, hw, _, hname, ⟨_, hinit⟩ | ⟨l, _, hl, _⟩⟩ := exists_of_mem_forall₂ L.vars hv
  · exact ⟨w, hw, hname, hinit⟩
  · exact absurd hl (hi l)

/-- The number of the statement that an address belongs to. -/
def statementAt (m : Module) (d : Nat → Draft) (x : Nat) : Nat :=
  Nat.findGreatest (fun k => (d k).emitter.pc ≤ x) m.body.length

namespace Sketch

open Code

variable {d : Nat → Draft} (K : Sketch c m fs d)
include K

theorem moves {j k : Nat} (hjk : j ≤ k) (hk : k ≤ m.body.length) : Moves (d j) (d k) :=
  moves_of_lowered (K.lowered j (hjk.trans hk)) (K.lowered k hk) hjk hk

theorem moves_empty {k : Nat} (hk : k ≤ m.body.length) : Moves .empty (d k) :=
  K.begins.emits.moves.trans (K.moves (Nat.zero_le k) hk)

theorem header : Lower.header c m .empty = .ok fs (d 0) := by
  obtain ⟨s₀, hh, ht⟩ := Lower.upTo_eq_ok.mp (lowered_eq_some.mp (K.lowered 0 (Nat.zero_le _)))
  obtain ⟨_, rfl⟩ := Lower.pure_eq_ok.mp ht
  exact hh

theorem known {k : Nat} (hk : k ≤ m.body.length) :
    (d k).vars.contains Names.returnAddress ∧ Lower.Known fs (d k) := by
  obtain ⟨hret, hparams⟩ := Lower.header_known c K.header
  have hm := K.moves (Nat.zero_le k) hk
  exact ⟨hm.contains hret, hparams.moves hm⟩

theorem typed_iff {x : String} {ty : Ty} {k : Nat} (hx : ((m.announces c).lookup x).isSome)
    (hk : k ≤ m.body.length) :
    (d k).Typed x ty ↔ (m.announces c).lookup x = some ty := by
  obtain ⟨ty₀, hx⟩ := Option.isSome_iff_exists.mp hx
  have h₀ : (d 0).Typed x ty₀ := (Lower.header_typed c K.header).mpr hx
  have hty := h₀.moves (K.moves (Nat.zero_le k) hk)
  rw [hx, Option.some.injEq]
  constructor
  · exact hty.unique
  · rintro rfl
    exact hty

theorem returnAddress_typed {k : Nat} (hk : k ≤ m.body.length) :
    (d k).Typed Names.returnAddress .uint32 :=
  (K.typed_iff rfl hk).mpr rfl

theorem params {f : Function} {k : Nat} (hf : f ∈ fs) (hk : k ≤ m.body.length) :
    List.Forall₂ (d k).Typed f.params f.types :=
  (Lower.header_params c K.header f hf).imp fun _ _ h => Typed.moves h (K.moves (Nat.zero_le k) hk)

theorem code_zero : (d 0).code = [] := K.begins.emits.code

theorem pc_zero : (d 0).emitter.pc = 0 := K.begins.emits.pc

theorem size_code {k : Nat} (hk : k ≤ m.body.length) : size (d k).code = (d k).emitter.pc :=
  Moves.sized (K.moves_empty hk) rfl

theorem pc_le {j k : Nat} (hjk : j ≤ k) (hk : k ≤ m.body.length) :
    (d j).emitter.pc ≤ (d k).emitter.pc := by
  obtain ⟨rest, hrest⟩ := (Moves.grows (K.moves hjk hk)).code
  rw [← K.size_code (hjk.trans hk), ← K.size_code hk, ← hrest, size_append]
  omega

theorem entry_bound {k l : Nat} {st : Stmt} {f : Function} (hk : m.body[k]? = some st)
    (hf : st.function? c = some f)
    (hl : (d m.body.length).emitter.named.lookup (Names.functionId f.name f.types) = some l) :
    (d m.body.length).Bound l (d k).emitter.pc ∧ (d k).emitter.pc < (d (k + 1)).emitter.pc := by
  obtain ⟨code, e, hp⟩ := K.placed hk
  cases hp with
  | event he => rw [Stmt.function?, if_pos he] at hf; cases hf
  | function hg hn hb =>
      rw [hg] at hf
      cases hf
      rw [hn] at hl
      cases hl
      refine ⟨hb, ?_⟩
      rw [e.pc]
      simp only [size_append, Block.ret, Block.popInto, size_cons, Instr.width]
      omega
  | loose hs =>
      cases st with
      | define p name params returns body => exact absurd rfl (hs p name params returns body)
      | _ => cases hf

theorem mem_functions {k : Nat} {st : Stmt} {f : Function} (hk : m.body[k]? = some st)
    (hf : st.function? c = some f) : f ∈ fs := by
  rw [K.functions]
  exact List.mem_filterMap.mpr ⟨st, List.mem_of_getElem? hk, hf⟩

theorem exists_define {f : Function} (hf : f ∈ fs) :
    ∃ (k : Nat) (st : Stmt), m.body[k]? = some st ∧ st.function? c = some f := by
  rw [K.functions] at hf
  obtain ⟨st, hst, hf⟩ := List.mem_filterMap.mp hf
  obtain ⟨k, hk⟩ := List.mem_iff_getElem?.mp hst
  exact ⟨k, st, hk, hf⟩

theorem at_code {k : Nat} {code : List Instr} (hk : k < m.body.length)
    (e : Emits (d k) (d (k + 1)) code) :
    Code.At (d m.body.length).code (d k).emitter.pc code := by
  obtain ⟨post, hpost⟩ := (Moves.grows (K.moves hk le_rfl)).code
  refine ⟨(d k).code, post, ?_, K.size_code hk.le⟩
  rw [← hpost, e.code, List.append_assoc]

theorem statementAt_eq {k x : Nat} (hk : k < m.body.length) (ha : (d k).emitter.pc ≤ x)
    (hb : x < (d (k + 1)).emitter.pc) : statementAt m d x = k := by
  refine Nat.findGreatest_eq_iff.mpr ⟨hk.le, fun _ => ha, fun n hn hle hx => ?_⟩
  have hpc : (d (k + 1)).emitter.pc ≤ (d n).emitter.pc := K.pc_le hn hle
  omega

theorem exists_statement {x : Nat} (hx : x < (d m.body.length).emitter.pc) :
    ∃ (k : Nat) (st : Stmt), m.body[k]? = some st ∧ (d k).emitter.pc ≤ x ∧
    x < (d (k + 1)).emitter.pc := by
  have hle : (d (statementAt m d x)).emitter.pc ≤ x :=
    Nat.findGreatest_spec (P := fun k => (d k).emitter.pc ≤ x) (Nat.zero_le _) (by simp [K.pc_zero])
  have hk : statementAt m d x < m.body.length := by
    refine lt_of_le_of_ne (Nat.findGreatest_le _) fun he => ?_
    rw [he] at hle
    omega
  refine ⟨_, _, List.getElem?_eq_getElem hk, hle, not_le.mp ?_⟩
  exact Nat.findGreatest_is_greatest (P := fun k => (d k).emitter.pc ≤ x) (Nat.lt_succ_self _) hk

end Sketch
end Module
end StackScript
