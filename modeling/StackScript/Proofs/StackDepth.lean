import StackScript.Proofs.StackContents
import StackScript.Script.Build

namespace StackScript

namespace Lower

variable (cx : Context)

/-- The lowering of some statements, from draft `s` to draft `t`, passes the statement `x`, which
may be part of one of them, from draft `u` to draft `v`. -/
inductive Visits : List Stmt → Draft → Draft → Stmt → Draft → Draft → Prop
  | head {st ss s t w} (h : stmt cx st s = .ok () t) (hr : block cx ss t = .ok () w) :
      Visits (st :: ss) s w st s t
  | tail {st ss s t w x u v} (h : stmt cx st s = .ok () t) (hv : Visits ss t w x u v) :
      Visits (st :: ss) s w x u v
  | body {p test body orelse ss s s₀ s₁ s₂ s₃ s₄ t w labels e x u v} (hn : note e s = .ok () s₀)
      (hh : branchHead cx test s₀ = .ok labels s₁) (hv : Visits body s₁ s₂ x u v)
      (ht : branchTurn labels s₂ = .ok () s₃) (ho : block cx orelse s₃ = .ok () s₄)
      (he : bindLabel labels.2 s₄ = .ok () t) (hr : block cx ss t = .ok () w) :
      Visits (.branch p test body orelse :: ss) s w x u v
  | orelse {p test body orelse ss s s₀ s₁ s₂ s₃ s₄ t w labels e x u v} (hn : note e s = .ok () s₀)
      (hh : branchHead cx test s₀ = .ok labels s₁) (hb : block cx body s₁ = .ok () s₂)
      (ht : branchTurn labels s₂ = .ok () s₃) (hv : Visits orelse s₃ s₄ x u v)
      (he : bindLabel labels.2 s₄ = .ok () t) (hr : block cx ss t = .ok () w) :
      Visits (.branch p test body orelse :: ss) s w x u v
  | loop {p test body ss s s₀ s₁ s₂ t w labels e x u v} (hn : note e s = .ok () s₀)
      (hh : loopHead cx test s₀ = .ok labels s₁) (hv : Visits body s₁ s₂ x u v)
      (ht : loopTail labels s₂ = .ok () t) (hr : block cx ss t = .ok () w) :
      Visits (.loop p test body [] :: ss) s w x u v

inductive Passes (c : Catalog) (fs : Functions) : Stmt → Draft → Draft → Stmt → Draft → Draft → Prop
  | event {p name params returns body s s₁ s₂ s₃ s₄ t x u v} (he : Names.isEvent name)
      (h₁ : emit [.eventHead name] s = .ok () s₁)
      (h₂ : emit (.pushAddr haltAddress :: Block.popInto Names.returnAddress) s₁ = .ok () s₂)
      (h₃ : emit (receiveSlots c name params) s₂ = .ok () s₃)
      (hv : Visits ⟨c, fs, .event name⟩ body s₃ s₄ x u v) (ht : emit Block.halt s₄ = .ok () t) :
      Passes c fs (.define p name params returns body) s t x u v
  | function {p name params returns body f l s s₁ s₂ s₃ s₄ t x u v}
      (hf : Stmt.function? c (.define p name params returns body) = some f)
      (h₁ : namedLabel (Names.functionId f.name f.types) s = .ok l s₁)
      (h₂ : bindLabel l s₁ = .ok () s₂)
      (h₃ : emit (Block.popIntoAll f.params) s₂ = .ok () s₃)
      (hv : Visits ⟨c, fs, .function (Names.functionId f.name f.types) f.ret f.params⟩
        body s₃ s₄ x u v)
      (ht : emit (Block.ret Names.returnAddress none) s₄ = .ok () t) :
      Passes c fs (.define p name params returns body) s t x u v
  | loose {st s t x u v}
      (hs : ∀ p name params returns body, st ≠ .define p name params returns body)
      (hv : Visits ⟨c, fs, .module⟩ [st] s t x u v) : Passes c fs st s t x u v

end Lower

def Draft.Level (fs : Functions) (frame : List Source) (s t : Draft) : Prop :=
  ∃ code, Emits s t code ∧
    ∀ F, Moves t F → F.Entered fs → Code.stack (F.callee fs) frame code = frame

namespace Draft.Level

variable {fs : Functions} {frame : List Source} {s t u : Draft}

theorem refl (s : Draft) : Level fs frame s s := ⟨[], .refl s, fun _ _ _ => rfl⟩

theorem trans (h : Level fs frame s t) (k : Level fs frame t u) : Level fs frame s u := by
  obtain ⟨xs, ex, hx⟩ := h
  obtain ⟨ys, ey, hy⟩ := k
  refine ⟨xs ++ ys, ex.trans ey, fun F hF hE => ?_⟩
  rw [Code.stack_append, hx F (ey.moves.trans hF) hE, hy F hF hE]

theorem of_silent (h : Emits s t []) : Level fs frame s t := ⟨[], h, fun _ _ _ => rfl⟩

theorem moves (h : Level fs frame s t) : Moves s t := h.choose_spec.1.moves

theorem after {F v : Draft} {start : List Source} {xs : List Instr} (h : Level fs frame t u)
    (e : Emits s t xs) (hx : Code.stack (F.callee fs) start xs = frame) (hv : Moves u v)
    (hF : Moves v F) (hE : F.Entered fs) :
    ∃ code, Emits s u code ∧ Moves u v ∧ Code.stack (F.callee fs) start code = frame := by
  obtain ⟨ys, ey, hy⟩ := h
  exact ⟨xs ++ ys, e.trans ey, hv, by rw [Code.stack_append, hx, hy F (hv.trans hF) hE]⟩

end Draft.Level

namespace Lower

open Draft

variable {cx : Context} {s t : Draft}

theorem block_level {ss : List Stmt} (h : Lowered cx ss s t) (hs : s.Numbered) :
    Level cx.functions cx.scope.place.frame s t := by
  obtain ⟨code, e, hl⟩ := h.emits hs
  exact ⟨code, e, fun F hF hE => ((hl F hF).climbs hE).stack⟩

theorem branchHead_level {test : Expr} {labels : Nat × Nat}
    (h : branchHead cx test s = .ok labels t) (hs : s.Numbered) :
    Level cx.functions cx.scope.place.frame s t ∧ ∀ F, Moves t F → F.Private labels.2 := by
  obtain ⟨xs, x, e, hx⟩ := branchHead_emits h hs
  refine ⟨⟨_, e, fun F hF hE => ?_⟩, fun F hF => (hx F hF).2.2⟩
  rw [Code.stack_append, (hx F hF).1.stack hE]
  rfl

theorem branchTurn_level {fs : Functions} {frame : List Source} {labels : Nat × Nat}
    (h : branchTurn labels s = .ok () t) (hp : ∀ F, Moves t F → F.Private labels.2) :
    Level fs frame s t := by
  refine ⟨_, (branchTurn_emits h).1, fun F hF _ => ?_⟩
  have hc : Code.Climbs fs F (fun _ => False) frame frame (Block.goto labels.2) frame :=
    climbs_goto (hp F hF).callee
  exact hc.stack

theorem loopHead_level {test : Expr} {labels : Nat × Nat} (h : loopHead cx test s = .ok labels t)
    (hs : s.Numbered) : Level cx.functions cx.scope.place.frame s t := by
  obtain ⟨_, xs, x, e, hx⟩ := loopHead_emits h hs
  refine ⟨_, e, fun F hF hE => ?_⟩
  rw [Code.stack_append, (hx F hF).1.stack hE]
  rfl

theorem Visits.level {ss : List Stmt} {x : Stmt} {u v w : Draft} (hv : Visits cx ss s w x u v)
    (hs : s.Numbered) :
    Level cx.functions cx.scope.place.frame s u ∧ Level cx.functions cx.scope.place.frame u v ∧
    Moves v w := by
  induction hv with
  | @head st ss s t w h hr =>
      have ht := block_level (lowered_stmt h) hs
      exact ⟨.refl s, ht, (block_level (lowered_block hr) (Moves.numbered ht.moves hs)).moves⟩
  | tail h _ ih =>
      have ht := block_level (lowered_stmt h) hs
      obtain ⟨hu, hv⟩ := ih (Moves.numbered ht.moves hs)
      exact ⟨ht.trans hu, hv⟩
  | body hn hh _ ht ho he hr ih =>
      have en := note_emits hn
      have hs₀ := en.moves.numbered hs
      obtain ⟨hl, -⟩ := branchHead_level hh hs₀
      have hs₁ := hl.moves.numbered hs₀
      obtain ⟨hu, hv, hm⟩ := ih hs₁
      have h₃ := hm.trans (branchTurn_emits ht).1.moves
      have hs₃ := Moves.numbered ((hu.trans hv).moves.trans h₃) hs₁
      have h₄ := (block_level (lowered_block ho) hs₃).moves.trans (bindLabel_emits he).1.moves
      have hrest := (block_level (lowered_block hr) (Moves.numbered h₄ hs₃)).moves
      exact ⟨(Level.of_silent en).trans (hl.trans hu), hv, h₃.trans (h₄.trans hrest)⟩
  | orelse hn hh hb ht _ he hr ih =>
      have en := note_emits hn
      have hs₀ := en.moves.numbered hs
      obtain ⟨hl, hp⟩ := branchHead_level hh hs₀
      have hs₁ := hl.moves.numbered hs₀
      have hb := block_level (lowered_block hb) hs₁
      have et := (branchTurn_emits ht).1.moves
      have ht : Level cx.functions cx.scope.place.frame _ _ :=
        branchTurn_level ht fun F hF => hp F (hb.moves.trans (et.trans hF))
      have hs₃ := Moves.numbered (hb.moves.trans et) hs₁
      obtain ⟨hu, hv, hm⟩ := ih hs₃
      have h₄ := hm.trans (bindLabel_emits he).1.moves
      have hrest :=
        (block_level (lowered_block hr) (Moves.numbered ((hu.trans hv).moves.trans h₄) hs₃)).moves
      exact ⟨(Level.of_silent en).trans (hl.trans (hb.trans (ht.trans hu))), hv, h₄.trans hrest⟩
  | loop hn hh _ ht hr ih =>
      have en := note_emits hn
      have hs₀ := en.moves.numbered hs
      have hl := loopHead_level hh hs₀
      have hs₁ := hl.moves.numbered hs₀
      obtain ⟨hu, hv, hm⟩ := ih hs₁
      have h₃ := hm.trans (loopTail_emits ht).1.moves
      have hrest :=
        (block_level (lowered_block hr) (Moves.numbered ((hu.trans hv).moves.trans h₃) hs₁)).moves
      exact ⟨(Level.of_silent en).trans (hl.trans hu), hv, h₃.trans hrest⟩

/-- From the begin of a statement outside of all definitions up to a statement inside it, the code
leaves on the stack what the definition has there; so it does up to the end of this statement. -/
theorem Passes.level {c : Catalog} {fs : Functions} {st x : Stmt} {u v F : Draft}
    (hp : Passes c fs st s t x u v) (hfs : ∀ f, st.function? c = some f → f ∈ fs) (hs : s.Numbered)
    (hF : Moves t F) (hE : F.Entered fs) :
    (∃ code, Emits s u code ∧ Moves u t ∧
        Code.stack (F.callee fs) (st.arrival c) code = (st.place c).frame) ∧
      (∃ code, Emits s v code ∧ Moves v t ∧
        Code.stack (F.callee fs) (st.arrival c) code = (st.place c).frame) := by
  cases hp with
  | @event p name params returns body _ _ _ _ _ _ _ _ _ he h₁ h₂ h₃ hv ht =>
      have e : Emits s _ (eventHead c name params) :=
        (emit_emits h₁).trans ((emit_emits h₂).trans (emit_emits h₃))
      have hn : Stmt.function? c (.define p name params returns body) = none := by
        rw [Stmt.function?, if_pos he]
      have hh : Code.Climbs fs F (fun _ => False) [] [] (eventHead c name params) [] :=
        climbs_eventHead ..
      rw [Stmt.place, Stmt.arrival, hn]
      obtain ⟨hu, hv, hm⟩ := hv.level (e.moves.numbered hs)
      have hvt := hm.trans (emit_emits ht).moves
      exact ⟨hu.after e hh.stack (hv.moves.trans hvt) hF hE,
        (hu.trans hv).after e hh.stack hvt hF hE⟩
  | @function p name params returns body f l _ _ _ _ _ _ _ _ _ hf h₁ h₂ h₃ hv ht =>
      have e := (namedLabel_emits h₁).1.skip ((bindLabel_emits h₂).1.skip (emit_emits h₃))
      have hh : Code.Climbs fs F (fun _ => False) [.back] f.arrival
        (Block.popIntoAll f.params) [.back] :=
        Function.climbs_params (hfs f hf) (Stmt.function?_define hf).2.2.2
      rw [Stmt.place, Stmt.arrival, hf]
      obtain ⟨hu, hv, hm⟩ := hv.level (e.moves.numbered hs)
      have hvt := hm.trans (emit_emits ht).moves
      exact ⟨hu.after e hh.stack (hv.moves.trans hvt) hF hE,
        (hu.trans hv).after e hh.stack hvt hF hE⟩
  | loose hd hv =>
      have hst : st.arrival c = [] ∧ (st.place c).frame = [] := by
        cases st with
        | define p name params returns body => exact absurd rfl (hd p name params returns body)
        | _ => exact ⟨rfl, rfl⟩
      rw [hst.1, hst.2]
      obtain ⟨hu, hv, hm⟩ := hv.level hs
      exact ⟨hu.after (.refl s) rfl (hv.moves.trans hm) hF hE,
        (hu.trans hv).after (.refl s) rfl hm hF hE⟩

end Lower

namespace Module

open Draft Code

variable {c : Catalog} {m : Module} {p : Program} {fs : Functions} {d : Nat → Draft}

namespace Layout

variable (L : Layout c m p fs d)
include L

/-- No two statements have code at the same place, so no two functions have the same entry. -/
theorem statement_of_entry {j k l : Nat} {st st' : Stmt} {f g : Function}
    (hj : m.body[j]? = some st) (hf : st.function? c = some f) (hk : m.body[k]? = some st')
    (hg : st'.function? c = some g)
    (hl : (d m.body.length).emitter.named.lookup (Names.functionId f.name f.types) = some l)
    (hl' : (d m.body.length).emitter.named.lookup (Names.functionId g.name g.types) = some l) :
    j = k := by
  obtain ⟨hbj, hltj⟩ := L.entry_bound hj hf hl
  obtain ⟨hbk, hltk⟩ := L.entry_bound hk hg hl'
  have hj' := L.statementAt_eq (List.getElem?_eq_some_iff.mp hj).1 le_rfl hltj
  have hk' := L.statementAt_eq (List.getElem?_eq_some_iff.mp hk).1 le_rfl hltk
  rw [← hj', ← hk', hbj.unique hbk]

theorem entered : (d m.body.length).Entered fs := by
  intro g hg l hl
  cases hfound : (d m.body.length).callee fs l with
  | none =>
      have hn := List.find?_eq_none.mp hfound g hg
      exact absurd hl (by simpa using hn)
  | some f =>
      have hl' := List.find?_some hfound
      rw [decide_eq_true_eq] at hl'
      obtain ⟨j, st, hj, hf⟩ := L.exists_define (List.mem_of_find?_eq_some hfound)
      obtain ⟨k, st', hk, hg⟩ := L.exists_define hg
      obtain rfl := L.statement_of_entry hj hf hk hg hl' hl
      rw [hj] at hk
      cases hk
      rw [hf] at hg
      exact hg

theorem region {k : Nat} {st : Stmt} (hk : m.body[k]? = some st) :
    ∃ code, Emits (d k) (d (k + 1)) code ∧
      Region fs (d m.body.length) (st.place c) (st.arrival c) (d k).emitter.pc code ∧
      Code.At (d m.body.length).code (d k).emitter.pc code := by
  obtain ⟨code, e, hp⟩ := L.placed hk
  exact ⟨code, e, hp.region L.entered, L.at_code (List.getElem?_eq_some_iff.mp hk).1 e⟩

end Layout

/-- The stack at an address: that in the code of the statement it belongs to. -/
def contents (c : Catalog) (m : Module) (fs : Functions) (d : Nat → Draft) (x : Nat) :
    List Source :=
  let k := statementAt m d x
  let code := (d (k + 1)).code.drop (d k).code.length
  let start := (m.body[k]?.map (Stmt.arrival c)).getD []
  stackAt ((d m.body.length).callee fs) start code (x - (d k).emitter.pc)

def depth (c : Catalog) (m : Module) (fs : Functions) (d : Nat → Draft) (x : Nat) : Nat :=
  (contents c m fs d x).length

theorem Layout.contents_eq (L : Layout c m p fs d) {k x : Nat} {st : Stmt} {code : List Instr}
    (hk : m.body[k]? = some st) (e : Emits (d k) (d (k + 1)) code) (ha : (d k).emitter.pc ≤ x)
    (hb : x < (d k).emitter.pc + size code) :
    contents c m fs d x =
      stackAt ((d m.body.length).callee fs) (st.arrival c) code (x - (d k).emitter.pc) := by
  have hx := L.statementAt_eq (List.getElem?_eq_some_iff.mp hk).1 ha (by rwa [e.pc])
  simp only [contents, hx, hk, e.code, List.drop_left, Option.map_some, Option.getD_some]

def Spans (c : Catalog) (m : Module) (k : Nat) (st : Stmt) (s t : Draft) : Prop :=
  m.body[k]? = some st ∧ ∃ fs, m.lowered c k = some (fs, s) ∧ m.lowered c (k + 1) = some (fs, t)

/-- Control goes from the code of a statement outside of all definitions to where the code of a
function begins. -/
def RunsInto (c : Catalog) (m : Module) (a b : Nat) : Prop :=
  (∃ k st s t, m.Spans c k st s t ∧ st.place c = .module ∧ s.emitter.pc ≤ a ∧ a < t.emitter.pc) ∧
    ∃ k st s t, m.Spans c k st s t ∧ (st.function? c).isSome ∧ b = s.emitter.pc

/-- `S` is what is on the stack at each address of the code `F.code`. -/
structure Tracked (c : Catalog) (m : Module) (fs : Functions) (F : Draft) (S : Nat → List Source) :
    Prop where
  begins : ∀ {k st s t}, m.Spans c k st s t → s.emitter.pc < t.emitter.pc →
    S s.emitter.pc = st.arrival c
  flow : ∀ {a b i j}, Code.fetch F.code a = some i → F.Flow fs a b → Code.fetch F.code b = some j →
    S b = i.after (F.callee fs) (S a) ∨ m.RunsInto c a b ∧ i.after (F.callee fs) (S a) = []
  statements : ∀ {k st s t x u v}, m.Spans c k st s t → Lower.Passes c fs st s t x u v →
    (u.emitter.pc < t.emitter.pc → S u.emitter.pc = (st.place c).frame) ∧
      (v.emitter.pc < t.emitter.pc → S v.emitter.pc = (st.place c).frame)

/-- `h` is the height of the stack at each address of the code `F.code`. -/
structure Balanced (c : Catalog) (m : Module) (fs : Functions) (F : Draft) (h : Nat → Nat) :
    Prop where
  begins : ∀ {k st s t}, m.Spans c k st s t → s.emitter.pc < t.emitter.pc →
    h s.emitter.pc = st.entry c
  room : ∀ {a i}, Code.fetch F.code a = some i → i.takes (F.callee fs) ≤ h a
  /-- A call goes to where the code of its callee begins. -/
  calls : ∀ {l g}, F.callee fs l = some g →
    ∃ k st s t, m.Spans c k st s t ∧ st.function? c = some g ∧ F.Bound l s.emitter.pc
  exits : ∀ {k st s t a i}, m.Spans c k st s t → s.emitter.pc ≤ a → a < t.emitter.pc →
    Code.fetch F.code a = some i → i.isExit →
    h a = if a + i.width = t.emitter.pc then 0 else (st.place c).out
  statements : ∀ {k st s t x u v}, m.Spans c k st s t → Lower.Passes c fs st s t x u v →
    (u.emitter.pc < t.emitter.pc → h u.emitter.pc = (st.place c).base) ∧
      (v.emitter.pc < t.emitter.pc → h v.emitter.pc = (st.place c).base)

namespace Layout

variable (L : Layout c m p fs d)
include L

theorem spans_iff {k : Nat} {st : Stmt} {s t : Draft} :
    m.Spans c k st s t ↔ m.body[k]? = some st ∧ s = d k ∧ t = d (k + 1) := by
  constructor
  · rintro ⟨hk, fs', hs, ht⟩
    have hlt := (List.getElem?_eq_some_iff.mp hk).1
    rw [L.lowered k hlt.le] at hs
    rw [L.lowered (k + 1) hlt] at ht
    cases hs
    cases ht
    exact ⟨hk, rfl, rfl⟩
  · rintro ⟨hk, rfl, rfl⟩
    have hlt := (List.getElem?_eq_some_iff.mp hk).1
    exact ⟨hk, fs, L.lowered k hlt.le, L.lowered (k + 1) hlt⟩

theorem exists_spans {a : Nat} {i : Instr} (hf : Code.fetch (d m.body.length).code a = some i) :
    ∃ (k : Nat) (st : Stmt), m.body[k]? = some st ∧ (d k).emitter.pc ≤ a ∧
    a < (d (k + 1)).emitter.pc := by
  obtain ⟨pre, post, hcode, rfl, hw⟩ := exists_split_of_fetch hf
  refine L.exists_statement ?_
  rw [← L.size_code le_rfl, hcode]
  simp only [size_append, size_cons]
  omega

theorem contents_begin {k : Nat} {st : Stmt} (hk : m.body[k]? = some st)
    (hlt : (d k).emitter.pc < (d (k + 1)).emitter.pc) :
    contents c m fs d (d k).emitter.pc = st.arrival c := by
  obtain ⟨code, e, _⟩ := L.placed hk
  rw [L.contents_eq hk e le_rfl (by rwa [← e.pc]), Nat.sub_self, stackAt_zero]

theorem contents_between {k : Nat} {st : Stmt} {u : Draft} {S : List Source}
    (hk : m.body[k]? = some st)
    (hu : ∃ code, Emits (d k) u code ∧ Moves u (d (k + 1)) ∧
      stack ((d m.body.length).callee fs) (st.arrival c) code = S)
    (hlt : u.emitter.pc < (d (k + 1)).emitter.pc) : contents c m fs d u.emitter.pc = S := by
  obtain ⟨pre, eu, hm, hh⟩ := hu
  obtain ⟨code, e, _⟩ := L.placed hk
  obtain ⟨post, rfl⟩ : pre <+: code := by
    have hp := (Moves.grows hm).code
    rwa [eu.code, e.code, List.prefix_append_right_inj] at hp
  rw [e.pc] at hlt
  rw [L.contents_eq hk e (by rw [eu.pc]; omega) hlt, eu.pc, Nat.add_sub_cancel_left, stackAt_size,
    hh]

theorem contents_flow {a b : Nat} {i j : Instr} (hf : Code.fetch (d m.body.length).code a = some i)
    (hab : (d m.body.length).Flow fs a b) (hb : Code.fetch (d m.body.length).code b = some j) :
    contents c m fs d b = i.after ((d m.body.length).callee fs) (contents c m fs d a) ∨
      m.RunsInto c a b ∧ i.after ((d m.body.length).callee fs) (contents c m fs d a) = [] := by
  obtain ⟨k, st, hk, hka, hak⟩ := L.exists_spans hf
  obtain ⟨code, e, hr, hat⟩ := L.region hk
  have hak' := hak
  rw [e.pc] at hak'
  rw [L.contents_eq hk e hka hak']
  obtain ⟨_, rfl, ⟨hb₁, hb₂, hbS⟩ | ⟨hend, hplace, hempty⟩⟩ := hr.flow hat hka hak' hf hab
  · exact .inl (by rw [L.contents_eq hk e hb₁ hb₂, hbS])
  · rw [← e.pc] at hend
    obtain ⟨k', st', hk', hkb, hbk⟩ := L.exists_spans hb
    have hkn := (List.getElem?_eq_some_iff.mp hk).1
    have hkn' := (List.getElem?_eq_some_iff.mp hk').1
    have hlt : k < k' := by
      by_contra hge
      have hpc : (d (k' + 1)).emitter.pc ≤ (d (k + 1)).emitter.pc := L.pc_le (by omega) hkn
      omega
    have hbegin : b = (d k').emitter.pc := by
      have hpc : (d (k + 1)).emitter.pc ≤ (d k').emitter.pc := L.pc_le hlt hkn'.le
      omega
    rw [hempty]
    cases hfun : st'.function? c with
    | none =>
        rw [hbegin] at hbk ⊢
        rw [L.contents_begin hk' hbk, Stmt.arrival, hfun]
        exact .inl rfl
    | some f =>
        exact .inr ⟨⟨⟨k, st, _, _, L.spans_iff.mpr ⟨hk, rfl, rfl⟩, hplace, hka, hak⟩,
          k', st', _, _, L.spans_iff.mpr ⟨hk', rfl, rfl⟩, by simp [hfun], hbegin⟩, rfl⟩

theorem tracked : Tracked c m fs (d m.body.length) (contents c m fs d) where
  begins hs hlt := by
    obtain ⟨hk, rfl, rfl⟩ := L.spans_iff.mp hs
    exact L.contents_begin hk hlt
  flow hf hab hb := L.contents_flow hf hab hb
  statements {k st s t x u v} hs hp := by
    obtain ⟨hk, rfl, rfl⟩ := L.spans_iff.mp hs
    have hlt := (List.getElem?_eq_some_iff.mp hk).1
    obtain ⟨hu, hv⟩ :=
      hp.level (fun _ => L.mem_functions hk) (L.numbered hlt.le) (L.moves hlt le_rfl) L.entered
    exact ⟨L.contents_between hk hu, L.contents_between hk hv⟩

theorem balanced : Balanced c m fs (d m.body.length) (depth c m fs d) where
  begins hs hlt := by
    rw [depth, L.tracked.begins hs hlt, Stmt.length_arrival]
  room {a i} hf := by
    obtain ⟨k, st, hk, ha, hb⟩ := L.exists_spans hf
    obtain ⟨code, e, hr, hat⟩ := L.region hk
    rw [e.pc] at hb
    rw [depth, L.contents_eq hk e ha hb]
    exact hr.room hat ha hb hf
  calls {l g} hg := by
    obtain ⟨k, st, hk, hf⟩ := L.exists_define (List.mem_of_find?_eq_some hg)
    have hl := List.find?_some hg
    rw [decide_eq_true_eq] at hl
    exact ⟨k, st, _, _, L.spans_iff.mpr ⟨hk, rfl, rfl⟩, hf, (L.entry_bound hk hf hl).1⟩
  exits {k st s t a i} hs ha hb hf hi := by
    obtain ⟨hk, rfl, rfl⟩ := L.spans_iff.mp hs
    obtain ⟨code, e, hr, hat⟩ := L.region hk
    rw [e.pc] at hb ⊢
    rw [depth, L.contents_eq hk e ha hb]
    exact hr.exit_length hat ha hb hf hi
  statements {k st s t x u v} hs hp := by
    obtain ⟨hu, hv⟩ := L.tracked.statements hs hp
    simp only [depth, ← Place.length_frame]
    exact ⟨fun hlt => congrArg List.length (hu hlt), fun hlt => congrArg List.length (hv hlt)⟩

theorem depth_flow {a b : Nat} {i j : Instr} (hf : Code.fetch (d m.body.length).code a = some i)
    (hab : (d m.body.length).Flow fs a b) (hb : Code.fetch (d m.body.length).code b = some j) :
    ∃ h, h = depth c m fs d a - i.takes ((d m.body.length).callee fs) +
        i.gives ((d m.body.length).callee fs) ∧
      (depth c m fs d b = h ∨ m.RunsInto c a b ∧ h = 0) := by
  refine ⟨_, Instr.length_after _ _ (hab.cases hf).1, ?_⟩
  exact (L.tracked.flow hf hab hb).imp (congrArg List.length) (And.imp_right (congrArg List.length))

end Layout

/-- A compiled module has a height of the stack for each address. Control keeps to these heights on
every way, but for the code outside of all definitions that runs into a function behind it. -/
theorem compile_balanced (hc : m.compile c = .ok p) :
    ∃ fs F h, m.lowered c m.body.length = some (fs, F) ∧ p.labels = F.emitter.labels.toList ∧
      Linked p.labels F.code p.code ∧ Balanced c m fs F h ∧
      ∀ a b i j, Code.fetch F.code a = some i → F.Flow fs a b → Code.fetch F.code b = some j →
        h b = h a - i.takes (F.callee fs) + i.gives (F.callee fs) ∨
          m.RunsInto c a b ∧ h a - i.takes (F.callee fs) + i.gives (F.callee fs) = 0 := by
  obtain ⟨fs, d, L⟩ := layout_of_compile hc
  refine ⟨fs, d m.body.length, depth c m fs d, L.lowered _ le_rfl, L.labels, L.linked,
    L.balanced, ?_⟩
  intro a b i j hi hab hj
  obtain ⟨_, rfl, h | h⟩ := L.depth_flow hi hab hj
  · exact .inl h
  · exact .inr h

def scalars : Catalog :=
  ⟨[("SystemUInt32", "SystemUInt32"), ("SystemInt32", "SystemInt32"),
    ("SystemBoolean", "SystemBoolean")], [], []⟩

def recursive : Module :=
  ⟨[Build.define "f" [("n", "SystemInt32")] (some "SystemInt32")
      [Build.assign (.name .unknown "x") (Build.call (.name .unknown "f") [.name .unknown "n"]),
        Build.ret (some (.name .unknown "x"))],
    Build.define "g" [("b", "SystemBoolean")] none
      [Build.loop (.name .unknown "b")
        [Build.eval (Build.call (.name .unknown "g") [.name .unknown "b"])]],
    Build.define "_start" [] none [Build.eval (Build.call (.name .unknown "f") [.int .unknown 1])]]⟩

theorem recursive_balanced : ∃ p fs F h, recursive.compile scalars = .ok p ∧
    recursive.lowered scalars 3 = some (fs, F) ∧ Balanced scalars recursive fs F h := by
  have hok : (recursive.compile scalars).isOk := by decide +kernel
  cases hc : recursive.compile scalars with
  | error e => rw [hc] at hok; cases hok
  | ok p =>
      obtain ⟨fs, F, h, hF, -, -, hb, -⟩ := compile_balanced hc
      exact ⟨p, fs, F, h, rfl, hF, hb⟩

/-- A variable that is assigned outside of all definitions, and a function behind it. -/
def spill : Module :=
  ⟨[Build.assign (.name .unknown "n") (.int .unknown 1),
    Build.assign (.name .unknown "n") (.int .unknown 2),
    Build.define "f" [("a", "SystemInt32")] none [.pass .unknown]]⟩

theorem spill_code : (spill.lowered scalars 3).map (fun x => x.2.code) =
    some [.push "__0_const", .push "n", .copy, .push "f__SystemInt32__a", .copy,
      .push "ret_addr", .copy, .jumpIndirect "ret_addr"] := by
  decide +kernel

theorem spill_pc : [1, 2, 3].map (fun k => (spill.lowered scalars k).map fun x => x.2.emitter.pc) =
    [some 0, some 11, some 28] := by
  decide +kernel

theorem spill_compiles : (spill.compile scalars).isOk := by decide +kernel

/-- Without the exception there is no such height: the function finds nothing on the stack where its
argument and its return address should be. -/
theorem spill_not_balanced : (spill.compile scalars).isOk ∧
    ¬ ∃ fs F h, spill.lowered scalars spill.body.length = some (fs, F) ∧
    Balanced scalars spill fs F h ∧
      ∀ a b i j, Code.fetch F.code a = some i → F.Flow fs a b → Code.fetch F.code b = some j →
        h b = h a - i.takes (F.callee fs) + i.gives (F.callee fs) := by
  refine ⟨spill_compiles, ?_⟩
  rintro ⟨fs, F, h, hF, hbal, hflow⟩
  obtain ⟨s, hs, -⟩ := lowered_of_le hF (by decide : 1 ≤ _)
  obtain ⟨t, ht, -⟩ := lowered_of_le hF (by decide : 2 ≤ _)
  have hF : spill.lowered scalars 3 = some (fs, F) := hF
  have hcode := spill_code
  rw [hF, Option.map_some, Option.some.injEq] at hcode
  have hpc := spill_pc
  simp only [List.map_cons, hs, ht, hF, Option.map_some, List.cons.injEq, Option.some.injEq] at hpc
  obtain ⟨hs₀, ht₀, hF₀, -⟩ := hpc
  have hspan : spill.Spans scalars 1 _ s t := ⟨rfl, fs, hs, ht⟩
  have hspan' : spill.Spans scalars 2 _ t F := ⟨rfl, fs, ht, hF⟩
  have hbegin : h s.emitter.pc = 0 := hbal.begins hspan (by rw [hs₀, ht₀]; decide)
  have hentry : h t.emitter.pc = 2 := hbal.begins hspan' (by rw [ht₀, hF₀]; decide)
  rw [hs₀] at hbegin
  rw [ht₀] at hentry
  have hnext {a : Nat} {i j : Instr} (hi : Code.fetch F.code a = some i) (hn : i.target? = none)
      (hx : ∀ x, i ≠ .jumpIndirect x) (hj : Code.fetch F.code (a + i.width) = some j) :
      h (a + i.width) = h a - i.takes (F.callee fs) + i.gives (F.callee fs) :=
    hflow a _ i j hi (.next hi hn hx) hj
  rw [hcode] at hnext
  -- the stack is empty at the begin, and so it is behind the copy
  have h₁ : h 5 = h 0 - 0 + 1 := hnext (i := .push "__0_const") rfl rfl nofun rfl
  have h₂ : h 10 = h 5 - 0 + 1 := hnext (i := .push "n") rfl rfl nofun rfl
  have h₃ : h 11 = h 10 - 2 + 0 := hnext (i := .copy) rfl rfl nofun rfl
  omega

end Module
end StackScript
