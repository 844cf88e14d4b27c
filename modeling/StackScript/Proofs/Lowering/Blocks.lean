import StackScript.Proofs.Lowering.Operations

namespace StackScript

def Stmt.isPlain : Stmt → Bool
  | .branch _ _ _ _ | .loop _ _ _ _ | .ret _ _ => false
  | _ => true

/-- A relation that the lowering of statements without parts keeps to. -/
class Draft.StmtClosed (cx : Context) (R : Draft → Draft → Prop) :
    Prop extends Draft.ExprClosed cx R where
  assign : ∀ dst src, Lower.Along R (Lower.emit (Block.assign dst src))

instance (cx : Context) : Draft.StmtClosed cx (Draft.Advances cx.functions) where
  assign _ _ := .emit fun _ => .assign ..

/-- A relation that does not mind which code is emitted. -/
class Draft.EmitClosed (cx : Context) (R : Draft → Draft → Prop) :
    Prop extends Draft.StmtClosed cx R where
  emit : ∀ block, Lower.Along R (Lower.emit block)

theorem Draft.EmitClosed.of_emit {cx : Context} {R : Draft → Draft → Prop} [Draft.Closed R]
    (he : ∀ block, Lower.Along R (Lower.emit block))
    (hu : ∀ name args discard, Lower.Along R (Lower.userCall cx name args discard)) :
    Draft.EmitClosed cx R where
  hostCall _ := .hostCall (fun _ _ => he _) _
  cast := .cast fun _ _ => he _
  boolean := .boolean fun _ _ => he _
  userCall := hu
  assign _ _ := he _
  emit := he

instance (cx : Context) : Draft.EmitClosed cx Draft.Shelters :=
  .of_emit .emit_shelters .userCall_shelters

namespace Lower

open Draft

variable (cx : Context)

/-- A branch up to its first part: the labels of its second part and of its end. -/
def branchHead (test : Expr) : Lower (Nat × Nat) := do
  let elseLabel ← freshLabel "else_label"
  let endLabel ← freshLabel "if_end_label"
  let cond ← condition cx test
  emit (Block.branchUnless cond elseLabel)
  return (elseLabel, endLabel)

def branchTurn (labels : Nat × Nat) : Lower Unit := do
  emit (Block.goto labels.2)
  bindLabel labels.1

def loopHead (test : Expr) : Lower (Nat × Nat) := do
  let top ← freshLabel "while_label"
  let endLabel ← freshLabel "while_end_label"
  bindLabel top
  let cond ← condition cx test
  emit (Block.branchUnless cond endLabel)
  return (top, endLabel)

def loopTail (labels : Nat × Nat) : Lower Unit := do
  emit (Block.goto labels.1)
  bindLabel labels.2

theorem lowerStmt_branch (p : Pos) (test : Expr) (body orelse : List Stmt) :
    lowerStmt cx (.branch p test body orelse) = (do
      let labels ← branchHead cx test
      block cx body
      branchTurn labels
      block cx orelse
      bindLabel labels.2) := by
  simp [lowerStmt, branchHead, branchTurn]

theorem lowerStmt_loop (p : Pos) (test : Expr) (body : List Stmt) :
    lowerStmt cx (.loop p test body []) = (do
      let labels ← loopHead cx test
      block cx body
      loopTail labels) := by
  simp [lowerStmt, loopHead, loopTail]

/-- The lowering of a list of statements from one draft to another, taken apart. -/
inductive Lowered (cx : Context) : List Stmt → Draft → Draft → Prop
  | nil (s) : Lowered cx [] s s
  | plain {st ss s t u} (hp : st.isPlain) (h : stmt cx st s = .ok () t) (hr : Lowered cx ss t u) :
      Lowered cx (st :: ss) s u
  | leave {p e ss s t u} (h : stmt cx (.ret p e) s = .ok () t) (hr : Lowered cx ss t u) :
      Lowered cx (.ret p e :: ss) s u
  | branch {p test body orelse ss s s₀ s₁ s₂ s₃ s₄ t u labels e} (hn : note e s = .ok () s₀)
      (hh : branchHead cx test s₀ = .ok labels s₁) (hb : Lowered cx body s₁ s₂)
      (ht : branchTurn labels s₂ = .ok () s₃) (ho : Lowered cx orelse s₃ s₄)
      (he : bindLabel labels.2 s₄ = .ok () t) (hr : Lowered cx ss t u) :
      Lowered cx (.branch p test body orelse :: ss) s u
  | loop {p test body ss s s₀ s₁ s₂ t u labels e} (hn : note e s = .ok () s₀)
      (hh : loopHead cx test s₀ = .ok labels s₁) (hb : Lowered cx body s₁ s₂)
      (ht : loopTail labels s₂ = .ok () t) (hr : Lowered cx ss t u) :
      Lowered cx (.loop p test body [] :: ss) s u

theorem lowered_block {cx : Context} : ∀ {ss : List Stmt} {s u : Draft} {x : Unit},
    block cx ss s = .ok x u → Lowered cx ss s u
  | [], s, u, x, h => by
      rw [block] at h
      obtain ⟨_, rfl⟩ := pure_eq_ok.mp h
      exact .nil s
  | st :: ss, s, u, x, h => by
      rw [block] at h
      obtain ⟨⟨⟩, t, hst, hss⟩ := bind_eq_ok.mp h
      rw [located_eq_ok] at hst
      have hr := lowered_block hss
      cases st with
      | branch p test body orelse =>
          rw [noted, lowerStmt_branch] at hst
          simp only [bind_eq_ok] at hst
          obtain ⟨_, s₀, hn, labels, s₁, hh, _, s₂, hb, _, s₃, ht, _, s₄, ho, he⟩ := hst
          exact .branch hn hh (lowered_block hb) ht (lowered_block ho) he hr
      | loop p test body orelse =>
          cases orelse with
          | nil =>
              rw [noted, lowerStmt_loop] at hst
              simp only [bind_eq_ok] at hst
              obtain ⟨_, s₀, hn, labels, s₁, hh, _, s₂, hb, ht⟩ := hst
              exact .loop hn hh (lowered_block hb) ht hr
          | cons =>
              simp only [noted, lowerStmt, bind_eq_ok] at hst
              obtain ⟨_, _, _, hrej⟩ := hst
              exact (reject_eq_ok.mp hrej).elim
      | ret p e => exact .leave hst hr
      | _ => exact .plain rfl hst hr

namespace Along

variable {cx : Context} {R : Draft → Draft → Prop}

section

variable [ExprClosed cx R]

theorem condition (test : Expr) : Along R (condition cx test) := by
  refine .bind (value test) fun x => .bind (typeOf _) fun ty => ?_
  split
  · exact pure _
  · exact located (reject rfl)

theorem effects (e : Expr) : Along R (effects cx e) := by
  rw [Lower.effects.eq_def]
  split
  · exact .bind (located (lowerExpr true _)) fun _ => pure _
  · exact .bind (expr _) fun _ => pure _

end

theorem markAll [Closed R] (names : List String) :
    Along R (modify fun s => { s with vars := names.foldl Variables.markExported s.vars } :
      Lower Unit) := by
  refine ⟨.modify _, fun {s _ t} h => Closed.still ?_⟩
  obtain rfl := modify_eq_ok.mp h
  clear h
  induction names generalizing s with
  | nil => exact .refl s
  | cons name names ih =>
      have hm : Emits s { s with vars := s.vars.markExported name } [] :=
        .of_move (.mark s name) rfl rfl
      have hi := ih (s := { s with vars := s.vars.markExported name })
      refine ⟨hm.skip hi.emits, fun v hv => (hi.declared v hv).imp_left fun h => ?_, hi.bound⟩
      rwa [Variables.declared_markExported] at h

variable [StmtClosed cx R]

theorem assignName (name : String) (e : Expr) : Along R (assignName cx name e) := by
  refine .bind (expr e) fun src => .bind (resolve _) fun dst => ?_
  split
  · refine .bind (contains _) fun known => ?_
    split
    · exact reject rfl
    · exact declare trivial
  · exact declare trivial
  · refine .bind (typeOf _) fun ty => .bind get fun d => ?_
    have hset (src : String) : Along R (Lower.emit (Block.assign dst src)) :=
      StmtClosed.assign cx dst src
    split
    · exact .bind (declare trivial) fun _ => hset _
    · exact hset _
    · exact .bind (typeOf _) fun _ => .bind (reject rfl) fun _ => hset _

theorem assign (target e : Expr) : Along R (assign cx target e) := by
  rw [Lower.assign.eq_def]
  split
  · exact assignName ..
  · exact .bind (value _) fun x => .bind (value _) fun i => .bind (value _) fun y =>
      .bind (located (methodCall ..)) fun _ => pure _
  · exact located (reject rfl)

theorem stmt {st : Stmt} (hp : st.isPlain) : Along R (stmt cx st) := by
  refine .bind (note _) fun _ => ?_
  cases st with
  | branch | loop | ret => cases hp
  | assign p target e => rw [lowerStmt]; exact assign ..
  | update p target op e => rw [lowerStmt]; exact assign ..
  | eval p e => rw [lowerStmt]; exact effects e
  | global p names => rw [lowerStmt]; exact markAll names
  | imports | importsFrom | pass => rw [lowerStmt]; exact pure _
  | define | forLoop | breakLoop | continueLoop | other => rw [lowerStmt]; exact reject rfl

omit [StmtClosed cx R] in
theorem branchHead [EmitClosed cx R] (test : Expr) : Along R (branchHead cx test) :=
  .bind (freshLabel _) fun _ => .bind (freshLabel _) fun _ => .bind (condition test) fun _ =>
    .bind (EmitClosed.emit cx _) fun _ => pure _

omit [StmtClosed cx R] in
theorem lowerReturn [EmitClosed cx R] (e : Option Expr) : Along R (lowerReturn cx e) := by
  have hemit (block : List Instr) : Along R (Lower.emit block) := EmitClosed.emit cx block
  rw [Lower.lowerReturn.eq_def]
  split
  · exact reject rfl
  · exact hemit _
  · exact reject rfl
  · split
    · exact hemit _
    · exact reject rfl
  · split
    · exact reject rfl
    · refine .bind (hemit _) fun _ => .bind (value _) fun x => .bind (typeOf x) fun ty => ?_
      split
      · exact hemit _
      · exact located (reject rfl)

end Along
end Lower

/-- The ways out of a definition that returns take, by the place where they stand. -/
inductive Leaves (fs : Functions) (F : Draft) : Place → List Instr → Prop
  | halt : Leaves fs F .event Block.halt
  | void {ret} (hv : ret.isVoid) : Leaves fs F (.function ret) (Block.ret Names.returnAddress none)
  | value {ret xs x} (hv : ret.isVoid = false) (hx : Straight fs F xs) (ht : F.Typed x ret) :
      Leaves fs F (.function ret)
        (Block.popInto Names.returnAddress ++ (xs ++ Block.exit Names.returnAddress (some x)))

/-- The code of statements from an address on, with the places that its private labels are bound to
in the finished draft `F`. -/
inductive Laid (fs : Functions) (F : Draft) (place : Place) : Nat → List Stmt → List Instr → Prop
  | nil (a) : Laid fs F place a [] []
  | plain {a st ss xs ys} (hp : st.isPlain) (hx : Straight fs F xs)
      (hr : Laid fs F place (a + Code.size xs) ss ys) : Laid fs F place a (st :: ss) (xs ++ ys)
  | leave {a p e ss xs ys} (hx : Leaves fs F place xs)
      (hr : Laid fs F place (a + Code.size xs) ss ys) :
      Laid fs F place a (.ret p e :: ss) (xs ++ ys)
  | branch {a p test body orelse ss xs ys zs ws x l₁ l₂ b c d} (hx : Straight fs F xs)
      (h₁ : F.Private l₁) (h₂ : F.Private l₂)
      (hb : b = a + Code.size (xs ++ Block.branchUnless x l₁))
      (hy : Laid fs F place b body ys) (hc : c = b + Code.size (ys ++ Block.goto l₂))
      (hl₁ : F.Bound l₁ c)
      (hz : Laid fs F place c orelse zs) (hd : d = c + Code.size zs) (hl₂ : F.Bound l₂ d)
      (hr : Laid fs F place d ss ws) :
      Laid fs F place a (.branch p test body orelse :: ss)
        ((xs ++ Block.branchUnless x l₁) ++ ((ys ++ Block.goto l₂) ++ (zs ++ ws)))
  | loop {a p test body ss xs ys ws x l₁ l₂ b d} (hx : Straight fs F xs)
      (h₁ : F.Private l₁) (h₂ : F.Private l₂) (hl₁ : F.Bound l₁ a)
      (hb : b = a + Code.size (xs ++ Block.branchUnless x l₂)) (hy : Laid fs F place b body ys)
      (hd : d = b + Code.size (ys ++ Block.goto l₁)) (hl₂ : F.Bound l₂ d)
      (hr : Laid fs F place d ss ws) :
      Laid fs F place a (.loop p test body [] :: ss)
        ((xs ++ Block.branchUnless x l₂) ++ ((ys ++ Block.goto l₁) ++ ws))

namespace Lower

open Draft

variable {cx : Context} {s t : Draft}

theorem branchHead_eq_ok {R : Draft → Draft → Prop} [ExprClosed cx R] {test : Expr}
    {labels : Nat × Nat} (h : branchHead cx test s = .ok labels t) :
    ∃ x s₁, R s s₁ ∧ Emits s₁ t (Block.branchUnless x labels.1) := by
  simp only [branchHead, bind_eq_ok, pure_eq_ok] at h
  obtain ⟨l₁, u₁, h₁, l₂, u₂, h₂, x, s₁, hx, _, _, hem, rfl, rfl⟩ := h
  refine ⟨x, s₁, Closed.trans ((Along.freshLabel _).of_ok h₁) ?_, emit_emits hem⟩
  exact Closed.trans ((Along.freshLabel _).of_ok h₂) ((Along.condition test).of_ok hx)

theorem loopHead_eq_ok {R : Draft → Draft → Prop} [ExprClosed cx R] {test : Expr}
    {labels : Nat × Nat} (h : loopHead cx test s = .ok labels t) :
    ∃ x s₀ s₁, Emits s s₀ [] ∧ R s₀ s₁ ∧ s₁.Bound labels.1 s.emitter.pc ∧
      Emits s₁ t (Block.branchUnless x labels.2) := by
  simp only [loopHead, bind_eq_ok, pure_eq_ok] at h
  obtain ⟨l₁, u₁, h₁, l₂, u₂, h₂, _, u₃, hb, x, s₁, hx, _, _, hem, rfl, rfl⟩ := h
  obtain ⟨e₁, _⟩ := freshLabel_emits h₁
  obtain ⟨e₂, _⟩ := freshLabel_emits h₂
  obtain ⟨e₃, hbound, _⟩ := bindLabel_emits hb
  obtain ⟨xs, ex, _⟩ : Advances cx.functions _ _ := (Along.condition test).of_ok hx
  refine ⟨x, u₃, s₁, e₁.skip (e₂.skip e₃), (Along.condition test).of_ok hx, ?_, emit_emits hem⟩
  rw [e₂.silent, e₁.silent] at hbound
  exact (Moves.grows ex.moves).bound hbound

theorem branchHead_emits {test : Expr} {labels : Nat × Nat}
    (h : branchHead cx test s = .ok labels t) (hs : s.Numbered) :
    ∃ xs x, Emits s t (xs ++ Block.branchUnless x labels.1) ∧
      ∀ F, Moves t F → Straight cx.functions F xs ∧ F.Private labels.1 ∧ F.Private labels.2 := by
  simp only [branchHead, bind_eq_ok, pure_eq_ok] at h
  obtain ⟨l₁, s₁, h₁, l₂, s₂, h₂, x, s₃, hx, _, s₄, hem, rfl, rfl⟩ := h
  obtain ⟨e₁, _⟩ := freshLabel_emits h₁
  obtain ⟨e₂, _⟩ := freshLabel_emits h₂
  obtain ⟨xs, ex, sx⟩ : Advances cx.functions _ _ := (Along.condition test).of_ok hx
  have ht := ex.trans (emit_emits hem)
  refine ⟨xs, x, e₁.skip (e₂.skip ht), fun F hF => ⟨sx F ((emit_emits hem).moves.trans hF), ?_, ?_⟩⟩
  · exact freshLabel_private h₁ hs ((e₂.skip ht).moves.trans hF)
  · exact freshLabel_private h₂ (e₁.moves.numbered hs) (ht.moves.trans hF)

theorem branchTurn_emits {labels : Nat × Nat} {u : Unit} (h : branchTurn labels s = .ok u t) :
    Emits s t (Block.goto labels.2) ∧ t.Bound labels.1 t.emitter.pc := by
  obtain ⟨_, s₁, hem, hb⟩ := bind_eq_ok.mp h
  obtain ⟨eb, hbound, _⟩ := bindLabel_emits hb
  exact ⟨(emit_emits hem).still eb, by rwa [eb.silent]⟩

theorem loopHead_emits {test : Expr} {labels : Nat × Nat} (h : loopHead cx test s = .ok labels t)
    (hs : s.Numbered) :
    t.Bound labels.1 s.emitter.pc ∧ ∃ xs x, Emits s t (xs ++ Block.branchUnless x labels.2) ∧
      ∀ F, Moves t F → Straight cx.functions F xs ∧ F.Private labels.1 ∧ F.Private labels.2 := by
  simp only [loopHead, bind_eq_ok, pure_eq_ok] at h
  obtain ⟨l₁, s₁, h₁, l₂, s₂, h₂, _, s₃, hb, x, s₄, hx, _, s₅, hem, rfl, rfl⟩ := h
  obtain ⟨e₁, _⟩ := freshLabel_emits h₁
  obtain ⟨e₂, _⟩ := freshLabel_emits h₂
  obtain ⟨e₃, hbound, _⟩ := bindLabel_emits hb
  obtain ⟨xs, ex, sx⟩ : Advances cx.functions _ _ := (Along.condition test).of_ok hx
  have ht := ex.trans (emit_emits hem)
  refine ⟨?_, xs, x, e₁.skip (e₂.skip (e₃.skip ht)), fun F hF =>
    ⟨sx F ((emit_emits hem).moves.trans hF), ?_, ?_⟩⟩
  · rw [e₂.silent, e₁.silent] at hbound
    exact (Moves.grows ht.moves).bound hbound
  · exact freshLabel_private h₁ hs ((e₂.skip (e₃.skip ht)).moves.trans hF)
  · exact freshLabel_private h₂ (e₁.moves.numbered hs) ((e₃.skip ht).moves.trans hF)

theorem loopTail_emits {labels : Nat × Nat} {u : Unit} (h : loopTail labels s = .ok u t) :
    Emits s t (Block.goto labels.1) ∧ t.Bound labels.2 t.emitter.pc := by
  obtain ⟨_, s₁, hem, hb⟩ := bind_eq_ok.mp h
  obtain ⟨eb, hbound, _⟩ := bindLabel_emits hb
  exact ⟨(emit_emits hem).still eb, by rwa [eb.silent]⟩

theorem returnValue_steps {ret : Ty} {e : Expr} {u : Unit} (h : returnValue cx ret e s = .ok u t) :
    ∃ s₁ x s₂, emit (Block.popInto Names.returnAddress) s = .ok () s₁ ∧ value cx e s₁ = .ok x s₂ ∧
    s₂.Typed x ret ∧
      emit (Block.exit Names.returnAddress (some x)) s₂ = .ok () t := by
  simp only [returnValue, bind_eq_ok, typeOf_eq_ok] at h
  obtain ⟨_, s₁, hpop, x, s₂, hx, ty, _, ⟨hty, rfl⟩, h⟩ := h
  split at h
  case isFalse => exact (reject_eq_ok.mp (located_eq_ok.mp h)).elim
  case isTrue hret =>
    obtain ⟨ty', hx'⟩ := exists_type (value_contains hx)
    obtain rfl := hx'.typeOf hty
    exact ⟨s₁, x, s₂, hpop, hx, hret ▸ hx', h⟩

/-- A return from a function takes the address to go back to off the stack, before the code of the
value if there is one. -/
theorem ret_eq_ok {R : Draft → Draft → Prop} [ExprClosed cx R] {p : Pos} {e : Option Expr}
    {ret : Ty} {u : Unit} (hp : cx.scope.place = .function ret)
    (h : stmt cx (.ret p e) s = .ok u t) :
    ret.isVoid ∧ Emits s t (Block.ret Names.returnAddress none) ∨
      ret.isVoid = false ∧ ∃ x s₁ s₂, Emits s s₁ (Block.popInto Names.returnAddress) ∧
      s₁.vars = s.vars ∧
        R s₁ s₂ ∧ s₂.Typed x ret ∧ Emits s₂ t (Block.exit Names.returnAddress (some x)) := by
  rw [stmt, noted, lowerStmt] at h
  obtain ⟨_, s₀, hn, h⟩ := bind_eq_ok.mp h
  have en := note_emits hn
  cases e with
  | none =>
      simp only [lowerReturn, hp] at h
      split at h
      case isTrue hv => exact .inl ⟨hv, en.skip (emit_emits h)⟩
      case isFalse => exact (reject_eq_ok.mp h).elim
  | some e =>
      simp only [lowerReturn, hp] at h
      split at h
      case isTrue => exact (reject_eq_ok.mp h).elim
      case isFalse hv =>
        obtain ⟨s₁, x, s₂, hpop, hx, hty, h⟩ := returnValue_steps h
        exact .inr ⟨by simpa using hv, x, s₁, s₂, en.skip (emit_emits hpop),
          (emit_vars hpop).trans (note_vars hn), (Along.value e).of_ok hx, hty, emit_emits h⟩

theorem ret_emits {p : Pos} {e : Option Expr} {u : Unit} (h : stmt cx (.ret p e) s = .ok u t) :
    ∃ xs, Emits s t xs ∧ ∀ F, Moves t F → Leaves cx.functions F cx.scope.place xs := by
  cases hp : cx.scope.place with
  | module =>
      rw [stmt, noted, lowerStmt] at h
      obtain ⟨_, _, _, h⟩ := bind_eq_ok.mp h
      simp only [lowerReturn, hp, reject_eq_ok] at h
  | event =>
      rw [stmt, noted, lowerStmt] at h
      obtain ⟨_, s₀, hn, h⟩ := bind_eq_ok.mp h
      cases e with
      | some e => simp only [lowerReturn, hp, reject_eq_ok] at h
      | none =>
          simp only [lowerReturn, hp] at h
          exact ⟨_, (note_emits hn).skip (emit_emits h), fun F _ => .halt⟩
  | function ret =>
      obtain ⟨hv, e⟩ | ⟨hv, x, s₁, s₂, ep, _, ⟨xs, ex, sx⟩, hx, ee⟩ :=
        ret_eq_ok (R := Advances cx.functions) hp h
      · exact ⟨_, e, fun F _ => .void hv⟩
      · exact ⟨_, ep.trans (ex.trans ee), fun F hF =>
          .value hv (sx F (ee.moves.trans hF)) (hx.moves (ee.moves.trans hF))⟩

/-- The labels of a branch are new, and they have no addresses when its first part begins. -/
theorem branchHead_shelters {test : Expr} {labels : Nat × Nat}
    (h : branchHead cx test s = .ok labels t) :
    Shelters s t ∧ s.emitter.labels.size ≤ labels.1 ∧ labels.1 < labels.2 ∧ t.Open labels.1 ∧
    t.Open labels.2 := by
  refine ⟨(Along.branchHead test).of_ok h, ?_⟩
  simp only [branchHead, bind_eq_ok, pure_eq_ok] at h
  obtain ⟨l₁, s₁, h₁, l₂, s₂, h₂, x, s₃, hx, _, s₄, hem, rfl, rfl⟩ := h
  have hlabel : Shelters s₁ s₂ := (Along.freshLabel _).of_ok h₂
  have htest : Shelters s₂ s₃ := (Along.condition test).of_ok hx
  have hrest := htest.trans (emit_shelters hem)
  obtain ⟨_, hl₁, lt₁⟩ := freshLabel_emits h₁
  obtain ⟨_, hl₂, _⟩ := freshLabel_emits h₂
  exact ⟨hl₁.ge, hl₂ ▸ lt₁, (freshLabel_open h₁).shelters (hlabel.trans hrest),
    (freshLabel_open h₂).shelters hrest⟩

theorem loopHead_shelters {test : Expr} {labels : Nat × Nat}
    (h : loopHead cx test s = .ok labels t) :
    Shelters s t ∧ s.emitter.labels.size ≤ labels.2 ∧ t.Open labels.2 := by
  simp only [loopHead, bind_eq_ok, pure_eq_ok] at h
  obtain ⟨l₁, s₁, h₁, l₂, s₂, h₂, _, s₃, hb, x, s₄, hx, _, s₅, hem, rfl, rfl⟩ := h
  have hlabel₁ : Shelters s s₁ := (Along.freshLabel _).of_ok h₁
  have hlabel₂ : Shelters s₁ s₂ := (Along.freshLabel _).of_ok h₂
  have htest : Shelters s₃ s₄ := (Along.condition test).of_ok hx
  have hrest := htest.trans (emit_shelters hem)
  obtain ⟨_, hl₁, lt₁⟩ := freshLabel_emits h₁
  obtain ⟨_, hl₂, _⟩ := freshLabel_emits h₂
  have hbound : Shelters s s₃ := by
    refine bindLabel_shelters (hlabel₁.trans hlabel₂) hl₁.ge (fun hs => ?_) hb
    exact freshLabel_private h₁ hs (hlabel₂.moves.trans (bindLabel_emits hb).1.moves)
  have hne : l₂ ≠ l₁ := fun h => (h ▸ hl₂ ▸ lt₁).false
  exact ⟨hbound.trans hrest, hl₁.ge.trans (hl₂ ▸ lt₁).le,
    (bindLabel_open (freshLabel_open h₂) hne hb).shelters hrest⟩

theorem Lowered.shelters {ss : List Stmt} (h : Lowered cx ss s t) : Shelters s t := by
  induction h with
  | nil s => exact Closed.still (.refl s)
  | plain hp h _ ih => exact .trans ((Along.stmt hp).of_ok h) ih
  | leave h _ ih =>
      rw [stmt, noted, lowerStmt] at h
      obtain ⟨_, _, hn, h⟩ := bind_eq_ok.mp h
      have hret : Shelters _ _ := .trans ((Along.note _).of_ok hn) ((Along.lowerReturn _).of_ok h)
      exact hret.trans ih
  | @branch p test body orelse ss s s₀ s₁ s₂ s₃ s₄ t u labels e hn hh _ ht _ he _ ihb iho ihr =>
      obtain ⟨hhead, ge₁, hlt, _⟩ := branchHead_shelters hh
      obtain ⟨_, s', hem, hb⟩ := bind_eq_ok.mp ht
      have hgoto : Shelters s₀ s' := (hhead.trans ihb).trans (emit_shelters hem)
      have hprivate (hs : s₀.Numbered) F (hF : Moves s₁ F) :
          F.Private labels.1 ∧ F.Private labels.2 := by
        obtain ⟨_, _, _, hp⟩ := branchHead_emits hh hs
        exact (hp F hF).2
      have m₃ : Moves s₁ s₃ := ihb.moves.trans (branchTurn_emits ht).1.moves
      have m₄ := m₃.trans (iho.moves.trans (bindLabel_emits he).1.moves)
      have hturn : Shelters s₀ s₃ :=
        bindLabel_shelters hgoto ge₁ (fun hs => (hprivate hs s₃ m₃).1) hb
      have hend : Shelters s₀ t :=
        bindLabel_shelters (hturn.trans iho) (ge₁.trans hlt.le) (fun hs => (hprivate hs t m₄).2) he
      have hnote : Shelters s s₀ := (Along.note _).of_ok hn
      exact hnote.trans (hend.trans ihr)
  | @loop p test body ss s s₀ s₁ s₂ t u labels e hn hh _ ht _ ihb ihr =>
      obtain ⟨hhead, ge, _⟩ := loopHead_shelters hh
      obtain ⟨_, s', hem, hb⟩ := bind_eq_ok.mp ht
      have hgoto : Shelters s₀ s' := (hhead.trans ihb).trans (emit_shelters hem)
      have hend : Shelters s₀ t := by
        refine bindLabel_shelters hgoto ge (fun hs => ?_) hb
        obtain ⟨_, _, _, _, hp⟩ := loopHead_emits hh hs
        exact (hp t (ihb.moves.trans (loopTail_emits ht).1.moves)).2.2
      have hnote : Shelters s s₀ := (Along.note _).of_ok hn
      exact hnote.trans (hend.trans ihr)

/-- Lowered statements are laid out from where the code ended. -/
theorem Lowered.emits {ss : List Stmt} (h : Lowered cx ss s t) (hs : s.Numbered) :
    ∃ code, Emits s t code ∧
      ∀ F, Moves t F → Laid cx.functions F cx.scope.place s.emitter.pc ss code := by
  induction h with
  | nil s => exact ⟨[], .refl s, fun F _ => .nil _⟩
  | plain hp h _ ih =>
      obtain ⟨xs, ex, sx⟩ : Advances cx.functions _ _ := (Along.stmt hp).of_ok h
      obtain ⟨ys, ey, ly⟩ := ih (ex.moves.numbered hs)
      refine ⟨xs ++ ys, ex.trans ey, fun F hF => .plain hp (sx F (ey.moves.trans hF)) ?_⟩
      rw [← ex.pc]
      exact ly F hF
  | leave h _ ih =>
      obtain ⟨xs, ex, lx⟩ := ret_emits h
      obtain ⟨ys, ey, ly⟩ := ih (ex.moves.numbered hs)
      refine ⟨xs ++ ys, ex.trans ey, fun F hF => .leave (lx F (ey.moves.trans hF)) ?_⟩
      rw [← ex.pc]
      exact ly F hF
  | branch hn hh _ ht _ he _ ihb iho ihr =>
      have en := note_emits hn
      have hs₀ := en.moves.numbered hs
      obtain ⟨xs, x, ex, sx⟩ := branchHead_emits hh hs₀
      have hs₁ := ex.moves.numbered hs₀
      obtain ⟨ys, ey, ly⟩ := ihb hs₁
      have hs₂ := ey.moves.numbered hs₁
      obtain ⟨et, bt⟩ := branchTurn_emits ht
      have hs₃ := et.moves.numbered hs₂
      obtain ⟨zs, ez, lz⟩ := iho hs₃
      have hs₄ := ez.moves.numbered hs₃
      obtain ⟨ee, be, _⟩ := bindLabel_emits he
      obtain ⟨ws, ew, lw⟩ := ihr (ee.moves.numbered hs₄)
      have ezw := ez.trans (ee.skip ew)
      have eyw := (ey.trans et).trans ezw
      refine ⟨_, en.skip (ex.trans eyw), fun F hF => ?_⟩
      obtain ⟨hx, p₁, p₂⟩ := sx F (eyw.moves.trans hF)
      have hFw := ew.moves.trans hF
      refine .branch hx p₁ p₂ (by rw [← en.silent, ← ex.pc]) (ly F ((et.trans ezw).moves.trans hF))
        (by rw [← (ey.trans et).pc]) ((Moves.grows (ezw.moves.trans hF)).bound bt)
        (lz F (ee.moves.trans hFw)) ez.pc ((Moves.grows hFw).bound be) ?_
      rw [← ee.silent]
      exact lw F hF
  | loop hn hh _ ht _ ihb ihr =>
      have en := note_emits hn
      have hs₀ := en.moves.numbered hs
      obtain ⟨b₁, xs, x, ex, sx⟩ := loopHead_emits hh hs₀
      have hs₁ := ex.moves.numbered hs₀
      obtain ⟨ys, ey, ly⟩ := ihb hs₁
      have hs₂ := ey.moves.numbered hs₁
      obtain ⟨et, bt⟩ := loopTail_emits ht
      obtain ⟨ws, ew, lw⟩ := ihr (et.moves.numbered hs₂)
      have eyw := (ey.trans et).trans ew
      refine ⟨_, en.skip (ex.trans eyw), fun F hF => ?_⟩
      obtain ⟨hx, p₁, p₂⟩ := sx F (eyw.moves.trans hF)
      rw [← en.silent]
      exact .loop hx p₁ p₂ ((Moves.grows (eyw.moves.trans hF)).bound b₁) ex.pc
        (ly F ((et.trans ew).moves.trans hF)) (ey.trans et).pc
        ((Moves.grows (ew.moves.trans hF)).bound bt) (lw F hF)

end Lower
end StackScript
