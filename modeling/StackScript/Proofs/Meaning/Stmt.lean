import StackScript.Proofs.Meaning.Expr

namespace StackScript

open Draft Machine Lower

theorem Machine.runs_branchUnless {D H : Type} {E : Host D H} {code : List Instr} {a b : Nat}
    {x : String} {σ : Store D} {st : List (Cell D)} {h : H}
    (hc : Code.At code a [.push x, .jumpIfFalse (.addr b)]) :
    Runs E code 2 ⟨a, σ, st, h⟩ ⟨if (σ x).isFalse then b else a + 10, σ, st, h⟩ :=
  (runs_one hc (by simp [Instr.width]) rfl).trans (runs_one hc.tail (by simp [Instr.width]) rfl)

namespace Lower

variable {cx : Context} {s t : Draft} {labels : Nat × Nat} {u : Unit}

theorem branchTurn_vars (h : branchTurn labels s = .ok u t) : t.vars = s.vars := by
  obtain ⟨_, _, hem, hb⟩ := bind_eq_ok.mp h
  rw [bindLabel_vars hb, emit_vars hem]

theorem loopTail_vars (h : loopTail labels s = .ok u t) : t.vars = s.vars := by
  obtain ⟨_, _, hem, hb⟩ := bind_eq_ok.mp h
  rw [bindLabel_vars hb, emit_vars hem]

theorem Lowered.moves {ss : List Stmt} (h : Lowered cx ss s t) (hs : s.Numbered) : Moves s t := by
  obtain ⟨_, e, _⟩ := h.emits hs
  exact e.moves

end Lower

namespace Scene

variable {D H : Type} {cx : Context} (S : Scene D H cx)

/-- Where the machine comes to from address `a`, for a result of a command: to address `b`, or out
of the event. If there is no result within `n` turns, the machine runs for `n` steps at least. -/
def Arrives (n a b : Nat) (ρ : Store D) (h : H) : Option (Cmd.Result D H) → Prop
  | some (left, σ', h') => ∃ ρ', S.Holds σ' ρ' ∧ ∀ st,
      Reaches S.host S.program.code ⟨a, ρ, st, h⟩ ⟨if left then haltAddress else b, ρ', st, h'⟩
  | none => ∀ st, ∃ u, Runs S.host S.program.code n ⟨a, ρ, st, h⟩ u

/-- The code from address `a` to address `b` does what a command says. -/
def Follows (a b : Nat) (cmd : Cmd) : Prop :=
  ∀ n σ ρ h, S.Holds σ ρ → S.Arrives n a b ρ h (cmd.exec S.host S.reading n σ h)

/-- The code at address `a` evaluates a condition, and goes on at one of two addresses. -/
def Tests (a yes no : Nat) (test : Term) : Prop :=
  ∀ σ ρ h, S.Holds σ ρ → ∃ ρ', S.Holds σ ρ' ∧
    ∀ st, ∃ k, Runs S.host S.program.code (k + 1) ⟨a, ρ, st, h⟩
    ⟨if (test.eval S.host S.reading σ h).1.isFalse then no else yes, ρ', st,
      (test.eval S.host S.reading σ h).2⟩

def Jumps (a b : Nat) : Prop :=
  ∀ ρ st h, Reaches S.host S.program.code ⟨a, ρ, st, h⟩ ⟨b, ρ, st, h⟩

variable {S} {a b c n k : Nat} {ρ ρ₁ : Store D} {h h₁ : H} {r : Option (Cmd.Result D H)}

/-- Steps on the way make up for turns. -/
theorem Arrives.after {m : Nat} (hr : S.Arrives n b c ρ₁ h₁ r)
    (hab : ∀ st, ∃ k, Runs S.host S.program.code (k + m) ⟨a, ρ, st, h⟩ ⟨b, ρ₁, st, h₁⟩) :
    S.Arrives (n + m) a c ρ h r := by
  cases r with
  | some r =>
      obtain ⟨ρ', hρ', hrun⟩ := hr
      refine ⟨ρ', hρ', fun st => ?_⟩
      obtain ⟨k, hk⟩ := hab st
      exact Reaches.trans ⟨_, hk⟩ (hrun st)
  | none =>
      intro st
      obtain ⟨k, hk⟩ := hab st
      obtain ⟨u, hu⟩ := hr st
      have hall := hk.trans hu
      have hsum : k + m + n = n + m + k := by omega
      rw [hsum] at hall
      exact hall.front

theorem Arrives.mono (hr : S.Arrives n a b ρ h r) (hk : k ≤ n) : S.Arrives k a b ρ h r := by
  cases r with
  | some r => exact hr
  | none =>
      intro st
      obtain ⟨u, hu⟩ := hr st
      obtain ⟨m, rfl⟩ := Nat.exists_eq_add_of_le hk
      exact hu.front

theorem Arrives.jump (hr : S.Arrives n a b ρ h r) (hj : S.Jumps b c) : S.Arrives n a c ρ h r := by
  cases r with
  | none => exact hr
  | some r =>
      obtain ⟨left, σ', h'⟩ := r
      obtain ⟨ρ', hρ', hrun⟩ := hr
      refine ⟨ρ', hρ', fun st => (hrun st).trans ?_⟩
      cases left with
      | true => exact .refl _
      | false => exact hj ρ' st h'

variable {cmd cmd₁ cmd₂ : Cmd} {test : Term}

theorem Follows.jump (hc : S.Follows a b cmd) (hj : S.Jumps b c) : S.Follows a c cmd :=
  fun n σ ρ h hρ => (hc n σ ρ h hρ).jump hj

theorem follows_skip (a : Nat) : S.Follows a a .skip := fun _ _ ρ _ hρ => ⟨ρ, hρ, fun _ => .refl _⟩

theorem Follows.seq (h₁ : S.Follows a b cmd₁) (h₂ : S.Follows b c cmd₂) :
    S.Follows a c (.seq cmd₁ cmd₂) := by
  intro n σ ρ h hρ
  have hfirst := h₁ n σ ρ h hρ
  rw [Cmd.exec]
  match hr : cmd₁.exec S.host S.reading n σ h with
  | none =>
      rw [hr] at hfirst
      exact hfirst
  | some (true, σ', h') =>
      rw [hr] at hfirst
      exact hfirst
  | some (false, σ', h') =>
      rw [hr] at hfirst
      obtain ⟨ρ', hρ', hrun⟩ := hfirst
      exact (h₂ n σ' ρ' h' hρ').after (m := 0) hrun

theorem Follows.ite (ht : S.Tests a b c test) {d : Nat} (h₁ : S.Follows b d cmd₁)
    (h₂ : S.Follows c d cmd₂) :
    S.Follows a d (.ite test cmd₁ cmd₂) := by
  intro n σ ρ h hρ
  obtain ⟨ρ', hρ', hrun⟩ := ht σ ρ h hρ
  rw [Cmd.exec]
  dsimp only
  by_cases hv : (test.eval S.host S.reading σ h).1.isFalse
  · rw [if_pos hv] at hrun ⊢
    exact ((h₂ n σ ρ' _ hρ').after hrun).mono (Nat.le_succ n)
  · rw [if_neg hv] at hrun ⊢
    exact ((h₁ n σ ρ' _ hρ').after hrun).mono (Nat.le_succ n)

/-- Every turn takes a step, so as many turns as there are bound the steps from below. -/
theorem Arrives.turns (ht : S.Tests a b c test) (hb : S.Follows b a cmd) {σ : Store D} (hk : k ≤ n)
    (hρ : S.Holds σ ρ) :
    S.Arrives k a c ρ h
    (Cmd.turns (test.eval S.host S.reading) (cmd.exec S.host S.reading n) k σ h) := by
  induction k generalizing σ ρ h with
  | zero => exact fun st => ⟨_, .refl _⟩
  | succ k ih =>
      obtain ⟨ρ', hρ', hrun⟩ := ht σ ρ h hρ
      rw [Cmd.turns]
      dsimp only
      by_cases hv : (test.eval S.host S.reading σ h).1.isFalse
      · rw [if_pos hv] at hrun ⊢
        exact ⟨ρ', hρ', fun st => (hrun st).imp' (· + 1) fun _ => id⟩
      · rw [if_neg hv] at hrun ⊢
        have hbody := hb n σ ρ' (test.eval S.host S.reading σ h).2 hρ'
        match hr : cmd.exec S.host S.reading n σ (test.eval S.host S.reading σ h).2 with
        | none =>
            rw [hr] at hbody
            -- the body alone goes on for `n` steps
            exact (hbody.after hrun).mono (by omega)
        | some (true, σ', h') =>
            rw [hr] at hbody
            exact hbody.after hrun
        | some (false, σ', h') =>
            rw [hr] at hbody
            obtain ⟨ρ₂, hρ₂, hrun₂⟩ := hbody
            -- the step that the test takes pays for this turn
            exact ((ih (Nat.le_of_succ_le hk) hρ₂).after (m := 0) hrun₂).after hrun

theorem Follows.loop (ht : S.Tests a b c test) (hb : S.Follows b a cmd) :
    S.Follows a c (.loop test cmd) :=
  fun _ _ _ _ hρ => .turns ht hb le_rfl hρ

theorem follows_halt (hat : Code.At S.program.code a Block.halt) (b : Nat) : S.Follows a b .stop :=
  fun _ _ ρ _ hρ => ⟨ρ, hρ, fun _ => reaches_one hat (by decide) rfl⟩

variable {s t u : Draft}

theorem jumps_goto {l : Nat} (e : Emits s t (Block.goto l)) (hs : s.Sized) (hF : Moves t S.draft)
    (hl : S.draft.Bound l b) : S.Jumps s.emitter.pc b := by
  rw [Draft.Bound, ← S.labels] at hl
  exact fun ρ st h => reaches_one ((S.has e hs hF).goto hl) (by simp [Instr.width]) rfl

theorem Carries.follows {A : Type} {f : Store D → H → A × H} {r : Store D → A}
    (hc : S.Carries s t f r) (he : ∀ n σ h, cmd.exec S.host S.reading n σ h =
      some (false, σ, (f σ h).2)) :
    S.Follows s.emitter.pc t.emitter.pc cmd := by
  intro n σ ρ h hρ
  obtain ⟨ρ', hρ', -, -, hrun⟩ := hc.run h hρ
  rw [he]
  exact ⟨ρ', hρ', hrun⟩

theorem Gives.follows {op : Operand} {m : Meaning} (hg : S.Gives s t op m) :
    S.Follows s.emitter.pc t.emitter.pc m.command := by
  cases hg with
  | value h => exact h.carries.follows fun _ _ _ => rfl
  | type h => exact h.follows fun _ _ _ => rfl
  | effect h => exact h.follows fun _ _ _ => rfl

theorem Gives.vars {op : Operand} {m : Meaning} (hg : S.Gives s t op m) :
    s.vars.Agree cx.scope.qualifier t.vars := by
  cases hg with
  | value h => exact h.carries.vars
  | type h => exact h.vars
  | effect h => exact h.vars

theorem Yields.tests {x : String} {v : Term × Ty} {l no : Nat} (hx : S.Yields s u x v)
    (e : Emits u t (Block.branchUnless x l)) (hs : s.Sized) (hF : Moves t S.draft)
    (hl : S.draft.Bound l no) :
    S.Tests s.emitter.pc t.emitter.pc no v.1 := by
  rw [Draft.Bound, ← S.labels] at hl
  have hat := (S.has e (hx.carries.moves.sized hs) hF).branchUnless hl
  intro σ ρ h hρ
  obtain ⟨ρ', hρ', -, hr, hrun⟩ := hx.carries.run h hρ
  refine ⟨ρ', hρ', fun st => ?_⟩
  obtain ⟨k, hk⟩ := hrun st
  refine ⟨k + 1, ?_⟩
  rw [e.pc, ← hr]
  exact hk.trans (runs_branchUnless hat)

theorem Holds.update {σ : Store D} {y : String} (hρ : S.Holds σ ρ)
    (hy : ¬ Names.Temporary cx.scope.qualifier y) (v : Value D) :
    S.Holds (Function.update σ y v) (Function.update ρ y v) := by
  refine ⟨fun {z} hz => ?_, fun {w} hw hc hi => ?_⟩
  · by_cases he : z = y
    · rw [he, Function.update_self, Function.update_self]
    · rw [Function.update_of_ne he, Function.update_of_ne he, hρ.user hz]
  · have hne : w.name ≠ y := by
      rintro rfl
      obtain ⟨n, hn⟩ := hc
      exact hy ⟨n, "const", hn⟩
    rw [Function.update_of_ne hne, hρ.const hw hc hi]

theorem follows_assign {x y : String} {v : Term × Ty} (hx : S.Yields s u x v)
    (e : Emits u t (Block.assign y x)) (hs : s.Sized) (hF : Moves t S.draft)
    (hy : ¬ Names.Temporary cx.scope.qualifier y) :
    S.Follows s.emitter.pc t.emitter.pc (.assign y v.1) := by
  have hat := (S.has e (hx.carries.moves.sized hs) hF).at_of_noTarget Block.target_assign
  intro n σ ρ h hρ
  obtain ⟨ρ', hρ', -, hr, hrun⟩ := hx.carries.run h hρ
  refine ⟨_, hρ'.update hy _, fun st => (hrun st).trans ?_⟩
  rw [← hr, e.pc]
  exact reaches_assign hat

variable (S)

/-- The code between two drafts does what was found to be meant, and makes the same names known. -/
def Does (s t : Draft) (found : Option (Cmd × Typing)) : Prop :=
  ∃ cmd Γ, found = some (cmd, Γ) ∧ Γ.Agrees cx.scope.qualifier t.vars ∧
    S.Follows s.emitter.pc t.emitter.pc cmd

variable {S} {Γ : Typing} {e : Expr} {ident : String}

theorem Does.after {found : Option (Cmd × Typing)} (he : Emits s u []) (h : S.Does u t found) :
    S.Does s t found := by
  obtain ⟨cmd, Γ, hfound, hΓ, hc⟩ := h
  rw [he.silent] at hc
  exact ⟨cmd, Γ, hfound, hΓ, hc⟩

theorem does_skip (hpc : t.emitter.pc = s.emitter.pc) (hΓ : Γ.Agrees cx.scope.qualifier t.vars) :
    S.Does s t (some (.skip, Γ)) := by
  refine ⟨_, _, rfl, hΓ, ?_⟩
  rw [hpc]
  exact follows_skip _

theorem does_assignName (he : S.Sound Γ e) (hc : Names.IsProper ident)
    (h : assignName cx ident e s = .ok () t) (hΓ : Γ.Agrees cx.scope.qualifier s.vars)
    (hs : s.Sized) (hF : Moves t S.draft) :
    S.Does s t ((e.meaning cx.catalog cx.scope.qualifier Γ).bind
      (Meaning.assign cx.scope.qualifier Γ ident)) := by
  simp only [assignName, bind_eq_ok, resolve_eq_ok] at h
  obtain ⟨op, u, ho, y, _, ⟨hy, rfl⟩, h⟩ := h
  have hn : ¬ Names.Temporary cx.scope.qualifier y := hy ▸ Variables.not_temporary_resolve _ hc
  cases op with
  | nothing =>
      simp only [bind_eq_ok, contains_eq_ok] at h
      obtain ⟨known, _, ⟨-, rfl⟩, h⟩ := h
      cases known with
      | true => exact (reject_eq_ok.mp h).elim
      | false =>
          -- no variable has the type of what has no value
          obtain ⟨vs, hd, -⟩ := declare_eq_ok.mp h
          cases (Variables.declare_eq_ok hd).2.1
  | type ty =>
      have ed := declare_emits h
      obtain ⟨m, hm, hg⟩ := he.operand ho hΓ hs (ed.moves.trans hF)
      obtain ⟨vs, hd, rfl⟩ := declare_eq_ok.mp h
      cases hg with
      | type hg =>
          have hagree := hΓ.trans hg.vars
          have hnew := (hagree.isSome hn).trans (Variables.declare_eq_ok hd).1
          rw [hm, Option.bind_some, Meaning.assign, hagree.locate S.inside hc, hy, hnew]
          refine ⟨_, _, rfl, hagree.declare hd, ?_⟩
          rw [ed.silent]
          exact hg.follows fun _ _ _ => rfl
  | var x =>
      simp only [bind_eq_ok, typeOf_eq_ok, get_eq_ok] at h
      obtain ⟨ty, _, ⟨hty, rfl⟩, _, _, ⟨rfl, rfl⟩, h⟩ := h
      cases hch : u.vars.check y ty with
      | differs =>
          simp only [hch, bind_eq_ok, reject_eq_ok, false_and, and_false, exists_false] at h
      | agrees =>
          rw [hch] at h
          obtain ⟨m, hm, hg⟩ := he.operand ho hΓ hs ((emit_emits h).moves.trans hF)
          cases hg with
          | value hx =>
              obtain rfl := hx.typed.typeOf hty
              have hagree := hΓ.trans hx.carries.vars
              rw [hm, Option.bind_some, Meaning.assign, hagree.locate S.inside hc, hy,
                hagree.agrees hn hch]
              exact ⟨_, _, if_pos rfl, emit_vars h ▸ hagree,
                follows_assign hx (emit_emits h) hs hF hn⟩
      | unknown =>
          rw [hch] at h
          obtain ⟨_, u', hd, h⟩ := bind_eq_ok.mp h
          have em := (declare_emits hd).skip (emit_emits h)
          obtain ⟨m, hm, hg⟩ := he.operand ho hΓ hs (em.moves.trans hF)
          obtain ⟨vs, hvs, rfl⟩ := declare_eq_ok.mp hd
          cases hg with
          | value hx =>
              obtain rfl := hx.typed.typeOf hty
              have hagree := hΓ.trans hx.carries.vars
              rw [hm, Option.bind_some, Meaning.assign, hagree.locate S.inside hc, hy,
                hagree.unknown hn hch]
              exact ⟨_, _, rfl, emit_vars h ▸ hagree.declare hvs, follows_assign hx em hs hF hn⟩

theorem does_assign {target : Expr} (ht : ∀ x ∈ target.names, Names.IsProper x)
    (hf : target.callFree cx.catalog) (he : S.Sound Γ e) (h : assign cx target e s = .ok () t)
    (hΓ : Γ.Agrees cx.scope.qualifier s.vars) (hs : s.Sized) (hF : Moves t S.draft) :
    S.Does s t (Stmt.assignment cx.catalog cx.scope.qualifier target e Γ) := by
  cases target with
  | name p ident => exact does_assignName he (ht ident (by simp [Expr.names])) h hΓ hs hF
  | subscript p container index =>
      simp only [Expr.names, List.forall_mem_append] at ht
      simp only [Expr.callFree, Bool.and_eq_true] at hf
      simp only [assign, bind_eq_ok, located_eq_ok, pure_eq_ok] at h
      obtain ⟨x, v, hx, y, u, hy, z, w, hz, op, _, h, -, rfl⟩ := h
      have hw : Moves w _ := (Along.methodCall x "Set" [y, z]).moves cx.functions h
      have hu : Moves u _ := ((Along.value e).moves cx.functions hz).trans hw
      have hv : Moves v _ := ((Along.value index).moves cx.functions hy).trans hu
      obtain ⟨a, ha, hx⟩ := (sound container ht.1 hf.1).value hx hΓ hs (hv.trans hF)
      have hΓv := hΓ.trans hx.carries.vars
      have hvs := hx.carries.moves.sized hs
      obtain ⟨b, hb, hy⟩ := (sound index ht.2 hf.2).value hy hΓv hvs (hu.trans hF)
      have hΓu := hΓv.trans hy.carries.vars
      have hus := hy.carries.moves.sized hvs
      obtain ⟨d, hd, hz⟩ := he.value hz hΓu hus (hw.trans hF)
      obtain ⟨m, hm, hg⟩ :=
        gives_item (.cons hx (.cons hy hz.loads)) h (hz.carries.moves.sized hus) hF
      rw [Stmt.assignment, ha, hb, hd]
      dsimp only [Option.bind_eq_bind, Option.bind_some]
      rw [hm]
      exact ⟨_, _, rfl, hΓ.trans hg.vars, hg.follows⟩
  | _ => exact (reject_eq_ok.mp (located_eq_ok.mp h)).elim

theorem does_effects (he : S.Sound Γ e) (h : effects cx e s = .ok () t)
    (hΓ : Γ.Agrees cx.scope.qualifier s.vars) (hs : s.Sized) (hF : Moves t S.draft) :
    S.Does s t ((e.meaning cx.catalog cx.scope.qualifier Γ).map fun m => (m.command, Γ)) := by
  have hop : ∃ op m, e.meaning cx.catalog cx.scope.qualifier Γ = some m ∧ S.Gives s t op m := by
    cases e with
    | call p callee args =>
        simp only [effects, bind_eq_ok, located_eq_ok, pure_eq_ok] at h
        obtain ⟨op, _, h, -, rfl⟩ := h
        exact ⟨op, he.of_ok h hΓ hs hF⟩
    | _ =>
        simp only [effects, bind_eq_ok, pure_eq_ok] at h
        obtain ⟨op, _, h, -, rfl⟩ := h
        exact ⟨op, he.operand h hΓ hs hF⟩
  obtain ⟨op, m, hm, hg⟩ := hop
  rw [hm]
  exact ⟨_, _, rfl, hΓ.trans hg.vars, hg.follows⟩

theorem does_plain {st : Stmt} (hp : st.isPlain) (hn : ∀ x ∈ st.names, Names.IsProper x)
    (hf : st.callFree cx.catalog) (h : stmt cx st s = .ok () t)
    (hΓ : Γ.Agrees cx.scope.qualifier s.vars) (hs : s.Sized) (hF : Moves t S.draft) :
    S.Does s t (st.meaning cx.catalog cx.scope.qualifier Γ) := by
  obtain ⟨_, u, hnote, h⟩ := bind_eq_ok.mp h
  have en := note_emits hnote
  obtain rfl := note_eq_ok.mp hnote
  refine .after en ?_
  have hs := en.moves.sized hs
  cases st with
  | branch | loop | ret => cases hp
  | assign p target e =>
      simp only [Stmt.names, List.forall_mem_append] at hn
      simp only [Stmt.callFree, Bool.and_eq_true] at hf
      rw [lowerStmt] at h
      rw [Stmt.meaning]
      exact does_assign hn.1 hf.1 (sound e hn.2 hf.2) h hΓ hs hF
  | update p target op e =>
      simp only [Stmt.names, List.forall_mem_append] at hn
      simp only [Stmt.callFree, Bool.and_eq_true] at hf
      rw [lowerStmt] at h
      rw [Stmt.meaning]
      exact does_assign hn.1 hf.1 (.binary (sound target hn.1 hf.1) (sound e hn.2 hf.2)) h hΓ hs hF
  | eval p e =>
      rw [lowerStmt] at h
      rw [Stmt.meaning]
      exact does_effects (sound e hn hf) h hΓ hs hF
  | global p names =>
      rw [lowerStmt] at h
      rw [Stmt.meaning]
      obtain rfl := modify_eq_ok.mp h
      exact does_skip rfl (hΓ.trans (Variables.agree_markExported names _))
  | imports | importsFrom | pass =>
      rw [lowerStmt] at h
      rw [Stmt.meaning]
      obtain ⟨-, rfl⟩ := pure_eq_ok.mp h
      exact does_skip rfl hΓ
  | define | forLoop | breakLoop | continueLoop | other =>
      rw [lowerStmt] at h
      exact (reject_eq_ok.mp h).elim

theorem does_ret {p : Pos} {value : Option Expr} (hp : cx.scope.place = .event)
    (h : stmt cx (.ret p value) s = .ok () t) (hΓ : Γ.Agrees cx.scope.qualifier s.vars)
    (hs : s.Sized) (hF : Moves t S.draft) :
    S.Does s t (Stmt.meaning cx.catalog cx.scope.qualifier (.ret p value) Γ) := by
  obtain ⟨_, u, hnote, h⟩ := bind_eq_ok.mp h
  have en := note_emits hnote
  obtain rfl := note_eq_ok.mp hnote
  rw [lowerStmt] at h
  cases value with
  | some e => simp only [lowerReturn, hp, reject_eq_ok] at h
  | none =>
      simp only [lowerReturn, hp] at h
      have em := en.skip (emit_emits h)
      rw [Stmt.meaning]
      exact ⟨_, _, rfl, emit_vars h ▸ hΓ, follows_halt (S.has em hs hF).halt _⟩

theorem Sound.tests {x : String} {l no : Nat} (he : S.Sound Γ e) (hx : condition cx e s = .ok x u)
    (hem : emit (Block.branchUnless x l) u = .ok () t) (hΓ : Γ.Agrees cx.scope.qualifier s.vars)
    (hs : s.Sized) (hF : Moves t S.draft) (hl : S.draft.Bound l no) :
    Γ.Agrees cx.scope.qualifier t.vars ∧
    ∃ test, e.condition cx.catalog cx.scope.qualifier Γ = some test ∧
      S.Tests s.emitter.pc t.emitter.pc no test := by
  simp only [condition, bind_eq_ok, typeOf_eq_ok] at hx
  obtain ⟨y, _, hy, ty, _, ⟨hty, rfl⟩, hx⟩ := hx
  have em := emit_emits hem
  by_cases hb : ty = .boolean
  · rw [if_pos hb] at hx
    obtain ⟨rfl, rfl⟩ := pure_eq_ok.mp hx
    obtain ⟨v, hv, hy⟩ := he.value hy hΓ hs (em.moves.trans hF)
    obtain rfl := hy.typed.typeOf hty
    refine ⟨emit_vars hem ▸ hΓ.trans hy.carries.vars, v.1, ?_, hy.tests em hs hF hl⟩
    rw [Expr.condition, hv]
    exact if_pos hb
  · rw [if_neg hb] at hx
    exact (reject_eq_ok.mp (located_eq_ok.mp hx)).elim

theorem Sound.branchHead {labels : Nat × Nat} {no : Nat} (he : S.Sound Γ e)
    (h : branchHead cx e s = .ok labels t) (hΓ : Γ.Agrees cx.scope.qualifier s.vars) (hs : s.Sized)
    (hF : Moves t S.draft) (hl : S.draft.Bound labels.1 no) :
    Γ.Agrees cx.scope.qualifier t.vars ∧
    ∃ test, e.condition cx.catalog cx.scope.qualifier Γ = some test ∧
      S.Tests s.emitter.pc t.emitter.pc no test := by
  simp only [Lower.branchHead, bind_eq_ok, pure_eq_ok] at h
  obtain ⟨l₁, s₁, h₁, l₂, s₂, h₂, x, u, hx, _, _, hem, rfl, rfl⟩ := h
  have e₂ := (freshLabel_emits h₁).1.skip (freshLabel_emits h₂).1
  have hv : s₂.vars = s.vars := (freshLabel_vars h₂).trans (freshLabel_vars h₁)
  have ht := he.tests hx hem (hv ▸ hΓ) (e₂.moves.sized hs) hF hl
  rwa [e₂.silent] at ht

theorem Sound.loopHead {labels : Nat × Nat} {no : Nat} (he : S.Sound Γ e)
    (h : loopHead cx e s = .ok labels t) (hΓ : Γ.Agrees cx.scope.qualifier s.vars) (hs : s.Sized)
    (hF : Moves t S.draft) (hl : S.draft.Bound labels.2 no) :
    Γ.Agrees cx.scope.qualifier t.vars ∧
    ∃ test, e.condition cx.catalog cx.scope.qualifier Γ = some test ∧
      S.Tests s.emitter.pc t.emitter.pc no test := by
  simp only [Lower.loopHead, bind_eq_ok, pure_eq_ok] at h
  obtain ⟨l₁, s₁, h₁, l₂, s₂, h₂, _, s₃, hb, x, u, hx, _, _, hem, rfl, rfl⟩ := h
  have e₃ := (freshLabel_emits h₁).1.skip ((freshLabel_emits h₂).1.skip (bindLabel_emits hb).1)
  have hv : s₃.vars = s.vars :=
    (bindLabel_vars hb).trans ((freshLabel_vars h₂).trans (freshLabel_vars h₁))
  have ht := he.tests hx hem (hv ▸ hΓ) (e₃.moves.sized hs) hF hl
  rwa [e₃.silent] at ht

theorem Does.cons {st : Stmt} {ss : List Stmt}
    (h : S.Does s u (st.meaning cx.catalog cx.scope.qualifier Γ))
    (hr : ∀ Δ, Δ.Agrees cx.scope.qualifier u.vars →
      S.Does u t (Stmt.meaningAll cx.catalog cx.scope.qualifier ss Δ)) :
    S.Does s t (Stmt.meaningAll cx.catalog cx.scope.qualifier (st :: ss) Γ) := by
  obtain ⟨a, Δ, ha, hΔ, hca⟩ := h
  obtain ⟨b, Θ, hb, hΘ, hcb⟩ := hr Δ hΔ
  refine ⟨.seq a b, Θ, ?_, hΘ, hca.seq hcb⟩
  rw [Stmt.meaningAll, ha]
  dsimp only [Option.bind_eq_bind, Option.bind_some]
  rw [hb]
  rfl

section

variable {s₀ s₁ s₂ s₃ s₄ : Draft} {p : Pos} {body orelse : List Stmt} {labels : Nat × Nat}
  {entry : Entry}

theorem does_branch (he : S.Sound Γ e) (hn : note entry s = .ok () s₀)
    (hh : Lower.branchHead cx e s₀ = .ok labels s₁)
    (hb : ∀ Δ, Δ.Agrees cx.scope.qualifier s₁.vars →
      S.Does s₁ s₂ (Stmt.meaningAll cx.catalog cx.scope.qualifier body Δ)) (ht :
      branchTurn labels s₂ = .ok () s₃) (ho : ∀ Δ, Δ.Agrees cx.scope.qualifier s₃.vars →
      S.Does s₃ s₄ (Stmt.meaningAll cx.catalog cx.scope.qualifier orelse Δ)) (hend :
      bindLabel labels.2 s₄ = .ok () t) (hs : s.Sized) (hbm : Moves s₁ s₂) (hom : Moves s₃ s₄) (hF :
      Moves t S.draft) (hΓ : Γ.Agrees cx.scope.qualifier s.vars) (hk : s.Numbered) :
    S.Does s t (Stmt.meaning cx.catalog cx.scope.qualifier (.branch p e body orelse) Γ) := by
  have en := note_emits hn
  obtain rfl := note_eq_ok.mp hn
  obtain ⟨_, _, eh, _⟩ := branchHead_emits hh (en.moves.numbered hk)
  obtain ⟨et, bt⟩ := branchTurn_emits ht
  obtain ⟨ee, be, _⟩ := bindLabel_emits hend
  -- both labels are bound further on, so it is the finished draft that tells where
  have hF₃ : Moves s₃ S.draft := hom.trans (ee.moves.trans hF)
  have hF₁ : Moves s₁ S.draft := hbm.trans (et.moves.trans hF₃)
  have hs₀ := en.moves.sized hs
  obtain ⟨hΓ₁, test, htest, hct⟩ := he.branchHead hh hΓ hs₀ hF₁ ((Moves.grows hF₃).bound bt)
  obtain ⟨a, Δ, ha, hΔ, hca⟩ := hb Γ hΓ₁
  obtain ⟨b, Θ, hb, hΘ, hcb⟩ := ho Δ (branchTurn_vars ht ▸ hΔ)
  have hj := jumps_goto et (hbm.sized (eh.moves.sized hs₀)) hF₃ ((Moves.grows hF).bound be)
  refine ⟨.ite test a b, Θ, ?_, bindLabel_vars hend ▸ hΘ, ?_⟩
  · rw [Stmt.meaning, htest]
    dsimp only [Option.bind_eq_bind, Option.bind_some]
    rw [ha]
    dsimp only [Option.bind_some]
    rw [hb]
    rfl
  · rw [ee.silent]
    exact .ite hct (hca.jump hj) hcb

theorem does_loop (he : S.Sound Γ e) (hn : note entry s = .ok () s₀)
    (hh : Lower.loopHead cx e s₀ = .ok labels s₁)
    (hb : ∀ Δ, Δ.Agrees cx.scope.qualifier s₁.vars →
      S.Does s₁ s₂ (Stmt.meaningAll cx.catalog cx.scope.qualifier body Δ)) (ht :
      loopTail labels s₂ = .ok () t) (hs : s.Sized) (hbm : Moves s₁ s₂) (hF : Moves t S.draft) (hΓ :
      Γ.Agrees cx.scope.qualifier s.vars) (hk : s.Numbered) :
    S.Does s t (Stmt.meaning cx.catalog cx.scope.qualifier (.loop p e body []) Γ) := by
  have en := note_emits hn
  obtain rfl := note_eq_ok.mp hn
  obtain ⟨bh, _, _, eh, _⟩ := loopHead_emits hh (en.moves.numbered hk)
  obtain ⟨et, bt⟩ := loopTail_emits ht
  have hF₁ : Moves s₁ S.draft := hbm.trans (et.moves.trans hF)
  have hs₀ := en.moves.sized hs
  obtain ⟨hΓ₁, test, htest, hct⟩ := he.loopHead hh hΓ hs₀ hF₁ ((Moves.grows hF).bound bt)
  obtain ⟨a, Δ, ha, hΔ, hca⟩ := hb Γ hΓ₁
  have hj := jumps_goto et (hbm.sized (eh.moves.sized hs₀)) hF ((Moves.grows hF₁).bound bh)
  refine ⟨.loop test a, Δ, ?_, loopTail_vars ht ▸ hΔ, .loop hct (hca.jump hj)⟩
  rw [Stmt.meaning, htest]
  dsimp only [Option.bind_eq_bind, Option.bind_some]
  rw [ha]
  rfl

end

theorem does_statements {ss : List Stmt} (hp : cx.scope.place = .event) (h : Lowered cx ss s t)
    (hn : ∀ x ∈ Stmt.namesAll ss, Names.IsProper x) (hf : Stmt.callFreeAll cx.catalog ss)
    (hs : s.Sized) (hk : s.Numbered) (hF : Moves t S.draft)
    (hΓ : Γ.Agrees cx.scope.qualifier s.vars) :
    S.Does s t (Stmt.meaningAll cx.catalog cx.scope.qualifier ss Γ) := by
  induction h generalizing Γ with
  | nil s => exact does_skip rfl hΓ
  | plain hplain h hr ih =>
      simp only [Stmt.namesAll, List.forall_mem_append] at hn
      simp only [Stmt.callFreeAll, Bool.and_eq_true] at hf
      have hm := (Along.stmt hplain).moves cx.functions h
      have hFt := (hr.moves (hm.numbered hk)).trans hF
      exact .cons (does_plain hplain hn.1 hf.1 h hΓ hs hFt) fun Δ hΔ =>
        ih hn.2 hf.2 (hm.sized hs) (hm.numbered hk) hF hΔ
  | leave h hr ih =>
      simp only [Stmt.namesAll, List.forall_mem_append] at hn
      simp only [Stmt.callFreeAll, Bool.and_eq_true] at hf
      obtain ⟨_, e, _⟩ := ret_emits h
      have hm := e.moves
      have hFt := (hr.moves (hm.numbered hk)).trans hF
      exact .cons (does_ret hp h hΓ hs hFt) fun Δ hΔ =>
        ih hn.2 hf.2 (hm.sized hs) (hm.numbered hk) hF hΔ
  | branch hnote hh hb ht ho he hr ihb iho ihr =>
      simp only [Stmt.namesAll, Stmt.names, List.forall_mem_append] at hn
      simp only [Stmt.callFreeAll, Stmt.callFree, Bool.and_eq_true] at hf
      have en := note_emits hnote
      obtain ⟨_, _, eh, _⟩ := branchHead_emits hh (en.moves.numbered hk)
      have m₁ : Moves _ _ := en.moves.trans eh.moves
      have mb := hb.moves (m₁.numbered hk)
      have m₃ : Moves _ _ := (m₁.trans mb).trans (branchTurn_emits ht).1.moves
      have mo := ho.moves (m₃.numbered hk)
      have me := (bindLabel_emits he).1.moves
      have mt : Moves _ _ := (m₃.trans mo).trans me
      have hFt := (hr.moves (mt.numbered hk)).trans hF
      have hF₃ := mo.trans (me.trans hFt)
      refine .cons (does_branch (sound _ hn.1.1 hf.1.1) hnote hh (fun Δ hΔ => ?_) ht
        (fun Δ hΔ => ?_) he hs mb mo
        hFt hΓ hk) fun Δ hΔ => ihr hn.2 hf.2 (mt.sized hs) (mt.numbered hk) hF hΔ
      · exact ihb hn.1.2.1 hf.1.2.1 (m₁.sized hs) (m₁.numbered hk)
          ((branchTurn_emits ht).1.moves.trans hF₃) hΔ
      · exact iho hn.1.2.2 hf.1.2.2 (m₃.sized hs) (m₃.numbered hk) (me.trans hFt) hΔ
  | loop hnote hh hb ht hr ihb ihr =>
      simp only [Stmt.namesAll, Stmt.names, List.forall_mem_append] at hn
      simp only [Stmt.callFreeAll, Stmt.callFree, Bool.and_eq_true] at hf
      have en := note_emits hnote
      obtain ⟨_, _, _, eh, _⟩ := loopHead_emits hh (en.moves.numbered hk)
      have m₁ : Moves _ _ := en.moves.trans eh.moves
      have mb := hb.moves (m₁.numbered hk)
      have me := (loopTail_emits ht).1.moves
      have mt : Moves _ _ := (m₁.trans mb).trans me
      have hFt := (hr.moves (mt.numbered hk)).trans hF
      refine .cons (does_loop (sound _ hn.1.1 hf.1.1) hnote hh (fun Δ hΔ => ?_) ht hs mb hFt hΓ hk)
        fun Δ hΔ =>
        ihr hn.2 hf.2 (mt.sized hs) (mt.numbered hk) hF hΔ
      exact ihb hn.1.2.1 hf.1.2.1 (m₁.sized hs) (m₁.numbered hk) (me.trans hFt) hΔ

end Scene
end StackScript
