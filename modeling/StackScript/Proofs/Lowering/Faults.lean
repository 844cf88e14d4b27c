import StackScript.Proofs.Lowering.Codeless

namespace StackScript

/-- The definition of a function whose label has an address already. -/
structure Stmt.Clashes (c : Catalog) (st : Stmt) (s : Draft) (g : Function) : Prop where
  function : st.function? c = some g
  taken : s.Taken (Names.functionId g.name g.types)

def Function.boundTwice (g : Function) : Fault :=
  .rejected (.boundTwice (Names.functionId g.name g.types))

namespace Lower

open Draft

variable {cx : Context} {s t : Draft} {f : Fault}

theorem emit_bindLabel_refuses {block : List Instr} {l : Nat} (ho : s.Open l)
    (h : (do emit block; bindLabel l : Lower Unit) s = .error f t) : f.isUnlabelled := by
  obtain h | ⟨_, u, he, h⟩ := bind_eq_error.mp h
  · exact (Refuses.modify _).of_error h
  · exact absurd h (bindLabel_ne_error (ho.shelters (emit_shelters he)))

namespace Refuses

theorem loopHead (test : Expr) : Refuses (loopHead cx test) := by
  refine ⟨fun {s f t} h => ?_⟩
  obtain h | ⟨top, s₁, h₁, h⟩ := bind_eq_error.mp h
  · exact (modifyGet _).of_error h
  obtain h | ⟨endLabel, s₂, h₂, h⟩ := bind_eq_error.mp h
  · exact (modifyGet _).of_error h
  obtain h | ⟨_, s₃, _, h⟩ := bind_eq_error.mp h
  · exact absurd h
      (bindLabel_ne_error ((freshLabel_open h₁).shelters ((Along.freshLabel _).of_ok h₂)))
  have hend : Along Shelters (do
      let cond ← Lower.condition cx test
      Lower.emit (Block.branchUnless cond endLabel)
      return (top, endLabel)) := .bind (.condition test) fun _ =>
        .bind (.emit_shelters _) fun _ => .pure _
  exact hend.of_error h

mutual

theorem stmt : ∀ st : Stmt, Refuses (stmt cx st)
  | .branch p test body orelse => by
      rw [Lower.stmt, noted, lowerStmt_branch]
      refine (modify _).bind fun _ => ⟨fun {s f t} h => ?_⟩
      obtain h | ⟨labels, s₁, hh, h⟩ := bind_eq_error.mp h
      · exact (Along.branchHead (R := Shelters) test).of_error h
      obtain ⟨_, _, hlt, o₁, o₂⟩ := branchHead_shelters hh
      obtain h | ⟨_, s₂, hb, h⟩ := bind_eq_error.mp h
      · exact (block body).of_error h
      have hbody := (lowered_block hb).shelters
      obtain h | ⟨_, s₃, ht, h⟩ := bind_eq_error.mp h
      · exact emit_bindLabel_refuses (o₁.shelters hbody) h
      obtain ⟨_, s', he, ht⟩ := bind_eq_ok.mp ht
      have hgoto := hbody.trans (emit_shelters he)
      obtain h | ⟨_, s₄, ho, h⟩ := bind_eq_error.mp h
      · exact (block orelse).of_error h
      have o₃ := bindLabel_open (o₂.shelters hgoto) hlt.ne' ht
      exact absurd h (bindLabel_ne_error (o₃.shelters (lowered_block ho).shelters))
  | .loop p test body (_ :: _) => by
      refine (modify _).bind fun _ => ?_
      rw [lowerStmt]
      exact reject rfl
  | .loop p test body [] => by
      rw [Lower.stmt, noted, lowerStmt_loop]
      refine (modify _).bind fun _ => ⟨fun {s f t} h => ?_⟩
      obtain h | ⟨labels, s₁, hh, h⟩ := bind_eq_error.mp h
      · exact (loopHead test).of_error h
      obtain h | ⟨_, s₂, hb, h⟩ := bind_eq_error.mp h
      · exact (block body).of_error h
      exact emit_bindLabel_refuses ((loopHead_shelters hh).2.2.shelters (lowered_block hb).shelters)
        h
  | .ret p e => by
      refine (modify _).bind fun _ => ?_
      rw [lowerStmt]
      exact (Along.lowerReturn (R := Shelters) e).toRefuses
  | .assign .. | .update .. | .eval .. | .global .. | .imports .. | .importsFrom .. | .pass _
  | .define .. | .forLoop _ | .breakLoop _ | .continueLoop _ | .other .. =>
      (Along.stmt (R := Shelters) rfl).toRefuses

theorem block : ∀ ss : List Stmt, Refuses (block cx ss)
  | [] => by rw [Lower.block]; exact pure _
  | st :: ss => by
      rw [Lower.block]
      exact (located (stmt st)).bind fun _ => block ss

end

variable {c : Catalog} {fs : Functions}

theorem event (name : String) (params : List Param) (body : List Stmt) :
    Refuses (event c fs name params body) :=
  (modify _).bind fun _ => (modify _).bind fun _ => (modify _).bind fun _ =>
    (block body).bind fun _ => modify _

theorem declareFunction (name : String) (params : List Param) (returns : Option String) :
    Refuses (declareFunction c fs name params returns) := by
  refine (accept (checks_signature ..)).bind fun (types, ret) => (accept ?_).bind fun gs =>
    (Along.declareAll (R := Still) _).toRefuses.bind fun _ => (modify _).bind fun _ => pure _
  rw [Functions.add]
  split
  · exact .error (Diagnostic.isUnlabelled_functionTwice ..)
  · exact .ok _

theorem declareDefinitions (fs : Functions) (ss : List Stmt) :
    Refuses (declareDefinitions c fs ss) := by
  fun_induction Lower.declareDefinitions c fs ss with
  | case1 => exact pure _
  | case2 fs p name params returns body rest ih =>
      refine (located ?_).bind fun gs => ih gs
      split
      · refine get.bind fun d => ?_
        split
        · exact (reject rfl).bind fun _ =>
            (Along.declareEvent (R := Still) ..).toRefuses.bind fun _ => pure _
        · exact (Along.declareEvent (R := Still) ..).toRefuses.bind fun _ => pure _
      · exact declareFunction ..
  | case3 fs st rest _ ih => exact ih

theorem header (m : Module) : Refuses (header c m) :=
  (Along.declareReserved (R := Still)).toRefuses.bind fun _ => (modify _).bind fun _ =>
    (declareDefinitions [] m.body).bind fun _ => (modify _).bind fun _ => pure _

end Refuses

variable {c : Catalog} {fs : Functions}

theorem function_fails {p : Pos} {name : String} {params : List Param} {returns : Option String}
    {body : List Stmt} (he : ¬ Names.isEvent name) (hs : Moves .empty s)
    (h : function c fs name params returns body s = .error f t) :
    f.isUnlabelled ∨ ∃ g, Stmt.Clashes c (.define p name params returns body) s g ∧
    f = g.boundTwice := by
  obtain h | ⟨⟨types, ret⟩, u, ha, h⟩ := bind_eq_error.mp h
  · exact .inl ((Refuses.accept (checks_signature ..)).of_error h)
  obtain ⟨hsig, rfl⟩ := accept_eq_ok.mp ha
  cases hg : fs.find? name types with
  | none =>
      simp only [hg] at h
      exact .inl ((Refuses.reject rfl).of_error h)
  | some g =>
      simp only [hg] at h
      obtain h | ⟨l, s₁, hl, h⟩ := bind_eq_error.mp h
      · exact .inl ((Refuses.modifyGet _).of_error h)
      obtain ⟨e₁, hn⟩ := namedLabel_emits hl
      obtain h | ⟨_, s₂, _, h⟩ := bind_eq_error.mp h
      · have m₁ := hs.trans e₁.moves
        obtain ⟨label, a, hlabel, rfl⟩ :=
          bindLabel_eq_error (Moves.numbered m₁ numbered_empty _ _ hn) h
        obtain ⟨_, ha⟩ := Moves.titled m₁ _ _ hn
        rw [hlabel] at ha
        cases ha
        have hb : s.Bound l a := namedLabel_bound hl (bound_iff.mpr ⟨_, hlabel⟩)
        refine .inr ⟨_, ⟨by rw [Stmt.function?, if_neg he, hsig], l, a, ?_, hb⟩, rfl⟩
        exact (Moves.grows e₁.moves).shared hb.made hn
      have hend : Refuses (do
          emit (Block.popIntoAll g.params)
          block ⟨c, fs, .function (Names.functionId name types) ret g.params⟩ body
          emit (Block.ret Names.returnAddress none)) :=
        (Refuses.modify _).bind fun _ => (Refuses.block body).bind fun _ => .modify _
      exact .inl (hend.of_error h)

theorem topLevel_fails {st : Stmt} (hs : Moves .empty s) (h : topLevel c fs st s = .error f t) :
    f.isUnlabelled ∨ ∃ g, st.Clashes c s g ∧ f = g.boundTwice := by
  cases st with
  | define p name params returns body =>
      rw [topLevel] at h
      split at h
      · exact .inl ((Refuses.event name params body).of_error h)
      · exact function_fails ‹_› hs h
  | assign p target e =>
      rw [topLevel] at h
      obtain h | ⟨b, u, _, h⟩ := bind_eq_error.mp h
      · exact .inl ((Along.dataInit (R := Still) target e).of_error h)
      · split at h
        · exact .inl ((Refuses.pure _).of_error h)
        · exact .inl ((Refuses.stmt _).of_error h)
  | _ => exact .inl ((Refuses.stmt _).of_error h)

theorem topLevelAll_fails {ss : List Stmt} (hs : Moves .empty s)
    (h : topLevelAll c fs ss s = .error f t) :
    f.isUnlabelled ∨ ∃ k st u g, ss[k]? = some st ∧ topLevelAll c fs (ss.take k) s = .ok () u ∧
      st.Clashes c u g ∧ f = g.boundTwice.locate st.pos := by
  induction ss generalizing s with
  | nil => exact .inl ((Refuses.pure _).of_error h)
  | cons st ss ih =>
      rw [topLevelAll] at h
      obtain h | ⟨_, u, hu, h⟩ := bind_eq_error.mp h
      · obtain ⟨f, hf, rfl⟩ := located_eq_error.mp h
        rw [Fault.isUnlabelled_locate]
        obtain hf | ⟨g, hg, rfl⟩ := topLevel_fails hs hf
        · exact .inl hf
        · exact .inr ⟨0, st, s, g, rfl, rfl, hg, rfl⟩
      · have hm : Moves s u := topLevel_along (located_eq_ok.mp hu)
        obtain hf | ⟨k, st', u', g, hk, ht, hg⟩ := ih (hs.trans hm) h
        · exact .inl hf
        · exact .inr ⟨k + 1, st', u', g, hk, bind_eq_ok.mpr ⟨_, u, hu, ht⟩, hg⟩

theorem checks_dataSegment (vs : Variables) (c : Catalog) : Checks (vs.dataSegment c) := by
  rw [Variables.dataSegment]
  split
  · exact .error rfl
  · refine (Checks.mapM (fun v => ?_) vs.declared).map _
    rw [Variables.dataVar]
    split
    · exact .ok _
    · exact .error rfl

end Lower

namespace Module

open Lower

variable {c : Catalog} {m : Module} {f : Fault}

/-- A module is refused for what its script says, or a label is bound twice, or its draft cannot
be linked. -/
theorem refusal_of_compile (h : m.compile c = .error f) :
    f.isUnlabelled ∨
      (∃ k st fs s g, m.body[k]? = some st ∧ m.lowered c k = some (fs, s) ∧ st.Clashes c s g ∧
        f = g.boundTwice.locate st.pos) ∨
      ∃ fs F exports vars, m.lowered c m.body.length = some (fs, F) ∧
        F.vars.dataSegment c = .ok (exports, vars) ∧
        (F.emitter.toProgram exports vars).link = .error f := by
  have hm : ∃ s, Lower.module c m .empty = .error f s := by
    rw [compile, compileNoted] at h
    split at h
    · cases h
    · cases h
      exact ⟨_, ‹_›⟩
  obtain ⟨s, hm⟩ := hm
  rw [Lower.module_eq] at hm
  obtain h | ⟨fs, s₀, hh, hm⟩ := bind_eq_error.mp hm
  · exact .inl ((Refuses.header m).of_error h)
  obtain h | ⟨_, F, ht, hm⟩ := bind_eq_error.mp hm
  · obtain hf | ⟨k, st, u, g, hk, hu, hg⟩ := topLevelAll_fails (header_eq_ok c hh).1.emits.moves h
    · exact .inl hf
    · exact .inr (.inl ⟨k, st, fs, u, g, hk, lowered_eq_some.mpr (upTo_eq_ok.mpr ⟨s₀, hh, hu⟩), hg⟩)
  obtain h | ⟨_, _, hF, hm⟩ := bind_eq_error.mp hm
  · exact .inl (Refuses.get.of_error h)
  obtain ⟨rfl, rfl⟩ := get_eq_ok.mp hF
  obtain h | ⟨⟨exports, vars⟩, _, hd, hm⟩ := bind_eq_error.mp hm
  · exact .inl ((Refuses.accept (checks_dataSegment ..)).of_error h)
  obtain ⟨hdata, rfl⟩ := accept_eq_ok.mp hd
  obtain h | ⟨_, u, _, hm⟩ := bind_eq_error.mp hm
  · exact .inl ((Refuses.modify _).of_error h)
  refine .inr (.inr ⟨fs, F, exports, vars, ?_, hdata, ?_⟩)
  · exact lowered_eq_some.mpr (upTo_eq_ok.mpr ⟨s₀, hh, by rwa [List.take_length]⟩)
  · cases hl : (F.emitter.toProgram exports vars).link with
    | error g => rw [hl] at hm; cases hm; rfl
    | ok q =>
        rw [hl] at hm
        obtain h | ⟨_, _, _, h⟩ := bind_eq_error.mp hm
        · cases h
        · cases h

end Module
end StackScript
