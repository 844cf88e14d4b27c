import StackScript.Proofs.Identifiers

namespace StackScript

open Draft

/-- A value that is assigned gets into the variable `x`: it is copied there, or `x` is declared with
a type. -/
inductive Lower.Lands (cx : Context) (e : Expr) (x : String) (s t : Draft) : Prop
  | value {s₀ src u} (hn : Emits s s₀ []) (he : expr cx e s₀ = .ok (.var src) u)
      (hc : Emits u t (Block.assign x src))
  | type {s₀ ty u} (hn : Emits s s₀ []) (he : expr cx e s₀ = .ok (.type ty) u)
      (hd : declare x ty .null u = .ok () t)

theorem Lower.stmt_of_block {cx : Context} {ss : List Stmt} {y : Stmt} {s t : Draft} {u : Unit}
    (h : block cx ss s = .ok u t) (hy : y ∈ ss) :
    ∃ s' t', Moves s s' ∧ stmt cx y s' = .ok () t' ∧ Moves t' t := by
  induction ss generalizing s with
  | nil => cases hy
  | cons z ss ih =>
      rw [block] at h
      obtain ⟨_, s₁, hz, hss⟩ := bind_eq_ok.mp h
      rw [located_eq_ok] at hz
      obtain rfl | hy := List.mem_cons.mp hy
      · exact ⟨s, s₁, .refl, hz, (lowered_block hss).along⟩
      · obtain ⟨s', t', hs, hrun, ht⟩ := ih hss hy
        have hm : Moves s s₁ := (lowered_stmt hz).along
        exact ⟨s', t', hm.trans hs, hrun, ht⟩

/-- Letters, digits and underscores, with no digit in front. -/
def Names.isOrdinary (x : String) : Bool :=
  x.toList.head?.any (fun a => a.isAlpha || a = '_') && x.toList.all fun a =>
    a.isAlphanum || a = '_'

def Stmt.writtenNames (st : Stmt) : List String :=
  st.identifiers ++
    match st with
    | .define _ name params returns _ => name :: params.filterMap Param.typeName ++ returns.toList
    | _ => []

namespace Module

variable {c : Catalog} {m : Module} {p : Program} {fs : Functions} {d : Nat → Draft} {k : Nat}
  {st : Stmt} {ident x : String}

/-- What a name should stand for: a parameter of the definition that it is used in, or a variable
that is there under this name. -/
inductive Means (c : Catalog) (m : Module) (st : Stmt) (ident : String) : String → Prop
  | param (h : ident ∈ st.params.map Param.name) :
      Means c m st ident (Names.qualify (st.scope c).qualifier ident)
  | own (h : m.Introduces c ident) : Means c m st ident ident

/-- A name that is used in the `k`-th statement stands for the variable `x`, and rightly so. -/
structure Stands (c : Catalog) (m : Module) (p : Program) (k : Nat) (st : Stmt) (ident x : String) :
    Prop where
  known : x ∈ p.vars.map DataVar.name
  means : m.Means c st ident x
  params : ∀ {j st'}, m.body[j]? = some st' → x ∈ st'.paramVars c → j = k
  generated : ∀ st' ∈ m.body, ¬ Names.Generated (Names.temporaries ++ Names.constants)
    (st'.scope c).qualifier x

/-- No name is taken for another. -/
structure Hygienic (c : Catalog) (m : Module) (p : Program) (fs : Functions) : Prop where
  reads : ∀ {k st discard q ident x s t}, m.Lowers c fs k st discard (.name q ident) (.var x) s t →
    m.Stands c p k st ident x
  writes : ∀ {k st y q ident e s t}, m.Runs c fs k st y s t →
    y.assignment? = some (.name q ident, e) → ∃ x, Lower.Lands ⟨c, fs, st.scope c⟩ e x s t ∧
    m.Stands c p k st ident x
  /-- Outside of all definitions the first value of a name may need no code. -/
  first : ∀ {k q q' ident e s t}, m.Spans c k (.assign q (.name q' ident) e) s t →
    m.Runs c fs k (.assign q (.name q' ident) e) (.assign q (.name q' ident) e) s t ∨
      (∃ ty init, Lower.declare ident ty init s = .ok () t) ∧
      m.Stands c p k (.assign q (.name q' ident) e) ident ident

/-- An assignment to a name ends where the name is found, with the qualifier or without. -/
theorem Runs.lands {y : Stmt} {q : Pos} {e : Expr} {s t : Draft} (h : m.Runs c fs k st y s t)
    (ha : y.assignment? = some (.name q ident, e)) :
    ∃ x, Lower.Lands ⟨c, fs, st.scope c⟩ e x s t ∧ t.vars.contains x ∧
      (x = ident ∨ x = Names.qualify (st.scope c).qualifier ident) := by
  have hrun := h.runs
  rw [Lower.stmt, Lower.noted, (Stmt.assignment?_eq_some ha).1] at hrun
  obtain ⟨_, s₀, hn, hrun⟩ := Lower.bind_eq_ok.mp hrun
  have en := Lower.note_emits hn
  obtain ⟨o, u, ho, ⟨src, dst, ty, v, rfl, rfl, -, hd, hty, hem⟩ | ⟨ty, rfl, hd⟩⟩ :=
    Lower.assignName_steps hrun
  · have ev : Emits u v [] := by
      obtain rfl | ⟨-, hd⟩ := hd
      · exact .refl u
      · exact Lower.declare_emits hd
    have em := Lower.emit_emits hem
    exact ⟨_, .value en ho (ev.skip em), em.moves.contains hty.contains, Variables.resolve_cases ..⟩
  · exact ⟨ident, .type en ho hd, (Lower.declare_learns hd).2.contains, .inl rfl⟩

theorem Runs.value {y : Stmt} {q : Pos} {e : Expr} {s t : Draft} (h : m.Runs c fs k st y s t)
    (ha : y.assignment? = some (.name q ident, e)) :
    ∃ o s₀ u, m.Lowers c fs k st false e o s₀ u := by
  have hholds : st.Holds e := by
    apply h.stands.holds
    rw [(Stmt.assignment?_eq_some ha).2]
    exact List.mem_append_right _ (List.mem_singleton_self e)
  have hlowers {o : Operand} {s₀ u : Draft} (hn : Emits s s₀ [])
      (he : Lower.expr ⟨c, fs, st.scope c⟩ e s₀ = .ok o u)
        (hu : Moves u t) : ∃ o s₀ u, m.Lowers c fs k st false e o s₀ u := by
    obtain ⟨s₁, hn', ho⟩ := Lower.expr_eq_ok he
    exact ⟨o, s₁, u, hholds, h.during.narrow (hn.moves.trans (Lower.note_emits hn').moves) hu, ho⟩
  obtain ⟨x, hl, -⟩ := h.lands ha
  cases hl with
  | value hn he hc => exact hlowers hn he hc.moves
  | type hn he hd => exact hlowers hn he (Lower.declare_emits hd).moves

namespace Layout

variable (L : Layout c m p fs d)
include L

theorem stands_own (hm : m.IsProper c) (hk : m.body[k]? = some st) (hid : ident ∈ st.identifiers)
    (hx : (d m.body.length).vars.contains ident) : m.Stands c p k st ident ident := by
  have hplain := (hm.identifiers st (List.mem_of_getElem? hk) ident hid).1
  have hparam {st' : Stmt} : ident ∉ st'.paramVars c := by
    intro h
    obtain ⟨name, -, h⟩ := mem_paramVars h
    exact hplain.ne_qualify _ _ h
  refine ⟨L.known_iff.mp hx, ?_, fun _ h => absurd h hparam, fun _ _ => hplain.not_generated⟩
  obtain hi | ⟨st', -, h⟩ | ⟨st', -, h⟩ := L.variable_cases hx
  · exact .own hi
  · exact absurd h hparam
  · exact absurd h hplain.not_generated

theorem stands_param (hm : m.IsProper c) (hk : m.body[k]? = some st) (hid : ident ∈ st.identifiers)
    (hx : (d m.body.length).vars.contains (Names.qualify (st.scope c).qualifier ident)) :
    m.Stands c p k st ident (Names.qualify (st.scope c).qualifier ident) := by
  have hst := List.mem_of_getElem? hk
  have hgenerated (st' : Stmt) (hst' : st' ∈ m.body) :
    ¬ Names.Generated (Names.temporaries ++ Names.constants)
      (st'.scope c).qualifier (Names.qualify (st.scope c).qualifier ident) :=
    (hm.identifiers st hst ident hid).not_generated Names.plain_kinds
      (hm.sharp st hst ident hid st' hst')
  refine ⟨L.known_iff.mp hx, ?_, fun hj h => (L.param_of_qualify hm hk hj hid h).1.symm, hgenerated⟩
  obtain hi | ⟨st', hst', h⟩ | ⟨st', hst', h⟩ := L.variable_cases hx
  · exact absurd rfl ((hi.isPlain hm).ne_qualify _ _)
  · obtain ⟨j, hj⟩ := List.mem_iff_getElem?.mp hst'
    obtain ⟨rfl, hparam⟩ := L.param_of_qualify hm hk hj hid h
    cases hk.symm.trans hj
    exact .param hparam
  · exact absurd h (hgenerated st' hst')

theorem stands (hm : m.IsProper c) (hk : m.body[k]? = some st) (hid : ident ∈ st.identifiers)
    (hx : (d m.body.length).vars.contains x)
    (h : x = ident ∨ x = Names.qualify (st.scope c).qualifier ident) :
    m.Stands c p k st ident x := by
  obtain rfl | rfl := h
  · exact L.stands_own hm hk hid hx
  · exact L.stands_param hm hk hid hx

theorem hygienic (hm : m.IsProper c) : m.Hygienic c p fs where
  reads {k st discard q ident x s t} h := by
    obtain ⟨_, _, ⟨hk, -⟩, -⟩ := h.during
    have hrun := h.runs
    rw [Lower.lowerExpr] at hrun
    obtain ⟨rfl, ⟨_, ho, rfl, hx⟩ | ⟨ho, -⟩⟩ := Lower.nameOperand_eq_ok hrun
    · cases ho
      exact L.stands hm hk (h.stands.names List.mem_cons_self)
        ((L.moves_during h.during).2.contains hx)
        (Variables.resolve_cases ..)
    · cases ho
  writes {k st y q ident e s t} h ha := by
    obtain ⟨_, _, ⟨hk, -⟩, -⟩ := h.during
    obtain ⟨x, hl, hx, hname⟩ := h.lands ha
    exact ⟨x, hl, L.stands hm hk (h.stands.identifiers (Stmt.mem_identifiers_of_assignment ha))
      ((L.moves_during h.during).2.contains hx) hname⟩
  first {k q q' ident e s t} h := by
    obtain ⟨hk, rfl, rfl⟩ := L.spans_iff.mp h
    have hlt := (List.getElem?_eq_some_iff.mp hk).1
    have htop := topLevel_of_lowered (L.lowered k hlt.le) (L.lowered (k + 1) hlt) hk
    rw [Lower.topLevel] at htop
    obtain ⟨b, s₁, hi, htop⟩ := Lower.bind_eq_ok.mp htop
    obtain ⟨rfl, rfl⟩ | ⟨rfl, ty, init, hd⟩ := Lower.dataInit_eq_ok hi
    · exact .inl ⟨.refl, L.during hk .refl .refl, htop⟩
    · obtain ⟨-, rfl⟩ := Lower.pure_eq_ok.mp htop
      refine .inr
        ⟨⟨ty, init, hd⟩, L.stands_own hm hk (List.mem_append_left _ List.mem_cons_self) ?_⟩
      exact (L.moves hlt le_rfl).contains (Lower.declare_learns hd).2.contains

theorem runs_of_part {q : Pos} {name : String} {params : List Param} {returns : Option String}
    {body : List Stmt} {y : Stmt} (hk : m.body[k]? = some (.define q name params returns body))
    (hy : y ∈ body) :
    ∃ s t, m.Runs c fs k (.define q name params returns body) y s t := by
  have hlt := (List.getElem?_eq_some_iff.mp hk).1
  have hbody {s t : Draft} (hs : Moves (d k) s)
      (hb : Lower.block ⟨c, fs, Stmt.scope c (.define q name params returns body)⟩ body s =
        .ok () t)
      (ht : Moves t (d (k + 1))) :
      ∃ s t, m.Runs c fs k (.define q name params returns body) y s t := by
    obtain ⟨s', t', hs', hrun, ht'⟩ := Lower.stmt_of_block hb hy
    exact ⟨s', t', .single hy, L.during hk (hs.trans hs') (ht'.trans ht), hrun⟩
  have h := topLevel_of_lowered (L.lowered k hlt.le) (L.lowered (k + 1) hlt) hk
  rw [Lower.topLevel] at h
  split at h
  case isTrue he =>
    have hscope : Stmt.scope c (.define q name params returns body) = .event name := by
      rw [Stmt.scope, Stmt.function?, if_pos he]
    simp only [Lower.event, Lower.bind_eq_ok] at h
    obtain ⟨_, u₁, h₁, _, u₂, h₂, _, s₁, h₃, _, s₂, hb, h₄⟩ := h
    have e₃ := (Lower.emit_emits h₁).trans ((Lower.emit_emits h₂).trans (Lower.emit_emits h₃))
    exact hbody e₃.moves (hscope ▸ hb) (Lower.emit_emits h₄).moves
  case isFalse he =>
    obtain ⟨f, hf⟩ := Lower.function?_of_ok he h
    have hmem := L.mem_functions hk (hf q)
    obtain ⟨l, u₁, u₂, s₁, s₂, hl, hb, hp, hy, hr⟩ :=
      Lower.function_eq_ok (hf q) (L.distinct.find? hmem) h
    have q₂ := (Lower.namedLabel_quiet hl).trans (Lower.bindLabel_quiet hb)
    refine hbody (q₂.emits.moves.trans (Lower.emit_emits hp).moves) ?_ (Lower.emit_emits hr).moves
    rw [Stmt.scope, hf q]
    exact hy

end Layout

/-- In a script with proper identifiers each name that is read or assigned stands for the parameter
of its own definition that has it, or for the variable that was introduced by it. -/
theorem compile_hygienic (hc : m.compile c = .ok p) (hm : m.IsProper c) :
    ∃ fs F, m.lowered c m.body.length = some (fs, F) ∧ m.Hygienic c p fs := by
  obtain ⟨fs, d, L⟩ := layout_of_compile hc
  exact ⟨fs, d m.body.length, L.lowered _ le_rfl, L.hygienic hm⟩

def shadowed : Module :=
  ⟨[Build.assign (.name .unknown "n") (.int .unknown 1),
    Build.define "f" [("n", "SystemInt32"), ("_m", "SystemInt32")] (some "SystemInt32")
      [Build.assign (.name .unknown "n") (.name .unknown "_m"),
        Build.ret (some (.name .unknown "n"))],
    Build.define "_start" [] none
      [Build.assign (.name .unknown "_m")
        (Build.call (.name .unknown "f") [.name .unknown "n", .name .unknown "n"]),
        Build.assign (.name .unknown "n") (.name .unknown "_m")]]⟩

theorem shadowed_hygienic : ∃ p fs F, shadowed.compile scalars = .ok p ∧ shadowed.IsProper scalars ∧
    p.vars.map DataVar.name =
    ["ret_addr", "f__SystemInt32_SystemInt32__n", "f__SystemInt32_SystemInt32___m", "n",
      "_start__1_const_ret_addr", "_start__2_ret_value", "_m"] ∧
    shadowed.lowered scalars 3 = some (fs, F) ∧ shadowed.Hygienic scalars p fs := by
  have hok : (shadowed.compile scalars).toOption.map (fun p => p.vars.map DataVar.name) =
      some ["ret_addr", "f__SystemInt32_SystemInt32__n", "f__SystemInt32_SystemInt32___m", "n",
        "_start__1_const_ret_addr", "_start__2_ret_value", "_m"] := by
    decide +kernel
  have hm : shadowed.IsProper scalars := by decide +kernel
  cases hc : shadowed.compile scalars with
  | error e => rw [hc] at hok; cases hok
  | ok p =>
      rw [hc] at hok
      obtain ⟨fs, F, hF, hygienic⟩ := compile_hygienic hc hm
      exact ⟨p, fs, F, rfl, hm, Option.some.inj hok, hF, hygienic⟩

def isOrdinary (m : Module) : Bool := m.body.all fun st => st.writtenNames.all Names.isOrdinary

/-- The constant of one event and the parameter of a function, both read in another event. -/
def captured : Module :=
  ⟨[Build.define "f" [("n", "SystemInt32")] none [.pass .unknown],
    Build.define "_start_" [] none [Build.assign (.name .unknown "x") (.int .unknown 1)],
    Build.define "_start" [] none
      [Build.assign (.name .unknown "y") (.name .unknown "_0_const"),
        Build.assign (.name .unknown "z") (.name .unknown "f__SystemInt32__n")]]⟩

/-- Without a condition on the identifiers names are taken for others. -/
theorem captured_not_hygienic : captured.isOrdinary ∧ ∃ p fs F, captured.compile scalars = .ok p ∧
    p.code.filterMap Instr.operand? =
    ["f__SystemInt32__n", "ret_addr", "ret_addr", "ret_addr", "_start___0_const", "x",
      "ret_addr", "_start___0_const", "y", "f__SystemInt32__n", "z"] ∧
    captured.lowered scalars 3 = some (fs, F) ∧ ¬ captured.Hygienic scalars p fs := by
  have hok : (captured.compile scalars).toOption.map
      (fun p => (p.vars.map DataVar.name, p.code.filterMap Instr.operand?)) =
        some (["ret_addr", "f__SystemInt32__n", "_start___0_const", "x", "y", "z"],
          ["f__SystemInt32__n", "ret_addr", "ret_addr", "ret_addr", "_start___0_const",
            "x", "ret_addr", "_start___0_const", "y", "f__SystemInt32__n", "z"]) := by
    decide +kernel
  refine ⟨by decide +kernel, ?_⟩
  cases hc : captured.compile scalars with
  | error e => rw [hc] at hok; cases hok
  | ok p =>
      rw [hc] at hok
      obtain ⟨hvars, hcode⟩ := Prod.mk.inj (Option.some.inj hok)
      obtain ⟨fs, d, L⟩ := layout_of_compile hc
      refine ⟨p, fs, d 3, rfl, hcode, L.lowered 3 le_rfl, fun H => ?_⟩
      have hk : captured.body[2]? = some (Build.define "_start" [] none
          [Build.assign (.name .unknown "y") (.name .unknown "_0_const"),
            Build.assign (.name .unknown "z") (.name .unknown "f__SystemInt32__n")]) := rfl
      obtain ⟨s, t, hrun⟩ := L.runs_of_part hk List.mem_cons_self
      obtain ⟨o, s₀, u, hread⟩ := hrun.value rfl
      have hname := hread.runs
      rw [Lower.lowerExpr] at hname
      obtain ⟨-, ⟨x, rfl, -⟩ | ⟨-, htype⟩⟩ := Lower.nameOperand_eq_ok hname
      · -- the script has no variable of this name, and the event has no parameter
        have hstands := H.reads hread
        cases hstands.means with
        | param h => cases h
        | own =>
            have hknown := hstands.known
            rw [hvars] at hknown
            exact absurd hknown (by decide)
      · have hno : scalars.isType "_0_const" = false := by decide
        rw [hno] at htype
        cases htype

end Module
end StackScript
