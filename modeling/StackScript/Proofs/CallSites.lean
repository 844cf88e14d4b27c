import StackScript.Proofs.ClosedProgram
import StackScript.Proofs.Dispatch

namespace StackScript

open Draft Code

namespace Code

theorem split_unique {xs ys us vs : List Instr} {i j : Instr} (h : xs ++ i :: us = ys ++ j :: vs)
    (hi : 0 < i.width) (hj : 0 < j.width) (hs : size xs = size ys) : xs = ys ∧ i = j ∧ us = vs := by
  have hend {as zs ws : List Instr} {k l : Instr} (hk : 0 < k.width) (he : k :: zs = as ++ l :: ws)
      (hz : size as = 0) : as = [] := by
    cases as with
    | nil => rfl
    | cons a as =>
        cases he
        rw [size_cons] at hz
        omega
  obtain ⟨as, rfl, he⟩ | ⟨as, rfl, he⟩ := List.append_eq_append_iff.mp h
  · rw [size_append] at hs
    obtain rfl := hend hi he (by omega)
    cases he
    exact ⟨(List.append_nil xs).symm, rfl, rfl⟩
  · rw [size_append] at hs
    obtain rfl := hend hj he (by omega)
    cases he
    exact ⟨List.append_nil ys, rfl, rfl⟩

end Code

theorem Stmt.env_scope (c : Catalog) (st : Stmt) :
    (st.scope c).env = ((st.function? c).map Function.params).getD [] := by
  cases st with
  | define q name params returns body =>
      rw [scope]
      cases function? c (.define q name params returns body) <;> rfl
  | _ => rfl

/-- What becomes of the result of a call: there may be none, it may be dropped, or it gets
a variable. -/
inductive Block.Outcome.Takes (ret : Ty) : Bool → Block.Outcome → Operand → Prop
  | none {discard} (hv : ret.isVoid) : Takes ret discard .none .nothing
  | drop (hv : ret.isVoid = false) : Takes ret true .discard .nothing
  | into {y} (hv : ret.isVoid = false) : Takes ret false (.into y) (.var y)

namespace Module

variable {c : Catalog} {m : Module} {p : Program} {fs : Functions} {d : Nat → Draft}

/-- What is known of the calls of a module. Each is a block of code on its own, with the address
behind its jump in a constant of its own. -/
structure CallSites (c : Catalog) (m : Module) (p : Program) (fs : Functions) (F : Draft) :
    Prop where
  lowers : ∀ {k st discard q q' name es o s t},
    m.Lowers c fs k st discard (.call q (.name q' name) es) o s t → name ≠ "instantiate" →
    c.isType name = false → ∃ g x args entry r u v, g.name = name ∧
    Lower.lowerValues ⟨c, fs, st.scope c⟩ es s = .ok args u ∧
      m.Calls c fs k st g x args entry r u v ∧ r.Takes g.ret discard o
  /-- A call for its effects is one whose result is dropped. -/
  effects : ∀ {k st q q' q'' name es s t},
    m.Runs c fs k st (.eval q (.call q' (.name q'' name) es)) s t → ∃ s₀ o, Emits s s₀ [] ∧
    m.Lowers c fs k st true (.call q' (.name q'' name) es) o s₀ t
  jumps : ∀ {front rest l g}, F.code = front ++ .jump (.label l) :: rest → F.callee fs l = some g →
    ∃ k st, m.CallsBefore c fs k st g (size (front ++ [.jump (.label l)]))
  block : ∀ {k st g x args entry r u v env}, m.Calls c fs k st g x args entry r u v →
    env = ((st.function? c).map Function.params).getD [] →
    ∃ j st' a region w, st'.function? c = some g ∧ m.Occupies c p j st' a region ∧
      Code.At p.code u.emitter.pc ((Names.returnAddress :: env ++ x :: args).map .push ++
        .jump (.addr a) :: (r.taken ++ env.reverse.flatMap (fun y => [.push y, .copy]) ++
          [.push Names.returnAddress, .copy])) ∧
      v.emitter.pc = u.emitter.pc +
        size ((Names.returnAddress :: env ++ x :: args).map .push ++ [.jump (.addr a)]) ∧
      p.vars.find? (·.name = x) = some w ∧ c.machineType? "SystemUInt32" = some w.machineType ∧
      w.init = .addr v.emitter.pc
  distinct : ∀ {k st g x args entry r u v k' st' g' x' args' entry' r' u' v'},
    m.Calls c fs k st g x args entry r u v → m.Calls c fs k' st' g' x' args' entry' r' u' v' →
    (x = x' ↔ u.emitter.pc = u'.emitter.pc) ∧
    (v.emitter.pc = v'.emitter.pc ↔ u.emitter.pc = u'.emitter.pc)
  /-- A call whose code comes later is another one. -/
  later : ∀ {k st g x args entry r u v k' st' g' x' args' entry' r' u' v'},
    m.Calls c fs k st g x args entry r u v → m.Calls c fs k' st' g' x' args' entry' r' u' v' →
    Moves v u' → x ≠ x' ∧ v.emitter.pc ≠ v'.emitter.pc

theorem Lowers.takes {k : Nat} {st : Stmt} {discard : Bool} {q q' : Pos} {name : String}
    {es : List Expr} {o : Operand} {s t : Draft}
    (h : m.Lowers c fs k st discard (.call q (.name q' name) es) o s t) (hn : name ≠ "instantiate")
    (ht : c.isType name = false) :
    ∃ g x args entry r u v, g.name = name ∧
    Lower.lowerValues ⟨c, fs, st.scope c⟩ es s = .ok args u ∧
      m.Calls c fs k st g x args entry r u v ∧ r.Takes g.ret discard o := by
  have hrun := h.runs
  rw [Lower.lowerExpr_call hn ht] at hrun
  obtain ⟨args, u, hargs, hcall⟩ := Lower.bind_eq_ok.mp hrun
  obtain ⟨g, x, entry, back, r, _, w, _, v, _, S, rfl, rfl, _, _, _, _, hr, _⟩ :=
    Lower.userCall_steps hcall
  refine ⟨g, x, args, entry, r, u, v, rfl, hargs,
    ⟨discard, q, q', es, _, s, t, back, w, h, hargs, S⟩, ?_⟩
  obtain ⟨hv, rfl, _⟩ | ⟨hv, rfl, rfl, _⟩ | ⟨hv, rfl, y, rfl, _⟩ := Lower.outcome_cases hr
  · exact .none hv
  · exact .drop hv
  · exact .into hv

theorem Runs.effects {k : Nat} {st : Stmt} {q q' q'' : Pos} {name : String} {es : List Expr}
    {s t : Draft} (h : m.Runs c fs k st (.eval q (.call q' (.name q'' name) es)) s t) :
    ∃ s₀ o, Emits s s₀ [] ∧ m.Lowers c fs k st true (.call q' (.name q'' name) es) o s₀ t := by
  have hrun := h.runs
  simp only [Lower.stmt, Lower.noted, Lower.lowerStmt, Lower.effects, Lower.bind_eq_ok,
    Lower.located_eq_ok, Lower.pure_eq_ok] at hrun
  obtain ⟨_, s₀, hn, o, _, hv, _, rfl⟩ := hrun
  have e := Lower.note_emits hn
  exact ⟨s₀, o, e, h.stands.holds (List.mem_singleton_self _), h.during.narrow e.moves .refl, hv⟩

namespace Layout

variable (L : Layout c m p fs d) {k k' : Nat} {st st' : Stmt} {g g' : Function} {x x' : String}
  {args args' : List String} {entry entry' : Nat} {r r' : Block.Outcome} {u v u' v' : Draft}
include L

theorem call_inside (h : m.Calls c fs k st g x args entry r u v) :
    m.body[k]? = some st ∧ (d k).emitter.pc ≤ u.emitter.pc ∧ v.emitter.pc ≤ (d (k + 1)).emitter.pc ∧
      size u.code = u.emitter.pc ∧ Moves v (d m.body.length) := by
  obtain ⟨_, _, _, es, _, s, t, _, w, hlow, hargs, S⟩ := h
  obtain ⟨before, after, hsp, hb, ha⟩ := hlow.during
  obtain ⟨hk, rfl, rfl⟩ := L.spans_iff.mp hsp
  have hlt := (List.getElem?_eq_some_iff.mp hk).1
  have hu : Moves (d k) u := hb.trans ((Lower.Along.lowerValues es).of_ok hargs)
  have hv : Moves v (d (k + 1)) := S.leave.moves.trans ha
  have hsized {s : Draft} (hs : Moves (d k) s) : size s.code = s.emitter.pc :=
    Moves.sized ((L.moves_empty hlt.le).trans hs) rfl
  have hle {s t : Draft} (hs : Moves (d k) s) (hst : Moves s t) : s.emitter.pc ≤ t.emitter.pc := by
    obtain ⟨rest, hr⟩ := (Moves.grows hst).code
    rw [← hsized hs, ← hsized (hs.trans hst), ← hr, size_append]
    omega
  exact ⟨hk, hle .refl hu, hle (hu.trans (S.begins.skip S.enter).moves) hv, hsized hu,
    hv.trans (L.moves hlt le_rfl)⟩

theorem call_constant (h : m.Calls c fs k st g x args entry r u v) :
    ∃ back, (⟨x, .uint32, .label back⟩ : Variable) ∈ (d m.body.length).vars.declared ∧
      (d m.body.length).Bound back v.emitter.pc := by
  obtain ⟨-, -, -, -, hF⟩ := L.call_inside h
  obtain ⟨_, _, _, es, _, s, t, back, w, hlow, hargs, S⟩ := h
  refine ⟨back, (Moves.grows hF).declared.subset ?_, (Moves.grows hF).bound S.bound⟩
  rw [S.vars, S.const]
  exact List.mem_append_right _ (List.mem_singleton.mpr rfl)

theorem statement_of_call (h : m.Calls c fs k st g x args entry r u v) {a : Nat}
    (ha : u.emitter.pc ≤ a) (hv : a < v.emitter.pc) : statementAt m d a = k := by
  obtain ⟨hk, hu, hle, -⟩ := L.call_inside h
  exact L.statementAt_eq (List.getElem?_eq_some_iff.mp hk).1 (hu.trans ha) (hv.trans_le hle)

theorem call_split (h : m.Calls c fs k st g x args entry r u v) :
    ∃ rest, (d m.body.length).code = u.code ++
    (Block.pushAll (Names.returnAddress :: (st.scope c).env ++ x :: args) ++
        .jump (.label entry) :: rest) ∧
      v.emitter.pc = u.emitter.pc + 5 *
      (Names.returnAddress :: (st.scope c).env ++ x :: args).length + 5 := by
  obtain ⟨-, -, -, hu, hF⟩ := L.call_inside h
  obtain ⟨-, -, hv, hpc⟩ := L.of_calls h
  obtain ⟨rest, hrest⟩ := (Moves.grows hF).code
  refine ⟨rest, ?_, ?_⟩
  · rw [← hrest, hv]
    simp only [List.append_assoc, List.cons_append, List.nil_append]
  · rw [← hpc, hv, ← hu]
    simp only [size_append, Machine.size_pushAll, size_cons, size_nil, Instr.width]
    omega

theorem same_statement (h : m.Calls c fs k st g x args entry r u v)
    (h' : m.Calls c fs k' st' g' x' args' entry' r' u' v') {a : Nat} (hu : u.emitter.pc ≤ a)
    (hv : a < v.emitter.pc) (hu' : u'.emitter.pc ≤ a) (hv' : a < v'.emitter.pc) :
    st = st' := by
  have hk := (L.statement_of_call h hu hv).symm.trans (L.statement_of_call h' hu' hv')
  obtain ⟨hst, -⟩ := L.call_inside h
  obtain ⟨hst', -⟩ := L.call_inside h'
  rw [hk, hst'] at hst
  exact (Option.some.inj hst).symm

theorem same_return (h : m.Calls c fs k st g x args entry r u v)
    (h' : m.Calls c fs k' st' g' x args' entry' r' u' v') :
    v.emitter.pc = v'.emitter.pc := by
  obtain ⟨back, hx, hb⟩ := L.call_constant h
  obtain ⟨back', hx', hb'⟩ := L.call_constant h'
  have hfound := (L.moves_empty le_rfl).find?_of_mem hx
  have hfound' := (L.moves_empty le_rfl).find?_of_mem hx'
  cases hfound.symm.trans hfound'
  exact hb.unique hb'

theorem same_constant (h : m.Calls c fs k st g x args entry r u v)
    (h' : m.Calls c fs k' st' g' x' args' entry' r' u' v') (hu : u.emitter.pc = u'.emitter.pc) :
    x = x' := by
  obtain ⟨rest, hcode, hv⟩ := L.call_split h
  obtain ⟨rest', hcode', hv'⟩ := L.call_split h'
  obtain rfl := L.same_statement h h' (a := u.emitter.pc) le_rfl (by omega) (by omega) (by omega)
  obtain ⟨-, -, -, hs, -⟩ := L.call_inside h
  obtain ⟨-, -, -, hs', -⟩ := L.call_inside h'
  have hpush (y : String) (ys : List String) :
      Block.pushAll (Names.returnAddress :: (st.scope c).env ++ y :: ys) =
        .push Names.returnAddress ::
        (Block.pushAll (st.scope c).env ++ .push y :: Block.pushAll ys) := by
    simp [Block.pushAll]
  rw [hpush, List.cons_append, List.append_assoc] at hcode hcode'
  obtain ⟨-, -, htail⟩ :=
    split_unique (hcode.symm.trans hcode') (by simp [Instr.width]) (by simp [Instr.width])
    (by rw [hs, hs', hu])
  obtain ⟨hx, -⟩ := List.cons.inj (List.append_cancel_left htail)
  exact Instr.push.inj hx

/-- Calls that come back to the same place are one: the jump tells the callee, and so how much
is pushed. -/
theorem same_begin (h : m.Calls c fs k st g x args entry r u v)
    (h' : m.Calls c fs k' st' g' x' args' entry' r' u' v') (hv : v.emitter.pc = v'.emitter.pc) :
    u.emitter.pc = u'.emitter.pc := by
  obtain ⟨rest, hcode, hpc⟩ := L.call_split h
  obtain ⟨rest', hcode', hpc'⟩ := L.call_split h'
  obtain rfl :=
    L.same_statement h h' (a := v.emitter.pc - 5) (by omega) (by omega) (by omega) (by omega)
  obtain ⟨-, -, -, hs, -⟩ := L.call_inside h
  obtain ⟨-, -, -, hs', -⟩ := L.call_inside h'
  have hsame := hcode.symm.trans hcode'
  rw [← List.append_assoc, ← List.append_assoc] at hsame
  obtain ⟨-, hjump, -⟩ := split_unique hsame (by simp [Instr.width]) (by simp [Instr.width])
    (by simp only [size_append, Machine.size_pushAll]; omega)
  cases hjump
  obtain ⟨hg, hentry, -⟩ := L.of_calls h
  obtain ⟨hg', hentry', -⟩ := L.of_calls h'
  obtain rfl :=
    Option.some.inj ((L.entered g hg entry hentry).symm.trans (L.entered g' hg' entry hentry'))
  obtain ⟨_, _, _, _, _, _, _, _, _, -, -, S⟩ := h
  obtain ⟨_, _, _, _, _, _, _, _, _, -, -, S'⟩ := h'
  have hlen := S.arity.trans S'.arity.symm
  simp only [List.length_append, List.length_cons, hlen] at hpc hpc'
  omega

theorem call_block (h : m.Calls c fs k st g x args entry r u v) :
    ∃ j st' a region w, st'.function? c = some g ∧ m.Occupies c p j st' a region ∧
      Code.At p.code u.emitter.pc
      (Block.pushAll (Names.returnAddress :: (st.scope c).env ++ x :: args) ++
        .jump (.addr a) :: Block.leave r (st.scope c).env Names.returnAddress) ∧
      v.emitter.pc = u.emitter.pc +
        size (Block.pushAll (Names.returnAddress :: (st.scope c).env ++ x :: args) ++
          [.jump (.addr a)]) ∧
      p.vars.find? (·.name = x) = some w ∧ c.machineType? "SystemUInt32" = some w.machineType ∧
      w.init = .addr v.emitter.pc := by
  obtain ⟨-, -, -, hu, -⟩ := L.call_inside h
  obtain ⟨back, hx, hback⟩ := L.call_constant h
  obtain ⟨-, -, hpc⟩ := L.call_split h
  obtain ⟨hg, hentry, -⟩ := L.of_calls h
  obtain ⟨j, st', a, region, hf, hregion, ha⟩ := L.occupies_callee hg hentry
  obtain ⟨w, hw, hbecomes⟩ :=
    Variable.find?_of_becomes L.vars ((L.moves_empty le_rfl).find?_of_mem hx)
  refine ⟨j, st', a, region, w, hf, hregion, ?_, ?_, hw, hbecomes.machine, ?_⟩
  · obtain ⟨_, _, _, _, _, s, t, _, _, hlow, hargs, S⟩ := h
    have e := S.emits
    rw [Block.enter_eq_single, List.append_assoc] at e
    refine Program.Has.jump (e.has hu (L.moves_during hlow.during).2 L.linked) Block.target_pushAll
      Block.target_leave ?_
    rw [L.labels]
    exact ha
  · rw [hpc]
    simp only [size_append, Machine.size_pushAll, size_cons, size_nil, Instr.width]
    omega
  · obtain ⟨hl, -⟩ | ⟨l, b, hl, hb, hi⟩ := hbecomes.init
    · exact absurd rfl (hl back)
    · cases hl
      rw [L.labels] at hb
      rw [hi, Bound.unique hback hb]

theorem callSites : CallSites c m p fs (d m.body.length) where
  lowers h hn ht := h.takes hn ht
  effects h := h.effects
  jumps := L.dispatches.sites
  block h henv := by
    rw [← Stmt.env_scope] at henv
    subst henv
    rw [← Block.collect_eq]
    exact L.call_block h
  distinct h h' := by
    refine ⟨⟨?_, L.same_constant h h'⟩, L.same_begin h h', fun hu => ?_⟩
    · rintro rfl
      exact L.same_begin h h' (L.same_return h h')
    · obtain rfl := L.same_constant h h' hu
      exact L.same_return h h'
  later {k st g x args entry r u v k' st' g' x' args' entry' r' u' v'} h h' hm := by
    obtain ⟨-, -, hpc⟩ := L.call_split h
    obtain ⟨-, -, -, hs', -⟩ := L.call_inside h'
    have hle : v.emitter.pc ≤ u'.emitter.pc := by
      obtain ⟨rest, hr⟩ := (Moves.grows hm).code
      rw [← (L.of_calls h).2.2.2, ← hs', ← hr, size_append]
      omega
    constructor
    · rintro rfl
      have hu := L.same_begin h h' (L.same_return h h')
      omega
    · intro hv
      have hu := L.same_begin h h' hv
      omega

end Layout

/-- In a compiled module each call of a function is a block of code of this form, and the address
behind its jump is in a constant of its own. -/
theorem compile_callSites (hc : m.compile c = .ok p) :
    ∃ fs F, m.lowered c m.body.length = some (fs, F) ∧ m.CallSites c p fs F := by
  obtain ⟨fs, d, L⟩ := layout_of_compile hc
  exact ⟨fs, d m.body.length, L.lowered _ le_rfl, L.callSites⟩

def nested : Module :=
  ⟨[Build.define "f" [("a", "SystemInt32"), ("b", "SystemBoolean")] (some "SystemInt32")
      [Build.ret (some (Build.call (.name .unknown "f")
        [Build.call (.name .unknown "f") [.name .unknown "a", .name .unknown "b"],
          .name .unknown "b"]))],
    Build.define "g" [("b", "SystemBoolean")] none
      [Build.eval (Build.call (.name .unknown "f") [.int .unknown 1, .name .unknown "b"]),
        Build.eval (Build.call (.name .unknown "g") [.name .unknown "b"])]]⟩

theorem nested_callSites : ∃ p fs F, nested.compile scalars = .ok p ∧
    (p.vars.filter (·.machineType = "SystemUInt32")).map (fun v => (v.name, v.init)) =
      [("ret_addr", .addr haltAddress),
        ("f__SystemInt32_SystemBoolean__1_const_ret_addr", .addr 53),
        ("f__SystemInt32_SystemBoolean__4_const_ret_addr", .addr 112),
        ("g__SystemBoolean__8_const_ret_addr", .addr 193),
        ("g__SystemBoolean__10_const_ret_addr", .addr 231)] ∧
    nested.lowered scalars 2 = some (fs, F) ∧ nested.CallSites scalars p fs F := by
  have hok : (nested.compile scalars).toOption.map (fun p =>
      (p.vars.filter (·.machineType = "SystemUInt32")).map fun v => (v.name, v.init)) =
      some [("ret_addr", .addr haltAddress),
        ("f__SystemInt32_SystemBoolean__1_const_ret_addr", .addr 53),
        ("f__SystemInt32_SystemBoolean__4_const_ret_addr", .addr 112),
        ("g__SystemBoolean__8_const_ret_addr", .addr 193),
        ("g__SystemBoolean__10_const_ret_addr", .addr 231)] := by
    decide +kernel
  cases hc : nested.compile scalars with
  | error e => rw [hc] at hok; cases hok
  | ok p =>
      rw [hc] at hok
      obtain ⟨fs, F, hF, hsites⟩ := compile_callSites hc
      exact ⟨p, fs, F, rfl, Option.some.inj hok, hF, hsites⟩

end Module
end StackScript
