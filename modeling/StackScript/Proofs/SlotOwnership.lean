import StackScript.Proofs.Identifiers
import StackScript.Proofs.Meaning.Event

namespace StackScript

open Draft

namespace Code

/-- Code with the variables that it writes, in the order of the writes. A copy writes the variable
that is pushed last, and so does a host operation that is called with a variable for its result. -/
inductive Writes (c : Catalog) : List Instr → List String → Prop
  | nil : Writes c [] []
  | append {xs ys us vs} (hx : Writes c xs us) (hy : Writes c ys vs) :
      Writes c (xs ++ ys) (us ++ vs)
  | copy (zs x) : Writes c (Block.pushAll (zs ++ [x]) ++ [.copy]) [x]
  | result {symbol} (hs : c.Answers symbol) (zs x) : Writes c (Block.invoke symbol (zs ++ [x])) [x]
  | run {symbol} (hs : c.Silent symbol) (zs) : Writes c (Block.invoke symbol zs) []
  | other (zs) {i} (hp : ∀ x, i ≠ .push x) (hc : i ≠ .copy)
      (hi : ∀ symbol n, i ≠ .invoke symbol n) :
      Writes c (Block.pushAll zs ++ [i]) []

def written (answers : String → Bool) : List Instr → List String
  | .push x :: .copy :: rest => x :: written answers rest
  | .push x :: .invoke symbol n :: rest =>
    if answers symbol then x :: written answers rest else written answers (.invoke symbol n :: rest)
  | _ :: rest => written answers rest
  | [] => []

variable {c : Catalog} {answers : String → Bool} {code : List Instr} {ws : List String}

theorem written_pushAll (zs : List String) (x : String) (rest : List Instr) :
    written answers (Block.pushAll zs ++ .push x :: rest) = written answers (.push x :: rest) := by
  induction zs with
  | nil => rfl
  | cons z zs ih =>
      cases zs with
      | nil => simp [Block.pushAll, written]
      | cons => simpa [Block.pushAll, written] using ih

theorem written_idle (zs : List String) {i : Instr} (hc : i ≠ .copy)
    (hi : ∀ symbol n, i = .invoke symbol n → answers symbol = false) (rest : List Instr) :
    written answers (Block.pushAll zs ++ i :: rest) = written answers (i :: rest) := by
  obtain rfl | ⟨ys, y, rfl⟩ := List.eq_nil_or_concat zs
  · rfl
  · have hpush : Block.pushAll (ys.concat y) = Block.pushAll ys ++ [.push y] := by
      simp [Block.pushAll]
    rw [hpush, List.append_assoc, List.singleton_append, written_pushAll]
    cases i with
    | copy => exact absurd rfl hc
    | invoke symbol n => simp [written, hi symbol n rfl]
    | _ => rfl

/-- The list of writes is what the code says, if the host answers as the catalog has it. -/
theorem Writes.written_append (h : Writes c code ws)
    (ha : ∀ symbol, c.Answers symbol → answers symbol)
    (hs : ∀ symbol, c.Silent symbol → answers symbol = false) (rest : List Instr) :
    written answers (code ++ rest) = ws ++ written answers rest := by
  induction h generalizing rest with
  | nil => rfl
  | append _ _ hx hy => rw [List.append_assoc, hx, hy, List.append_assoc]
  | copy zs x =>
      simp only [Block.pushAll, List.map_append, List.append_assoc]
      exact written_pushAll zs x _
  | result h zs x =>
      simp only [Block.invoke, Block.pushAll, List.map_append, List.append_assoc]
      refine (written_pushAll zs x _).trans ?_
      simp [written, ha _ h]
  | run h zs =>
      rw [Block.invoke, List.append_assoc]
      refine (written_idle zs (by simp) ?_ _).trans (by simp [written])
      rintro _ _ ⟨⟩
      exact hs _ h
  | @other zs i hp hc hi =>
      rw [List.append_assoc]
      refine (written_idle zs hc (fun _ _ h => absurd h (hi _ _)) _).trans ?_
      cases i with
      | push x => exact absurd rfl (hp x)
      | _ => simp [written]

theorem Writes.linked {labels : List Label} {code' : List Instr} (h : Writes c code ws)
    (hl : Linked labels code code') :
    Writes c code' ws := by
  induction h generalizing code' with
  | nil => cases hl; exact .nil
  | append _ _ hx hy =>
      obtain ⟨us, vs, rfl, hu, hv⟩ := hl.split
      exact .append (hx hu) (hy hv)
  | copy zs x =>
      rw [hl.eq_of_noTarget
        (List.forall_mem_append.mpr ⟨Block.target_pushAll, List.forall_mem_singleton.mpr rfl⟩)]
      exact .copy zs x
  | result h zs x =>
      rw [hl.eq_of_noTarget Block.target_invoke]
      exact .result h zs x
  | run h zs =>
      rw [hl.eq_of_noTarget Block.target_invoke]
      exact .run h zs
  | @other zs i hp hc hi =>
      obtain ⟨us, vs, rfl, hu, hv⟩ := hl.split
      obtain ⟨j, ws, hj, hw, rfl⟩ := List.forall₂_cons_left_iff.mp hv
      cases hw
      rw [hu.eq_of_noTarget Block.target_pushAll]
      obtain rfl | ⟨_, _, _, ⟨-, rfl⟩ | ⟨-, rfl⟩⟩ := Instr.resolve_cases hj
      · exact .other zs hp hc hi
      · exact .other zs (by simp) (by simp) (by simp)
      · exact .other zs (by simp) (by simp) (by simp)

end Code

namespace Variables

theorem contains_congr {vs ws : Variables} (h : ws.declared = vs.declared) (x : String) :
    ws.contains x = vs.contains x := by
  rw [contains, contains, find?, find?, h]

theorem contains_declared (vs : Variables) (v : Variable) (x : String) :
    contains { vs with declared := vs.declared ++ [v] } x =
    (vs.contains x || decide (v.name = x)) := by
  rw [contains, find?_declared, contains]
  by_cases hx : v.name = x
  · simp [hx]
  · simp [hx]

end Variables

namespace Module

variable {c : Catalog} {m : Module} {p : Program} {fs : Functions} {d : Nat → Draft} {F s t : Draft}
  {k : Nat} {st : Stmt} {x : String}

theorem sets_cases (hm : m.IsProper c) (hst : st ∈ m.body) (h : st.Sets c x) :
    Names.IsPlain x ∨ ∃ name ∈ st.identifiers, x = Names.qualify (st.scope c).qualifier name := by
  cases h with
  | back => exact .inl (by decide)
  | param h => exact .inr (mem_paramVars h)
  | @name y q name e _ hy ha hz =>
      have hname := hy.identifiers (Stmt.mem_identifiers_of_assignment ha)
      obtain rfl | rfl := hz
      · exact .inl (hm.identifiers st hst _ hname).1
      · exact .inr ⟨name, hname, rfl⟩

theorem not_generated_of_sets (hm : m.IsProper c) (hst : st ∈ m.body) (h : st.Sets c x)
    {kinds : List String} (hk : ∀ kind ∈ kinds, Names.IsPlain ("_" ++ kind)) {st' : Stmt}
    (hst' : st' ∈ m.body) :
    ¬ Names.Generated kinds (st'.scope c).qualifier x := by
  obtain hx | ⟨name, hname, rfl⟩ := sets_cases hm hst h
  · exact hx.not_generated
  · exact (hm.identifiers st hst name hname).not_generated hk (hm.sharp st hst name hname st' hst')

/-- The writes of some code of a statement. Those of temporaries balance: a temporary is written as
often as it is made. -/
structure Ledger (c : Catalog) (m : Module) (st : Stmt) (s t : Draft) (ws : List String) :
    Prop where
  owner : ∀ w ∈ ws, st.Sets c w ∨ Names.Generated Names.temporaries (st.scope c).qualifier w
  balance : ∀ st' ∈ m.body, ∀ {x}, Names.Generated Names.temporaries (st'.scope c).qualifier x →
    ws.count x + (s.vars.contains x).toNat = (t.vars.contains x).toNat

theorem Ledger.trans {u : Draft} {us vs : List String} (h : m.Ledger c st s t us)
    (h' : m.Ledger c st t u vs) :
    m.Ledger c st s u (us ++ vs) where
  owner := List.forall_mem_append.mpr ⟨h.owner, h'.owner⟩
  balance st' hst' x hx := by
    rw [List.count_append, ← h'.balance st' hst' hx, ← h.balance st' hst' hx]
    omega

theorem Act.writes (hm : m.IsProper c) (hst : st ∈ m.body) (h : m.Act c fs F k st s t) :
    ∃ code ws, Emits s t code ∧ Code.Writes c code ws ∧ m.Ledger c st s t ws := by
  have hsame {t : Draft} (hv : t.vars.declared = s.vars.declared) : m.Ledger c st s t [] :=
    ⟨List.forall_mem_nil _, fun _ _ _ _ =>
      by rw [Variables.contains_congr hv, List.count_nil, Nat.zero_add]⟩
  cases h with
  | quiet h => exact ⟨[], [], h.emits, .nil, hsame h.declared⟩
  | @const _ kind ty init y hk h =>
      obtain ⟨rfl, -, hvars⟩ := Lower.generate_eq_ok h
      refine ⟨[], [], Lower.generate_emits h, .nil, List.forall_mem_nil _, fun st' hst' x hx => ?_⟩
      have hne : (st.scope c).qualifier ++ Names.generated s.emitter.counter kind ≠ x := by
        rintro rfl
        exact absurd (hx.unique Names.plain_temporaries Names.plain_constants ⟨_, kind, hk, rfl⟩).2
          (by decide)
      rw [hvars, Variables.contains_declared, decide_eq_false hne, Bool.or_false, List.count_nil,
        Nat.zero_add]
  | name hy ha h =>
      obtain ⟨vs, hvs, rfl⟩ := Lower.declare_eq_ok.mp h
      obtain ⟨-, -, rfl⟩ := Variables.declare_eq_ok hvs
      refine ⟨[], [], Lower.declare_emits h, .nil, List.forall_mem_nil _, fun st' hst' x hx => ?_⟩
      rw [Variables.contains_declared, decide_eq_false, Bool.or_false, List.count_nil, Nat.zero_add]
      rintro rfl
      exact not_generated_of_sets hm hst (.name hy ha (.inl rfl)) Names.plain_temporaries hst' hx
  | @code _ xs i hi h =>
      have e := Lower.emit_emits h
      have hvars : t.vars.declared = s.vars.declared := by rw [Lower.emit_vars h]
      by_cases hc : i = .copy
      · subst hc
        obtain ⟨ys, y, rfl, hy⟩ := hi.sets rfl
        refine ⟨_, [y], e, .copy ys y, List.forall_mem_singleton.mpr (.inl hy),
          fun st' hst' x hx => ?_⟩
        have hne : y ≠ x := by
          rintro rfl
          exact not_generated_of_sets hm hst hy Names.plain_temporaries hst' hx
        rw [List.count_singleton, beq_false_of_ne hne, if_neg Bool.false_ne_true,
          Variables.contains_congr hvars, Nat.zero_add]
      · exact ⟨_, [], e, .other xs hi.purpose.ne_push hc hi.inner, hsame hvars⟩
  | @run _ f xs hf hv hx h =>
      exact ⟨_, [], Lower.emit_emits h, .run ⟨f, hf, rfl, hv⟩ xs, hsame (by rw [Lower.emit_vars h])⟩
  | @fill u _ kind ty y zs i hk hy hz hi hs h =>
      have e := (Lower.generate_emits hy).skip (Lower.emit_emits h)
      obtain ⟨hname, hnew, hvars⟩ := Lower.generate_eq_ok hy
      have hw : Code.Writes c (Block.pushAll (zs ++ [y]) ++ [i]) [y] := by
        obtain rfl | ⟨symbol, hs, rfl⟩ := hs
        · exact .copy zs y
        · exact .result hs zs y
      refine ⟨_, [y], e, hw, List.forall_mem_singleton.mpr (.inr ⟨_, _, hk, hname⟩),
        fun _ _ x _ => ?_⟩
      rw [Lower.emit_vars h, hvars, Variables.contains_declared, List.count_singleton]
      by_cases hyx : y = x
      · subst hyx
        simp [hnew]
      · simp [hyx]

theorem Acts.writes (hm : m.IsProper c) (hst : st ∈ m.body) (h : m.Acts c fs F k st s t) :
    ∃ code ws, Emits s t code ∧ Code.Writes c code ws ∧ m.Ledger c st s t ws := by
  induction h with
  | refl =>
      exact ⟨[], [], .refl s, .nil, List.forall_mem_nil _, fun _ _ _ _ =>
        by rw [List.count_nil, Nat.zero_add]⟩
  | tail _ h ih =>
      obtain ⟨xs, us, ex, hx, lx⟩ := ih
      obtain ⟨ys, vs, ey, hy, ly⟩ := h.writes hm hst
      exact ⟨xs ++ ys, us ++ vs, ex.trans ey, .append hx hy, lx.trans ly⟩

/-- All code of a program and all its writes, by statements. -/
structure Owned (c : Catalog) (m : Module) (p : Program) (region : Nat → List Instr)
    (writes : Nat → List String) :
    Prop where
  whole : p.code = (List.range m.body.length).flatMap region
  regions : ∀ {k st}, m.body[k]? = some st →
    (∃ a, m.Occupies c p k st a (region k)) ∧ Code.Writes c (region k) (writes k)
  /-- The list is what the code says to a host that answers as the catalog has it. -/
  reading : ∀ {answers : String → Bool}, (∀ symbol, c.Answers symbol → answers symbol) →
    (∀ symbol, c.Silent symbol → answers symbol = false) → ∀ k < m.body.length,
    writes k = Code.written answers (region k)
  /-- Each definition has a qualifier of its own, and other statements have none. -/
  qualifiers : ∀ {j k : Nat} {st st' : Stmt}, m.body[j]? = some st → m.body[k]? = some st' →
    ((st.scope c).qualifier = "" ↔ st.place c = .module) ∧
      ((st.scope c).qualifier = (st'.scope c).qualifier → (st.scope c).qualifier ≠ "" → j = k)
  origins : ∀ x ∈ p.vars.map DataVar.name, m.Introduces c x ∨ ∃ st ∈ m.body, x ∈ st.paramVars c ∨
    Names.Generated (Names.temporaries ++ Names.constants) (st.scope c).qualifier x
  temporaries : ∀ st ∈ m.body, ∀ x ∈ p.vars.map DataVar.name,
    Names.Generated Names.temporaries (st.scope c).qualifier x →
    ∃ k st', m.body[k]? = some st' ∧ (st'.scope c).qualifier = (st.scope c).qualifier ∧
    (writes k).count x = 1 ∧
      ∀ j < m.body.length, j ≠ k → x ∉ writes j
  constants : ∀ st ∈ m.body, ∀ {x}, Names.Generated Names.constants (st.scope c).qualifier x →
    ∀ j < m.body.length, x ∉ writes j
  params : ∀ {k st x}, m.body[k]? = some st → x ∈ st.paramVars c →
    ∀ j < m.body.length, x ∈ writes j → j = k

def Listed (c : Catalog) (m : Module) (p : Program) (d : Nat → Draft) (region : Nat → List Instr)
    (writes : Nat → List String) : Prop :=
  ∀ k st, m.body[k]? = some st → ∃ code, Emits (d k) (d (k + 1)) code ∧
    Linked p.labels code (region k) ∧ Code.Writes c (region k) (writes k) ∧
    m.Ledger c st (d k) (d (k + 1)) (writes k)

theorem Listed.ledger {region : Nat → List Instr} {writes : Nat → List String}
    (H : m.Listed c p d region writes) (hk : m.body[k]? = some st) :
    m.Ledger c st (d k) (d (k + 1)) (writes k) := by
  obtain ⟨_, _, _, _, hledger⟩ := H k st hk
  exact hledger

theorem Listed.constant_unwritten {region : Nat → List Instr} {writes : Nat → List String}
    (H : m.Listed c p d region writes) (hm : m.IsProper c) (hst : st ∈ m.body)
    (hg : Names.Generated Names.constants (st.scope c).qualifier x) (hk : k < m.body.length) :
    x ∉ writes k := by
  intro hmem
  have hget := List.getElem?_eq_getElem hk
  obtain hs | hw := (H.ledger hget).owner x hmem
  · exact not_generated_of_sets hm (List.mem_of_getElem? hget) hs Names.plain_constants hst hg
  · exact absurd (hw.unique Names.plain_temporaries Names.plain_constants hg).2 (by decide)

/-- A temporary is written where it is made, and only there. -/
theorem Listed.made_of_written {region : Nat → List Instr} {writes : Nat → List String}
    (H : m.Listed c p d region writes) (hst : st ∈ m.body)
    (hg : Names.Generated Names.temporaries (st.scope c).qualifier x) (hk : k < m.body.length)
    (hx : x ∈ writes k) :
    (d k).vars.contains x = false ∧ (d (k + 1)).vars.contains x := by
  have hcount := (H.ledger (List.getElem?_eq_getElem hk)).balance st hst hg
  have hpos := List.count_pos_iff.mpr hx
  have hle := Bool.toNat_le ((d (k + 1)).vars.contains x)
  constructor
  · rw [← Bool.toNat_eq_zero]
    omega
  · rw [← Bool.toNat_eq_one]
    omega

theorem Linked.unique {labels : List Label} {xs ys zs : List Instr} (hy : Linked labels xs ys)
    (hz : Linked labels xs zs) :
    ys = zs := by
  induction hy generalizing zs with
  | nil => cases hz; rfl
  | cons hi _ ih =>
      obtain ⟨j, ws, hj, hw, rfl⟩ := List.forall₂_cons_left_iff.mp hz
      rw [hi] at hj
      cases hj
      rw [ih hw]

namespace Layout

variable (L : Layout c m p fs d) {region : Nat → List Instr} {writes : Nat → List String}
include L

theorem listed (hm : m.IsProper c) : ∃ region writes, m.Listed c p d region writes := by
  have hk (k : Nat) : ∃ region ws, ∀ st, m.body[k]? = some st →
      ∃ code, Emits (d k) (d (k + 1)) code ∧
        Linked p.labels code region ∧ Code.Writes c region ws ∧
          m.Ledger c st (d k) (d (k + 1)) ws := by
    cases hst : m.body[k]? with
    | none => exact ⟨[], [], by simp⟩
    | some st =>
        have hlt := (List.getElem?_eq_some_iff.mp hst).1
        obtain ⟨code, ws, e, hw, hl⟩ := (L.acts hst).writes hm (List.mem_of_getElem? hst)
        obtain ⟨region, hlinked, -⟩ := e.has (L.size_code hlt.le) (L.moves hlt le_rfl) L.linked
        refine ⟨region, ws, fun st' h => ?_⟩
        cases h
        exact ⟨code, e, hlinked, hw.linked hlinked, hl⟩
  choose region writes h using hk
  exact ⟨region, writes, h⟩

theorem linked_regions (H : m.Listed c p d region writes) {n : Nat} (hn : n ≤ m.body.length) :
    Linked p.labels (d n).code ((List.range n).flatMap region) := by
  induction n with
  | zero =>
      rw [L.code_zero]
      exact .nil
  | succ n ih =>
      obtain ⟨code, e, hl, -⟩ := H n _ (List.getElem?_eq_getElem hn)
      rw [e.code, List.range_succ, List.flatMap_append, List.flatMap_singleton]
      exact List.rel_append (ih (Nat.le_of_succ_le hn)) hl

theorem exists_maker (hm : m.IsProper c) (hst : st ∈ m.body)
    (hg : Names.Generated Names.temporaries (st.scope c).qualifier x)
    (hx : (d m.body.length).vars.contains x) :
    ∃ k < m.body.length, (d k).vars.contains x = false ∧ (d (k + 1)).vars.contains x := by
  have hzero : (d 0).vars.contains x = false := by
    rw [← Bool.not_eq_true]
    intro h
    obtain ⟨ty, hty⟩ := exists_type h
    obtain hi | ⟨st', hst', hp⟩ := L.announced_cases hty
    · exact (hi.isPlain hm).not_generated hg
    · exact not_generated_of_sets hm hst' (.param hp) Names.plain_temporaries hst hg
  have hfirst {n : Nat} (h : (d n).vars.contains x) : ∃ k < n, (d k).vars.contains x = false ∧
      (d (k + 1)).vars.contains x := by
    induction n with
    | zero =>
        rw [hzero] at h
        cases h
    | succ n ih =>
        cases hn : (d n).vars.contains x with
        | false => exact ⟨n, Nat.lt_succ_self n, hn, h⟩
        | true =>
            obtain ⟨k, hk, h⟩ := ih hn
            exact ⟨k, hk.trans (Nat.lt_succ_self n), h⟩
  exact hfirst hx

theorem temporary_once (hm : m.IsProper c) (H : m.Listed c p d region writes) (hst : st ∈ m.body)
    (hg : Names.Generated Names.temporaries (st.scope c).qualifier x)
    (hx : (d m.body.length).vars.contains x) :
    ∃ k st', m.body[k]? = some st' ∧ (st'.scope c).qualifier = (st.scope c).qualifier ∧
    (writes k).count x = 1 ∧
      ∀ j < m.body.length, j ≠ k → x ∉ writes j := by
  obtain ⟨k, hk, hbefore, hafter⟩ := L.exists_maker hm hst hg hx
  have hget := List.getElem?_eq_getElem hk
  have hledger := H.ledger hget
  have hone : (writes k).count x = 1 := by
    have hcount := hledger.balance st hst hg
    rw [hbefore, hafter] at hcount
    exact hcount
  refine ⟨k, _, hget, ?_, hone, fun j hj hne hmem => ?_⟩
  · obtain hs | hw := hledger.owner x (List.count_pos_iff.mp (by omega))
    · exact absurd hg
        (not_generated_of_sets hm (List.mem_of_getElem? hget) hs Names.plain_temporaries hst)
    · exact (hw.unique Names.plain_temporaries Names.plain_temporaries hg).1
  · -- what is there stays there, so it is made once
    obtain ⟨hbefore', hafter'⟩ := H.made_of_written hst hg hj hmem
    rcases lt_trichotomy j k with h | h | h
    · rw [(L.moves h hk.le).contains hafter'] at hbefore
      cases hbefore
    · exact hne h
    · rw [(L.moves h hj.le).contains hafter] at hbefore'
      cases hbefore'

theorem param_owner (hm : m.IsProper c) (H : m.Listed c p d region writes)
    (hk : m.body[k]? = some st) (hx : x ∈ st.paramVars c) {j : Nat} (hj : j < m.body.length)
    (hmem : x ∈ writes j) : j = k := by
  have hget := List.getElem?_eq_getElem hj
  have hst := List.mem_of_getElem? hk
  obtain hs | hw := (H.ledger hget).owner x hmem
  · obtain hplain | ⟨name, hname, rfl⟩ := sets_cases hm (List.mem_of_getElem? hget) hs
    · obtain ⟨name, -, rfl⟩ := mem_paramVars hx
      exact absurd rfl (hplain.ne_qualify _ _)
    · exact (L.param_of_qualify hm hget hk hname hx).1
  · exact absurd hw
      (not_generated_of_sets hm hst (.param hx) Names.plain_temporaries (List.mem_of_getElem? hget))

theorem owned (hm : m.IsProper c) : ∃ region writes, m.Owned c p region writes := by
  obtain ⟨region, writes, H⟩ := L.listed hm
  refine ⟨region, writes, ?_, fun {k st} hk => ?_, fun {answers} ha hs k hk => ?_,
    fun {j k st st'} hj hk => ?_, fun x hx => ?_, fun st hst x hx hg =>
    L.temporary_once hm H hst hg (L.known_iff.mpr hx), fun st hst x hg j hj =>
      H.constant_unwritten hm hst hg hj, fun hk hx j hj hmem => L.param_owner hm H hk hx hj hmem⟩
  · exact Linked.unique L.linked (L.linked_regions H le_rfl)
  · obtain ⟨code, e, hl, hw, -⟩ := H k st hk
    obtain ⟨region', hoccupies⟩ := L.occupies hk
    obtain ⟨-, -, -, hat, code', e', hl'⟩ := L.of_occupies hoccupies
    obtain rfl : code = code' := List.append_cancel_left (e.code.symm.trans e'.code)
    obtain rfl := Linked.unique hl hl'
    exact ⟨⟨_, hoccupies⟩, hw⟩
  · obtain ⟨-, -, -, hw, -⟩ := H k _ (List.getElem?_eq_getElem hk)
    have h := hw.written_append ha hs []
    simp only [List.append_nil, Code.written] at h
    exact h.symm
  · exact ⟨L.qualifier_eq_empty hm hj, fun hq hne => L.statement_of_qualifier hm hj hk hq hne⟩
  · obtain hi | ⟨st, hst, hp⟩ | ⟨st, hst, hg⟩ := L.variable_cases (L.known_iff.mpr hx)
    · exact .inl hi
    · exact .inr ⟨st, hst, .inl hp⟩
    · exact .inr ⟨st, hst, .inr hg⟩

end Layout

/-- In a script with proper identifiers each temporary is written once, by the definition whose
qualifier it has, constants are never written, and parameters only by their own definition. -/
theorem compile_owned (hc : m.compile c = .ok p) (hm : m.IsProper c) :
    ∃ region writes, m.Owned c p region writes := by
  obtain ⟨fs, d, L⟩ := layout_of_compile hc
  exact L.owned hm

def tally : Module :=
  ⟨[Build.assign (.name .unknown "_total") (.int .unknown 0),
    Build.define "f" [("n", "SystemInt32"), ("_step", "SystemInt32")] (some "SystemUInt32")
      [Build.assign (.name .unknown "n")
        (Build.binary (.name .unknown "n") .add (.name .unknown "_step")),
        Build.ret (some (Build.call (.name .unknown "SystemUInt32") [.name .unknown "n"]))],
    Build.define "_start" [] none
      [Build.loop (.bool .unknown true)
        [Build.assign (.name .unknown "x")
          (Build.call (.name .unknown "f") [.name .unknown "_total", .int .unknown 1])]]]⟩

theorem tally_owned : ∃ p region writes, tally.compile arithmetic = .ok p ∧
    tally.IsProper arithmetic ∧ Code.written (fun _ => true) p.code =
    ["f__SystemInt32_SystemInt32___step", "f__SystemInt32_SystemInt32__n",
      "f__SystemInt32_SystemInt32__0_extern", "f__SystemInt32_SystemInt32__n", "ret_addr",
      "f__SystemInt32_SystemInt32__1_cast", "ret_addr", "ret_addr", "_start__5_bool",
      "_start__9_ret_value", "ret_addr", "x"] ∧ tally.Owned arithmetic p region writes := by
  have hok : (tally.compile arithmetic).toOption.map
      (fun p => Code.written (fun _ => true) p.code) =
        some ["f__SystemInt32_SystemInt32___step", "f__SystemInt32_SystemInt32__n",
          "f__SystemInt32_SystemInt32__0_extern", "f__SystemInt32_SystemInt32__n", "ret_addr",
          "f__SystemInt32_SystemInt32__1_cast", "ret_addr", "ret_addr", "_start__5_bool",
          "_start__9_ret_value", "ret_addr", "x"] := by
    decide +kernel
  have hm : tally.IsProper arithmetic := by decide +kernel
  cases hc : tally.compile arithmetic with
  | error e => rw [hc] at hok; cases hok
  | ok p =>
      rw [hc] at hok
      obtain ⟨region, writes, howned⟩ := compile_owned hc hm
      exact ⟨p, region, writes, rfl, hm, Option.some.inj hok, howned⟩

end Module
end StackScript
