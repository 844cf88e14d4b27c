import StackScript.Proofs.FaultPlaces
import StackScript.Proofs.Identifiers

namespace StackScript

namespace Names

variable {n n' : Nat} {kind x : String}

/-- A name that was generated before the counter came to `n`, in any scope. -/
def Past (n : Nat) (x : String) : Prop :=
  ∃ scope, ∃ k < n, ∃ kind ∈ temporaries ++ constants, x = scope ++ generated k kind

theorem Past.mono (h : Past n x) (hn : n ≤ n') : Past n' x := by
  obtain ⟨scope, k, hk, h⟩ := h
  exact ⟨scope, k, hk.trans_le hn, h⟩

theorem past_succ (hk : kind ∈ temporaries ++ constants) (scope : String) (n : Nat) :
    Past (n + 1) (scope ++ generated n kind) := ⟨scope, n, n.lt_succ_self, kind, hk, rfl⟩

theorem not_past (hk : kind ∈ temporaries ++ constants) (scope : String) (n : Nat) :
    ¬ Past n (scope ++ generated n kind) := by
  rintro ⟨scope', k, hlt, kind', hk', h⟩
  obtain ⟨-, rfl, -⟩ := append_generated_inj (plain_kinds _ hk) (plain_kinds _ hk') h
  exact lt_irrefl _ hlt

end Names

namespace Draft

variable {s t : Draft}

theorem Move.counter_le (h : Move s t) : s.emitter.counter ≤ t.emitter.counter := by
  cases h with
  | bind h =>
      obtain ⟨_, _, rfl⟩ := Emitter.bind_eq_ok h
      exact le_rfl
  | count kind => exact Nat.le_succ _
  | named name => obtain ⟨_, _, he⟩ | ⟨_, he⟩ := s.emitter.namedLabel_cases name <;> rw [he]
  | _ => exact le_rfl

theorem Moves.counter_le (h : Moves s t) : s.emitter.counter ≤ t.emitter.counter := by
  induction h with
  | refl => exact le_rfl
  | tail _ hm ih => exact ih.trans hm.counter_le

def Accounted (own : String → Prop) (s : Draft) : Prop :=
  ∀ v ∈ s.vars.declared, own v.name ∨ Names.Past s.emitter.counter v.name

variable {own : String → Prop}

theorem Accounted.of_declared (hs : Accounted own s) (hd : t.vars.declared = s.vars.declared)
    (hc : s.emitter.counter ≤ t.emitter.counter) : Accounted own t := by
  intro v hv
  rw [hd] at hv
  exact (hs v hv).imp_right fun hp => hp.mono hc

theorem Accounted.add {v : Variable} (hs : Accounted own s)
    (hd : t.vars.declared = s.vars.declared ++ [v]) (hc : s.emitter.counter ≤ t.emitter.counter)
    (hv : own v.name ∨ Names.Past t.emitter.counter v.name) :
    Accounted own t := by
  intro w hw
  rw [hd] at hw
  obtain hw | hw := List.mem_append.mp hw
  · exact (hs w hw).imp_right fun hp => hp.mono hc
  · obtain rfl := List.mem_singleton.mp hw
    exact hv

end Draft

namespace Lower

open Draft

variable {own : String → Prop}

theorem counter_of_generate {cx : Context} {kind x : String} {ty : Ty} {init : Init} {s t : Draft}
    (h : generate cx kind ty init s = .ok x t) : t.emitter.counter = s.emitter.counter + 1 := by
  simp only [generate, bind_eq_ok, pure_eq_ok, modifyGet_eq_ok, declare_eq_ok] at h
  obtain ⟨_, _, ⟨rfl, rfl⟩, _, _, ⟨_, _, rfl⟩, rfl, rfl⟩ := h
  rfl

theorem Declines.clash {vs : Variables} {x y : String} {f : Fault} (h : Declines vs x f)
    (hy : f.clash? = some y) :
    y = x ∧ vs.contains x := by
  cases h with
  | known h =>
      cases hy
      exact ⟨rfl, h⟩
  | void => cases hy

/-- In a step all new variables are accounted for, and only a name of the script is found to be
declared already. -/
structure Accounts {α : Type} (own : String → Prop) (x : Lower α) : Prop where
  of_ok : ∀ {s a t}, x s = .ok a t → Accounted own s → Accounted own t
  of_error : ∀ {s f t y}, x s = .error f t → Accounted own s → f.clash? = some y → own y

theorem accounts_rules (ps : List Pos) (own : String → Prop) :
    Rules ps own fun {_} => Accounts own where
  harmless {α x} hx := by
    refine ⟨fun {s a t} h hs => ?_, fun {s f t y} h _ _ => ?_⟩
    · obtain ⟨b, u, hb, hd, hc⟩ := hx s
      rw [hb] at h
      cases h
      exact hs.of_declared hd hc
    · obtain ⟨b, u, hb, -⟩ := hx s
      rw [hb] at h
      cases h
  bindLabel label := by
    refine ⟨fun h hs => ?_, fun h _ hy => ?_⟩
    · exact hs.of_declared (by rw [bindLabel_vars h]) (bindLabel_emits h).1.moves.counter_le
    · rw [(bindLabel_fault h).2] at hy
      cases hy
  reject {α d} hd := by
    refine ⟨fun h _ => (reject_eq_ok.mp h).elim, fun h _ hy => ?_⟩
    cases h
    rw [hd.clash] at hy
    cases hy
  declare {x ty init} hx := by
    refine ⟨fun h hs => ?_, fun h _ hy => ?_⟩
    · obtain ⟨vs, hvs, rfl⟩ := declare_eq_ok.mp h
      obtain ⟨-, -, rfl⟩ := Variables.declare_eq_ok hvs
      exact hs.add rfl le_rfl (.inl hx)
    · obtain ⟨rfl, -⟩ := (Declines.of_declare h).clash hy
      exact hx
  generate {cx kind ty init} hk := by
    refine ⟨fun {s x t} h hs => ?_, fun {s f t y} h hs hy => ?_⟩
    · obtain ⟨rfl, -, hvars⟩ := generate_eq_ok h
      have hcount := counter_of_generate h
      refine hs.add (by rw [hvars]) (by omega) (.inr ?_)
      rw [hcount]
      exact Names.past_succ hk ..
    · -- the variable in the way was not generated, since the counter has gone on
      obtain ⟨rfl, hc⟩ := (Declines.of_generate h).clash hy
      obtain ⟨v, hv, hname⟩ := List.mem_map.mp (Variables.contains_iff.mp hc)
      obtain hown | hpast := hs v hv
      · exact hname ▸ hown
      · rw [hname] at hpast
        exact absurd hpast (Names.not_past hk _ _)
  located {α p x} _ hx := by
    refine ⟨fun h hs => ?_, fun h hs hy => ?_⟩
    · exact hx.of_ok (located_eq_ok.mp h) hs
    · obtain ⟨f, hf, rfl⟩ := located_eq_error.mp h
      rw [Fault.clash?_locate] at hy
      exact hx.of_error hf hs hy
  bind {α β x f} hx hf := by
    refine ⟨fun h hs => ?_, fun h hs hy => ?_⟩
    · obtain ⟨a, u, ha, h⟩ := bind_eq_ok.mp h
      exact (hf ha).of_ok h (hx.of_ok ha hs)
    · obtain h | ⟨a, u, ha, h⟩ := bind_eq_error.mp h
      · exact hx.of_error h hs hy
      · exact (hf ha).of_error h (hx.of_ok ha hs) hy

end Lower

/-- The names that a statement outside of definitions declares otherwise than by generating them:
the slots and the parameters of a definition, and what is assigned to, inside of a definition and
as such. -/
def Stmt.ownNames (c : Catalog) (st : Stmt) : List String :=
  (st.slots c).map Prod.fst ++ st.paramVars c ++ st.targets ++
    st.targets.map (Names.qualify (st.scope c).qualifier)

theorem Stmt.mem_ownNames {c : Catalog} {st : Stmt} {x : String} : x ∈ st.ownNames c ↔
    (∃ v ∈ st.slots c, v.1 = x) ∨ x ∈ st.paramVars c ∨ x ∈ st.targets ∨
      ∃ y ∈ st.targets, Names.qualify (st.scope c).qualifier y = x := by
  simp only [ownNames, List.mem_append, List.mem_map, or_assoc]

namespace Module

open Lower

variable {c : Catalog} {m : Module} {f : Fault} {x : String}

def ownNames (c : Catalog) (m : Module) : List String :=
  c.reserved.map Prod.fst ++ m.body.flatMap (Stmt.ownNames c)

theorem own_of_reserved {v : String × Ty} (hv : v ∈ c.reserved) : v.1 ∈ m.ownNames c :=
  List.mem_append_left _ (List.mem_map.mpr ⟨v, hv, rfl⟩)

theorem own_of_statement {st : Stmt} (hst : st ∈ m.body) (hx : x ∈ st.ownNames c) :
    x ∈ m.ownNames c :=
  List.mem_append_right _ (List.mem_flatMap.mpr ⟨st, hst, hx⟩)

theorem accounts_header (c : Catalog) (m : Module) : Accounts (· ∈ m.ownNames c) (header c m) := by
  have K := accounts_rules (Stmt.placesAll m.body) (· ∈ m.ownNames c)
  have hslots : ∀ st ∈ m.body, ∀ v ∈ st.slots c, v.1 ∈ m.ownNames c := by
    intro st hst v hv
    exact own_of_statement hst (Stmt.mem_ownNames.mpr (.inl ⟨v, hv, rfl⟩))
  have hparams : ∀ st ∈ m.body, ∀ y ∈ st.paramVars c, y ∈ m.ownNames c := by
    intro st hst y hy
    exact own_of_statement hst (Stmt.mem_ownNames.mpr (.inr (.inl hy)))
  exact K.seq (K.declareReserved fun v => own_of_reserved) fun _ => K.seq (K.note _) fun _ =>
    K.seq (K.declareDefinitions (List.Subset.refl _) hslots hparams) fun _ =>
      K.seq (K.note _) fun _ => K.pure _

theorem accounts_topLevelAll (c : Catalog) (m : Module) (fs : Functions) :
    Accounts (· ∈ m.ownNames c) (topLevelAll c fs m.body) := by
  apply (accounts_rules (Stmt.placesAll m.body) (· ∈ m.ownNames c)).topLevelAll (List.Subset.refl _)
  intro st hst y hy
  constructor
  · exact own_of_statement hst (Stmt.mem_ownNames.mpr (.inr (.inr (.inl hy))))
  · exact own_of_statement hst (Stmt.mem_ownNames.mpr (.inr (.inr (.inr ⟨y, hy, rfl⟩))))

/-- If a script is refused since a variable is declared already, then it is a variable that the
script names itself. -/
theorem own_of_clash (h : m.compile c = .error f) (hx : f.clash? = some x) : x ∈ m.ownNames c := by
  obtain ⟨t, hmodule⟩ := module_of_compile h
  rw [module_eq] at hmodule
  have hempty : Draft.Accounted (· ∈ m.ownNames c) .empty := fun v hv => by cases hv
  obtain hheader | ⟨fs, s₀, hh, hmodule⟩ := bind_eq_error.mp hmodule
  · exact (accounts_header c m).of_error hheader hempty hx
  obtain hbody | ⟨_, F, hF, hfinish⟩ := bind_eq_error.mp hmodule
  · exact (accounts_topLevelAll c m fs).of_error hbody ((accounts_header c m).of_ok hh hempty) hx
  obtain ⟨d, hdata, rfl⟩ | ⟨exports, vars, hdata, hlink⟩ := finish_eq_error hfinish
  · -- what fails at the end is about exports and types
    obtain ⟨-, ⟨y, -, -, hy⟩ | ⟨v, -, -, hv⟩⟩ := problem_of_dataSegment hdata
    · rw [Fault.clash?, hy] at hx
      cases hx
    · rw [Fault.clash?, hv] at hx
      cases hx
  · have hlowered : m.lowered c m.body.length = some (fs, F) :=
      lowered_eq_some.mpr (upTo_eq_ok.mpr ⟨s₀, hh, by rwa [List.take_length]⟩)
    obtain ⟨q, hq⟩ := exists_link_of_lowered hlowered hdata
    rw [hlink] at hq
    cases hq

end Module
end StackScript
