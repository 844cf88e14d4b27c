import StackScript.Proofs.Lowering.Faults
import StackScript.Proofs.StackDepth

namespace StackScript

namespace Code

def Boundary (code : List Instr) (a : Nat) : Prop := ∃ pre, pre <+: code ∧ size pre = a

theorem Boundary.mono {xs ys : List Instr} {a : Nat} (h : Boundary xs a) (hp : xs <+: ys) :
    Boundary ys a := by
  obtain ⟨pre, hpre, ha⟩ := h
  exact ⟨pre, hpre.trans hp, ha⟩

theorem Boundary.le {code : List Instr} {a : Nat} (h : Boundary code a) : a ≤ size code := by
  obtain ⟨pre, ⟨post, rfl⟩, rfl⟩ := h
  rw [size_append]
  exact Nat.le_add_right ..

theorem boundary_size (code : List Instr) : Boundary code (size code) :=
  ⟨code, List.prefix_rfl, rfl⟩

theorem mem_addressesFrom_of_prefix {pre code : List Instr} (h : pre <+: code) (b : Nat) :
    b + size pre ∈ addressesFrom b code ∨ b + size pre = b + size code := by
  induction pre generalizing code b with
  | nil =>
      cases code with
      | nil => exact .inr rfl
      | cons i is => exact .inl (by simp [addressesFrom])
  | cons i pre ih =>
      obtain ⟨rest, rfl⟩ := h
      rw [List.cons_append, addressesFrom, size_cons, size_cons, ← Nat.add_assoc, ← Nat.add_assoc]
      exact (ih (List.prefix_append pre rest) (b + i.width)).imp_left (List.mem_cons_of_mem b)

end Code

theorem Linked.boundary {labels : List Label} {xs ys : List Instr}
    (h : Linked labels xs ys) {a : Nat} (ha : Code.Boundary xs a) : Code.Boundary ys a := by
  obtain ⟨pre, ⟨post, rfl⟩, rfl⟩ := ha
  obtain ⟨us, vs, rfl, hu, _⟩ := h.split
  exact ⟨us, List.prefix_append us vs, hu.size_eq⟩

def Program.IsBoundary (p : Program) (a : Nat) : Prop := a ∈ p.addresses ∨ a = p.codeSize

theorem Program.isBoundary_of_boundary {p : Program} {a : Nat} (h : Code.Boundary p.code a) :
    p.IsBoundary a := by
  obtain ⟨pre, hpre, rfl⟩ := h
  simpa [IsBoundary, addresses, codeSize] using Code.mem_addressesFrom_of_prefix hpre 0

namespace Draft

variable {s t F : Draft} {l a : Nat}

theorem Move.bound_cases (h : Move s t) (hb : t.Bound l a) : s.Bound l a ∨ a = s.emitter.pc := by
  cases h with
  | note | emit | count | event | declare | mark => exact .inl hb
  | @bind label e h =>
      obtain ⟨n, hl, rfl⟩ := Emitter.bind_eq_ok h
      obtain ⟨m, hm⟩ := bound_iff.mp hb
      by_cases hne : label = l
      · subst hne
        have hlt := (Array.getElem?_eq_some_iff.mp hl).1
        simp only [Array.getElem?_setIfInBounds_self_of_lt hlt, Option.some.injEq, Label.mk.injEq]
          at hm
        exact .inr hm.2.symm
      · simp only [Array.getElem?_setIfInBounds_ne hne] at hm
        exact .inl (bound_iff.mpr ⟨m, hm⟩)
  | label name => exact .inl (bound_of_pushLabel hb)
  | named name =>
      obtain ⟨k, _, he⟩ | ⟨_, he⟩ := s.emitter.namedLabel_cases name
      · rw [he] at hb; exact .inl hb
      · rw [he] at hb; exact .inl (bound_of_pushLabel hb)

theorem boundary_of_bound (hm : Moves .empty s) (hb : s.Bound l a) : Code.Boundary s.code a := by
  induction hm with
  | refl =>
      obtain ⟨n, hn⟩ := bound_iff.mp hb
      cases hn
  | @tail u t hu ht ih =>
      have hp := ht.grows.code
      obtain hb | rfl := ht.bound_cases hb
      · exact (ih hb).mono hp
      · have hsized : u.Sized := Moves.sized hu rfl
        rw [← hsized]
        exact (Code.boundary_size u.code).mono hp

/-- Where the jumps of some code go: to the address that ends the program, or to a label with
a place. -/
def Closes (F : Draft) (code : List Instr) : Prop :=
  ∀ i ∈ code, ∀ t, i.target? = some t → t = .addr haltAddress ∨ ∃ l a, t = .label l ∧ F.Bound l a

theorem closes_append {xs ys : List Instr} : F.Closes (xs ++ ys) ↔ F.Closes xs ∧ F.Closes ys :=
  List.forall_mem_append

theorem closes_of_noTarget {xs : List Instr} (hx : ∀ i ∈ xs, i.target? = none) : F.Closes xs := by
  intro i hi t ht
  rw [hx i hi] at ht
  cases ht

theorem closes_goto (hb : F.Bound l a) : F.Closes (Block.goto l) := by
  intro i hi t ht
  obtain rfl := List.mem_singleton.mp hi
  cases ht
  exact .inr ⟨l, a, rfl, hb⟩

theorem closes_halt : F.Closes Block.halt := by
  intro i hi t ht
  obtain rfl := List.mem_singleton.mp hi
  cases ht
  exact .inl rfl

theorem closes_branchUnless {x : String} (hb : F.Bound l a) :
    F.Closes (Block.branchUnless x l) := by
  intro i hi t ht
  rw [Block.branchUnless, List.mem_cons, List.mem_singleton] at hi
  obtain rfl | rfl := hi
  · cases ht
  · cases ht
    exact .inr ⟨l, a, rfl, hb⟩

def Entries (F : Draft) (fs : Functions) : Prop :=
  ∀ g ∈ fs, ∀ l, F.emitter.named.lookup (Names.functionId g.name g.types) = some l →
    ∃ a, F.Bound l a

end Draft

section

variable {fs : Functions} {F : Draft}

theorem Straight.closes {code : List Instr} (h : Straight fs F code) (hF : F.Entries fs) :
    F.Closes code := by
  induction h with
  | nil => exact fun i hi => nomatch hi
  | append _ _ hx hy => exact Draft.closes_append.mpr ⟨hx, hy⟩
  | assign => exact Draft.closes_of_noTarget Block.target_assign
  | invoke => exact Draft.closes_of_noTarget Block.target_invoke
  | call hg he =>
      obtain ⟨a, ha⟩ := hF _ hg _ he
      rw [Block.enter_eq, Draft.closes_append, Draft.closes_append, Draft.closes_append]
      exact ⟨⟨Draft.closes_of_noTarget Block.target_pushAll,
        Draft.closes_of_noTarget Block.target_pushAll, Draft.closes_goto ha⟩,
        Draft.closes_of_noTarget Block.target_leave⟩

theorem Leaves.closes {place : Place} {code : List Instr} (h : Leaves fs F place code)
    (hF : F.Entries fs) :
    F.Closes code := by
  cases h with
  | halt => exact Draft.closes_halt
  | void => exact Draft.closes_of_noTarget Block.target_ret
  | value _ hx =>
      rw [Draft.closes_append, Draft.closes_append]
      exact ⟨Draft.closes_of_noTarget Block.target_popInto, hx.closes hF,
        Draft.closes_of_noTarget Block.target_exit⟩

theorem Laid.closes {place : Place} {a : Nat} {ss : List Stmt} {code : List Instr}
    (h : Laid fs F place a ss code) (hF : F.Entries fs) : F.Closes code := by
  induction h with
  | nil => exact fun i hi => nomatch hi
  | plain _ hx _ ih => exact Draft.closes_append.mpr ⟨hx.closes hF, ih⟩
  | leave hx _ ih => exact Draft.closes_append.mpr ⟨hx.closes hF, ih⟩
  | branch hx _ _ _ _ _ hl₁ _ _ hl₂ _ ihy ihz ihr =>
      simp only [Draft.closes_append]
      exact ⟨⟨hx.closes hF, Draft.closes_branchUnless hl₁⟩, ⟨ihy, Draft.closes_goto hl₂⟩, ihz, ihr⟩
  | loop hx _ _ hl₁ _ _ _ hl₂ _ ihy ihr =>
      simp only [Draft.closes_append]
      exact ⟨⟨hx.closes hF, Draft.closes_branchUnless hl₂⟩, ⟨ihy, Draft.closes_goto hl₁⟩, ihr⟩

theorem Placed.closes {c : Catalog} {a : Nat} {st : Stmt} {code : List Instr}
    (h : Placed c fs F a st code) (hF : F.Entries fs) : F.Closes code := by
  cases h with
  | event _ _ hy =>
      rw [Draft.closes_append, Draft.closes_append]
      exact ⟨Draft.closes_of_noTarget target_eventHead, hy.closes hF, Draft.closes_halt⟩
  | function _ _ _ _ hy =>
      rw [Draft.closes_append, Draft.closes_append]
      exact ⟨Draft.closes_of_noTarget Block.target_popIntoAll, hy.closes hF,
        Draft.closes_of_noTarget Block.target_ret⟩
  | loose _ hx => exact hx.closes hF

end

namespace Module

variable {c : Catalog} {m : Module} {fs : Functions} {d : Nat → Draft}

theorem Sketch.entries (K : Sketch c m fs d) : (d m.body.length).Entries fs := by
  intro g hg l hl
  obtain ⟨k, st, hk, hst⟩ := K.exists_define hg
  exact ⟨_, (K.entry_bound hk hst hl).1⟩

theorem Sketch.closes (K : Sketch c m fs d) {k : Nat} (hk : k ≤ m.body.length) :
    (d m.body.length).Closes (d k).code := by
  induction k with
  | zero =>
      rw [K.code_zero]
      exact fun i hi => nomatch hi
  | succ k ih =>
      obtain ⟨code, e, hp⟩ := K.placed (List.getElem?_eq_getElem hk)
      rw [e.code, Draft.closes_append]
      exact ⟨ih (Nat.le_of_succ_le hk), hp.closes K.entries⟩

end Module

theorem exists_mapM_eq_ok {α β ε : Type} {f : α → Except ε β} {xs : List α}
    (h : ∀ x ∈ xs, ∃ y, f x = .ok y) :
    ∃ ys, xs.mapM f = .ok ys := by
  induction xs with
  | nil => exact ⟨[], rfl⟩
  | cons x xs ih =>
      obtain ⟨y, hy⟩ := h x (by simp)
      obtain ⟨ys, hys⟩ := ih fun z hz => h z (by simp [hz])
      exact ⟨y :: ys, by rw [List.mapM_cons, hy, hys]; rfl⟩

theorem Instr.exists_resolve {labels : List Label} {i : Instr}
    (h : ∀ l, i.target? = some (.label l) → ∃ a, Label.address labels l = .ok a) :
    ∃ j, i.resolve labels = .ok j := by
  cases i with
  | jump t | jumpIfFalse t =>
      cases t with
      | addr a => exact ⟨_, rfl⟩
      | label l =>
          obtain ⟨a, ha⟩ := h l rfl
          exact ⟨_, by rw [resolve, Target.resolve, ha]; rfl⟩
  | _ => exact ⟨_, rfl⟩

theorem DataVar.exists_resolve {labels : List Label} {v : DataVar}
    (h : ∀ l, v.init = .label l → ∃ a, Label.address labels l = .ok a) :
    ∃ w, v.resolve labels = .ok w := by
  rw [resolve.eq_def]
  split
  case h_1 l hl =>
    obtain ⟨a, ha⟩ := h l hl
    exact ⟨_, by rw [ha]; rfl⟩
  case h_2 => exact ⟨_, rfl⟩

theorem Program.exists_link {p : Program}
    (hc : ∀ i ∈ p.code, ∀ l, i.target? = some (.label l) → ∃ a, Label.address p.labels l = .ok a)
    (hv : ∀ v ∈ p.vars, ∀ l, v.init = .label l → ∃ a, Label.address p.labels l = .ok a) :
    ∃ q, p.link = .ok q := by
  obtain ⟨code, hcode⟩ := exists_mapM_eq_ok fun i hi => Instr.exists_resolve (hc i hi)
  obtain ⟨vars, hvars⟩ := exists_mapM_eq_ok fun v hv' => DataVar.exists_resolve (hv v hv')
  exact ⟨_, by rw [link, hcode, hvars]; rfl⟩

theorem Instr.target_of_resolve {labels : List Label} {i j : Instr} (h : i.resolve labels = .ok j)
    {t : Target} (ht : j.target? = some t) :
    ∃ a, t = .addr a ∧ (i.target? = some (.addr a) ∨
      ∃ l, i.target? = some (.label l) ∧ Label.address labels l = .ok a) := by
  cases i with
  | jump u | jumpIfFalse u =>
      cases u with
      | addr a =>
          cases h
          cases ht
          exact ⟨a, rfl, .inl rfl⟩
      | label l =>
          simp only [resolve, Target.resolve] at h
          cases ha : Label.address labels l with
          | error e => rw [ha] at h; cases h
          | ok a =>
              rw [ha] at h
              cases h
              cases ht
              exact ⟨a, rfl, .inr ⟨l, rfl, ha⟩⟩
  | _ =>
      cases h
      cases ht

namespace Module

variable {c : Catalog} {m : Module} {fs : Functions} {d : Nat → Draft} {p : Program}

/-- Every target of a compiled module is an address: the one that ends the program, or the place of
a label. -/
theorem Layout.target_cases (L : Layout c m p fs d) {i : Instr} (hi : i ∈ p.code) {t : Target}
    (ht : i.target? = some t) :
    ∃ a, t = .addr a ∧ (a = haltAddress ∨
      ∃ j ∈ (d m.body.length).code, ∃ l, j.target? = some (.label l) ∧
      (d m.body.length).Bound l a) := by
  obtain ⟨j, hj, hres⟩ := exists_of_mem_forall₂ L.linked.flip hi
  obtain ⟨a, rfl, ha⟩ := Instr.target_of_resolve hres ht
  refine ⟨a, rfl, ?_⟩
  obtain ha | ⟨l, hl, ha⟩ := ha
  · obtain ht | ⟨l, _, ht, _⟩ := L.closes le_rfl j hj _ ha
    · cases ht
      exact .inl rfl
    · cases ht
  · rw [L.labels] at ha
    exact .inr ⟨j, hj, l, hl, ha⟩

theorem Layout.isBoundary (L : Layout c m p fs d) {l a : Nat} (hb : (d m.body.length).Bound l a) :
    p.IsBoundary a :=
  Program.isBoundary_of_boundary
    (L.linked.boundary (Draft.boundary_of_bound (L.moves_empty le_rfl) hb))

theorem exists_link_of_lowered {F : Draft} {exports : List String} {vars : List DataVar}
    (hF : m.lowered c m.body.length = some (fs, F))
    (hd : F.vars.dataSegment c = .ok (exports, vars)) :
    ∃ q, (F.emitter.toProgram exports vars).link = .ok q := by
  obtain ⟨d, K, rfl⟩ := sketch_of_lowered hF
  refine Program.exists_link (fun i hi l hl => ?_) fun w hw l hl => ?_
  · obtain ht | ⟨_, a, ht, ha⟩ := K.closes le_rfl i hi _ hl
    · cases ht
    · cases ht
      exact ⟨a, ha⟩
  · obtain ⟨v, hv, _, _, hinit⟩ := exists_of_mem_forall₂ (Lower.dataSegment_eq_ok hd).flip hw
    obtain hs | ⟨_, a, hl', ha⟩ := tied_of_lowered hF v hv
    · rw [Variable.Settled, ← hinit, hl] at hs
      exact hs.elim
    · rw [← hinit, hl] at hl'
      cases hl'
      exact ⟨a, ha⟩

/-- A variable that starts with an address is the return address, which starts with the end of the
program, or it starts with the place of a label. -/
theorem Layout.init_cases (L : Layout c m p fs d) {w : DataVar} (hw : w ∈ p.vars) {a : Nat}
    (ha : w.init = .addr a) :
    w.name = Names.returnAddress ∧ a = haltAddress ∨ ∃ l, (d m.body.length).Bound l a := by
  obtain ⟨v, hv, _, hname, ⟨_, hinit⟩ | ⟨l, b, _, hb, hinit⟩⟩ :=
    exists_of_mem_forall₂ L.vars.flip hw
  · obtain hs | ⟨l, _, hl, _⟩ := tied_of_lowered (L.lowered _ le_rfl) v hv
    · rw [Variable.Settled, ← hinit, ha] at hs
      exact .inl ⟨hname.trans hs.1, hs.2⟩
    · rw [← hinit, ha] at hl
      cases hl
  · rw [ha] at hinit
    cases hinit
    exact .inr ⟨l, by rwa [L.labels] at hb⟩

/-- Linking never fails. -/
theorem fault_of_compile {f : Fault} (h : m.compile c = .error f) :
    f.isUnlabelled ∨ ∃ k st fs s g, m.body[k]? = some st ∧ m.lowered c k = some (fs, s) ∧
    st.Clashes c s g ∧
      f = g.boundTwice.locate st.pos := by
  refine (refusal_of_compile h).imp_right fun hf => ?_
  obtain hf | ⟨fs, F, exports, vars, hF, hd, hl⟩ := hf
  · exact hf
  · obtain ⟨q, hq⟩ := exists_link_of_lowered hF hd
    rw [hl] at hq
    cases hq

theorem isRefusal_of_compile {f : Fault} (h : m.compile c = .error f) : f.isRefusal := by
  obtain hf | ⟨_, st, _, _, g, _, _, _, rfl⟩ := fault_of_compile h
  · exact Fault.isRefusal_of_isUnlabelled hf
  · rw [Function.boundTwice, Fault.locate, Diagnostic.locate]
    split <;> rfl

theorem Layout.isLinked (L : Layout c m p fs d) : p.isLinked := by
  rw [Program.isLinked, Bool.and_eq_true, List.all_eq_true, List.all_eq_true]
  refine ⟨fun i hi => ?_, fun w hw => ?_⟩
  · cases ht : i.target? with
    | none => simp [Program.isLabelled, ht]
    | some t =>
        obtain ⟨a, rfl, _⟩ := L.target_cases hi ht
        simp [Program.isLabelled, ht]
  · obtain ⟨v, _, _, _, ⟨hv, hinit⟩ | ⟨l, b, _, _, hinit⟩⟩ := exists_of_mem_forall₂ L.vars.flip hw
    · cases hi : w.init with
      | label l => exact absurd (hinit.symm.trans hi) (hv l)
      | _ => rfl
    · rw [hinit]
      rfl

/-- No compile fails for want of a label, whatever the catalog and the script. In a compiled program
no label is left, and every address that a jump goes to or that a variable starts with is a boundary
of the code, but for the address that ends the program. -/
theorem compile_labels_closed (c : Catalog) (m : Module) :
    (∀ f, m.compile c = .error f →
      ∃ d, f = .rejected d ∧ ∀ name, d.problem ≠ .unresolvedLabel name) ∧
      ∀ p, m.compile c = .ok p → p.isLinked ∧
        (∀ i ∈ p.code, ∀ t, i.target? = some t →
          ∃ a, t = .addr a ∧ (a = haltAddress ∨ p.IsBoundary a)) ∧
        ∀ v ∈ p.vars, ∀ a, v.init = .addr a →
          v.name = Names.returnAddress ∧ a = haltAddress ∨ p.IsBoundary a := by
  refine ⟨fun f hf => ?_, fun p hp => ?_⟩
  · have hr := isRefusal_of_compile hf
    cases f with
    | dangling l => cases hr
    | rejected d =>
        refine ⟨d, rfl, fun name hn => ?_⟩
        rw [Fault.isRefusal, hn] at hr
        cases hr
  · obtain ⟨fs, d, L⟩ := layout_of_compile hp
    refine ⟨L.isLinked, fun i hi t ht => ?_, fun v hv a ha => ?_⟩
    · obtain ⟨a, rfl, ha⟩ := L.target_cases hi ht
      exact ⟨a, rfl, ha.imp_right fun ⟨_, _, l, _, hl⟩ => L.isBoundary hl⟩
    · exact (L.init_cases hv ha).imp_right fun ⟨l, hl⟩ => L.isBoundary hl

theorem recursive_labels_closed : ∃ p, recursive.compile scalars = .ok p ∧ p.isLinked ∧
    ∀ i ∈ p.code, ∀ t, i.target? = some t →
      ∃ a, t = .addr a ∧ (a = haltAddress ∨ p.IsBoundary a) := by
  have hok : (recursive.compile scalars).isOk := by decide +kernel
  cases hc : recursive.compile scalars with
  | error e => rw [hc] at hok; cases hok
  | ok p =>
      obtain ⟨hl, ht, _⟩ := (compile_labels_closed scalars recursive).2 p hc
      exact ⟨p, rfl, hl, ht⟩

end Module
end StackScript
