import StackScript.Proofs.LabelClosure

namespace StackScript

/-- A statement that has a label at its end. -/
def Stmt.isOpen : Stmt → Bool
  | .branch _ _ _ _ | .loop _ _ _ _ => true
  | _ => false

namespace Draft

variable {F : Draft} {b : Nat}

def Below (F : Draft) (b : Nat) (code : List Instr) : Prop :=
  ∀ i ∈ code, ∀ l a, i.target? = some (.label l) → F.Bound l a → a < b

theorem below_append {xs ys : List Instr} : F.Below b (xs ++ ys) ↔ F.Below b xs ∧ F.Below b ys :=
  List.forall_mem_append

theorem below_of_noTarget {xs : List Instr} (hx : ∀ i ∈ xs, i.target? = none) : F.Below b xs := by
  intro i hi l a hl
  rw [hx i hi] at hl
  cases hl

theorem below_halt : F.Below b Block.halt := by
  intro i hi l a hl
  obtain rfl := List.mem_singleton.mp hi
  cases hl

theorem below_goto {l a : Nat} (hb : F.Bound l a) (ha : a < b) : F.Below b (Block.goto l) := by
  intro i hi l' a' hl hb'
  obtain rfl := List.mem_singleton.mp hi
  cases hl
  rwa [hb'.unique hb]

theorem below_branchUnless {x : String} {l a : Nat} (hb : F.Bound l a) (ha : a < b) :
    F.Below b (Block.branchUnless x l) := by
  intro i hi l' a' hl hb'
  rw [Block.branchUnless, List.mem_cons, List.mem_singleton] at hi
  obtain rfl | rfl := hi
  · cases hl
  · cases hl
    rwa [hb'.unique hb]

def EntriesBelow (F : Draft) (fs : Functions) (b : Nat) : Prop :=
  ∀ g ∈ fs, ∀ l, F.emitter.named.lookup (Names.functionId g.name g.types) = some l →
    ∃ a, F.Bound l a ∧ a < b

end Draft

section

open Code

variable {fs : Functions} {F : Draft} {b : Nat}

theorem Straight.jumpsBelow {code : List Instr} (h : Straight fs F code)
    (hF : F.EntriesBelow fs b) :
    F.Below b code := by
  induction h with
  | nil => exact fun i hi => nomatch hi
  | append _ _ hx hy => exact Draft.below_append.mpr ⟨hx, hy⟩
  | assign => exact Draft.below_of_noTarget Block.target_assign
  | invoke => exact Draft.below_of_noTarget Block.target_invoke
  | call hg he =>
      obtain ⟨a, ha, hlt⟩ := hF _ hg _ he
      rw [Block.enter_eq, Draft.below_append, Draft.below_append, Draft.below_append]
      exact ⟨⟨Draft.below_of_noTarget Block.target_pushAll,
        Draft.below_of_noTarget Block.target_pushAll, Draft.below_goto ha hlt⟩,
        Draft.below_of_noTarget Block.target_leave⟩

theorem Leaves.jumpsBelow {place : Place} {code : List Instr} (h : Leaves fs F place code)
    (hF : F.EntriesBelow fs b) : F.Below b code := by
  cases h with
  | halt => exact Draft.below_halt
  | void => exact Draft.below_of_noTarget Block.target_ret
  | value _ hx =>
      rw [Draft.below_append, Draft.below_append]
      exact ⟨Draft.below_of_noTarget Block.target_popInto, hx.jumpsBelow hF,
        Draft.below_of_noTarget Block.target_exit⟩

theorem Laid.jumpsBelow {place : Place} {a : Nat} {ss : List Stmt} {code : List Instr}
    (h : Laid fs F place a ss code) (hF : F.EntriesBelow fs b) (hb : a + size code < b) :
    F.Below b code := by
  induction h with
  | nil => exact fun i hi => nomatch hi
  | plain _ hx _ ih =>
      rw [add_size_append] at hb
      exact Draft.below_append.mpr ⟨hx.jumpsBelow hF, ih hb⟩
  | leave hx _ ih =>
      rw [add_size_append] at hb
      exact Draft.below_append.mpr ⟨hx.jumpsBelow hF, ih hb⟩
  | branch hx _ _ hb' _ hc hl₁ _ hd hl₂ _ ihy ihz ihr =>
      simp only [size_append] at hb hb' hc
      simp only [Draft.below_append]
      exact ⟨⟨hx.jumpsBelow hF, Draft.below_branchUnless hl₁ (by omega)⟩,
        ⟨ihy (by omega), Draft.below_goto hl₂ (by omega)⟩, ihz (by omega), ihr (by omega)⟩
  | loop hx _ _ hl₁ hb' _ hd hl₂ _ ihy ihr =>
      simp only [size_append] at hb hb' hd
      simp only [Draft.below_append]
      exact ⟨⟨hx.jumpsBelow hF, Draft.below_branchUnless hl₂ (by omega)⟩,
        ⟨ihy (by omega), Draft.below_goto hl₁ (by omega)⟩, ihr (by omega)⟩

theorem Laid.jumpsBelow_of_not_isOpen {a : Nat} {st : Stmt} {code : List Instr}
    (h : Laid fs F .module a [st] code) (hF : F.EntriesBelow fs b) (hs : st.isOpen = false) :
    F.Below b code := by
  cases h with
  | plain _ hx hr =>
      cases hr
      exact Draft.below_append.mpr ⟨hx.jumpsBelow hF, fun i hi => nomatch hi⟩
  | leave hx => cases hx
  | branch => cases hs
  | loop => cases hs

theorem Placed.jumpsBelow {c : Catalog} {a : Nat} {st : Stmt} {code : List Instr}
    (h : Placed c fs F a st code) (hF : F.EntriesBelow fs b)
    (hb : a + size code < b ∨ a + size code = b ∧ st.isOpen = false) :
    F.Below b code := by
  cases h with
  | event _ he hy =>
      rw [Draft.below_append, Draft.below_append]
      refine ⟨Draft.below_of_noTarget target_eventHead, hy.jumpsBelow hF ?_, Draft.below_halt⟩
      simp only [size_append, Block.halt, size_cons, Instr.width] at hb
      omega
  | function _ _ _ he hy =>
      rw [Draft.below_append, Draft.below_append]
      refine ⟨Draft.below_of_noTarget Block.target_popIntoAll, hy.jumpsBelow hF ?_,
        Draft.below_of_noTarget Block.target_ret⟩
      simp only [size_append, Block.ret, Block.popInto, size_cons, Instr.width] at hb
      omega
  | loose _ hx =>
      obtain hb | ⟨_, hs⟩ := hb
      · exact hx.jumpsBelow hF hb
      · exact hx.jumpsBelow_of_not_isOpen hF hs

theorem Laid.exists_target_end {place : Place} {a : Nat} {st : Stmt} {code : List Instr}
    (h : Laid fs F place a [st] code) (hs : st.isOpen) :
    ∃ i ∈ code, ∃ l, i.target? = some (.label l) ∧ F.Bound l (a + size code) := by
  cases h with
  | plain hp =>
      cases st with
      | branch | loop => cases hp
      | _ => cases hs
  | leave => cases hs
  | branch _ _ _ hb _ hc _ _ hd hl₂ hr =>
      cases hr
      refine ⟨_, List.mem_append_right _ (List.mem_append_left _ (List.mem_append_right _
        (List.mem_singleton.mpr rfl))), _, rfl, ?_⟩
      simp only [size_append] at hb hc
      simp only [size_append, size_nil]
      convert hl₂ using 1
      omega
  | loop _ _ _ _ hb _ hd hl₂ hr =>
      cases hr
      refine ⟨_, List.mem_append_left _ (List.mem_append_right _ (List.mem_cons_of_mem _
        (List.mem_singleton.mpr rfl))), _, rfl, ?_⟩
      simp only [size_append] at hb hd
      simp only [size_append, size_nil]
      convert hl₂ using 1
      omega

end

namespace Module

open Draft

variable {c : Catalog} {m : Module} {fs : Functions} {d : Nat → Draft} {p : Program}

/-- The last code of a module is that of a branch or a loop outside of all definitions. -/
def EndsOpen (c : Catalog) (m : Module) (p : Program) : Prop :=
  ∃ k st s t, m.Spans c k st s t ∧ st.isOpen ∧ t.emitter.pc = p.codeSize

theorem Layout.codeSize (L : Layout c m p fs d) : p.codeSize = (d m.body.length).emitter.pc := by
  rw [Program.codeSize, L.linked.size_eq, L.size_code le_rfl]

theorem Sketch.bound_le (K : Sketch c m fs d) {l a : Nat} (hb : (d m.body.length).Bound l a) :
    a ≤ (d m.body.length).emitter.pc := by
  rw [← K.size_code le_rfl]
  exact (boundary_of_bound (K.moves_empty le_rfl) hb).le

theorem Sketch.entriesBelow (K : Sketch c m fs d) :
    (d m.body.length).EntriesBelow fs (d m.body.length).emitter.pc := by
  intro g hg l hl
  obtain ⟨k, st, hk, hst⟩ := K.exists_define hg
  obtain ⟨hb, hlt⟩ := K.entry_bound hk hst hl
  exact ⟨_, hb, hlt.trans_le (K.pc_le (List.getElem?_eq_some_iff.mp hk).1 le_rfl)⟩

theorem Layout.below (L : Layout c m p fs d) (ho : ¬ m.EndsOpen c p) {k : Nat}
    (hk : k ≤ m.body.length) :
    (d m.body.length).Below p.codeSize (d k).code := by
  induction k with
  | zero =>
      rw [L.code_zero]
      exact fun i hi => nomatch hi
  | succ k ih =>
      have hst := List.getElem?_eq_getElem hk
      obtain ⟨code, e, hp⟩ := L.placed hst
      rw [e.code, below_append]
      refine ⟨ih (Nat.le_of_succ_le hk), hp.jumpsBelow (L.codeSize ▸ L.entriesBelow) ?_⟩
      rw [← e.pc]
      have hle : (d (k + 1)).emitter.pc ≤ p.codeSize := L.codeSize ▸ L.pc_le hk le_rfl
      refine hle.lt_or_eq.imp_right fun he => ⟨he, ?_⟩
      by_contra hopen
      exact ho ⟨k, _, _, _, L.spans_iff.mpr ⟨hst, rfl, rfl⟩, by simpa using hopen, he⟩

theorem Layout.exists_target (L : Layout c m p fs d) {i : Instr}
    (hi : i ∈ (d m.body.length).code) {l a : Nat} (hl : i.target? = some (.label l))
    (ha : (d m.body.length).Bound l a) :
    ∃ j ∈ p.code, j.target? = some (.addr a) := by
  obtain ⟨j, hj, hres⟩ := exists_of_mem_forall₂ L.linked hi
  have ha' : Label.address p.labels l = .ok a := by rwa [L.labels]
  obtain rfl | ⟨l', b, hb, ⟨rfl, rfl⟩ | ⟨rfl, rfl⟩⟩ := Instr.resolve_cases hres
  · obtain ⟨_, ht, _⟩ := L.target_cases hj hl
    cases ht
  · cases hl
    rw [hb] at ha'
    cases ha'
    exact ⟨_, hj, rfl⟩
  · cases hl
    rw [hb] at ha'
    cases ha'
    exact ⟨_, hj, rfl⟩

theorem Layout.exists_target_end (L : Layout c m p fs d) (ho : m.EndsOpen c p) :
    ∃ j ∈ p.code, j.target? = some (.addr p.codeSize) := by
  obtain ⟨k, st, s, t, hs, hopen, hend⟩ := ho
  obtain ⟨hk, rfl, rfl⟩ := L.spans_iff.mp hs
  obtain ⟨code, e, hp⟩ := L.placed hk
  cases hp with
  | event | function => cases hopen
  | loose _ hx =>
      obtain ⟨i, hi, l, hl, hb⟩ := hx.exists_target_end hopen
      rw [← e.pc, hend] at hb
      refine L.exists_target ?_ hl hb
      obtain ⟨post, hpost⟩ :=
        (Moves.grows (L.moves (List.getElem?_eq_some_iff.mp hk).1 le_rfl)).code
      rw [← hpost, e.code]
      simp [hi]

/-- Every jump of a compiled module ends the program or goes into the code or to its end. It
never goes to the end exactly if the last code is not that of a branch or a loop outside of
all definitions. -/
theorem compile_jumps_inside_iff (hc : m.compile c = .ok p) :
    (∀ i ∈ p.code, ∀ t, i.target? = some t →
      ∃ a, t = .addr a ∧ (a = haltAddress ∨ a ≤ p.codeSize)) ∧
      ((∀ i ∈ p.code, ∀ a, i.target? = some (.addr a) → a = haltAddress ∨ a < p.codeSize) ↔
        p.codeSize = haltAddress ∨ ¬ m.EndsOpen c p) := by
  obtain ⟨fs, d, L⟩ := layout_of_compile hc
  refine ⟨fun i hi t ht => ?_, fun h => ?_, fun h i hi a ht => ?_⟩
  · obtain ⟨a, rfl, ha⟩ := L.target_cases hi ht
    exact ⟨a, rfl, ha.imp_right fun ⟨_, _, l, _, hl⟩ => L.codeSize ▸ L.bound_le hl⟩
  · by_contra hn
    obtain ⟨hne, ho⟩ := not_or.mp hn
    obtain ⟨j, hj, ht⟩ := L.exists_target_end (not_not.mp ho)
    obtain he | hlt := h j hj _ ht
    · exact hne he
    · exact lt_irrefl _ hlt
  · obtain ⟨b, hb, ha⟩ := L.target_cases hi ht
    cases hb
    obtain ha | ⟨j, hj, l, hl, hbound⟩ := ha
    · exact .inl ha
    obtain hsize | ho := h
    · have hle := L.bound_le hbound
      rw [← L.codeSize, hsize] at hle
      rw [hsize]
      exact hle.eq_or_lt
    · exact .inr (L.below ho le_rfl j hj l a hl hbound)

def enclosed : Module :=
  ⟨[Build.assign (.name .unknown "b") (.name .unknown "SystemBoolean"),
    Build.loop (.name .unknown "b") [.pass .unknown],
    Build.define "_start" [] none [Build.loop (.name .unknown "b") [.pass .unknown]]]⟩

theorem enclosed_code : (enclosed.compile scalars).toOption.map Program.code =
    some [.push "b", .jumpIfFalse (.addr 15), .jump (.addr 0), .eventHead "_start",
      .pushAddr haltAddress, .push "ret_addr", .copy, .push "b", .jumpIfFalse (.addr 41),
      .jump (.addr 26), .jump (.addr haltAddress)] := by
  decide +kernel

theorem enclosed_not_endsOpen :
    ∃ p, enclosed.compile scalars = .ok p ∧ ¬ enclosed.EndsOpen scalars p := by
  have hcode := enclosed_code
  cases hc : enclosed.compile scalars with
  | error e => rw [hc] at hcode; cases hcode
  | ok p =>
      rw [hc, Except.toOption, Option.map_some, Option.some.injEq] at hcode
      have hsize : p.codeSize = 46 := by rw [Program.codeSize, hcode]; rfl
      refine ⟨p, rfl, ((compile_jumps_inside_iff hc).2.mp ?_).resolve_left (by rw [hsize]; decide)⟩
      rw [hcode, hsize]
      simp [Instr.target?]

def trailing : Module :=
  ⟨[Build.assign (.name .unknown "b") (.name .unknown "SystemBoolean"),
    Build.loop (.name .unknown "b") [.pass .unknown]]⟩

theorem trailing_code : (trailing.compile scalars).toOption.map Program.code =
    some [.push "b", .jumpIfFalse (.addr 15), .jump (.addr 0)] := by
  decide +kernel

/-- The loop is left by a jump behind the last instruction, where there is none. -/
theorem trailing_jumps_outside : ∃ p, trailing.compile scalars = .ok p ∧
    ∃ i ∈ p.code, ∃ a, i.target? = some (.addr a) ∧ a ≠ haltAddress ∧ p.codeSize ≤ a ∧
      Code.fetch p.code a = none := by
  have hcode := trailing_code
  cases hc : trailing.compile scalars with
  | error e => rw [hc] at hcode; cases hcode
  | ok p =>
      rw [hc, Except.toOption, Option.map_some, Option.some.injEq] at hcode
      refine ⟨p, rfl, .jumpIfFalse (.addr 15), by simp [hcode], 15, rfl, by decide, ?_, ?_⟩
      · rw [Program.codeSize, hcode]
        decide
      · rw [hcode]
        rfl

end Module
end StackScript
