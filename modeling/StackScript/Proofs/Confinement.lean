import StackScript.Proofs.Fallthrough
import StackScript.Proofs.LabelClosure
import StackScript.Proofs.Purpose.Stmt

namespace StackScript

open Draft Code

theorem Linked.concat {labels : List Label} {xs zs : List Instr} {i : Instr}
    (h : Linked labels (xs ++ [i]) zs) (hi : i.resolve labels = .ok i) : ∃ us, zs = us ++ [i] := by
  obtain ⟨us, vs, rfl, _, hv⟩ := h.split
  obtain ⟨j, ws, hj, hw, rfl⟩ := List.forall₂_cons_left_iff.mp hv
  cases hw
  rw [hi] at hj
  cases hj
  exact ⟨us, rfl⟩

/-- Control goes from the instruction at one address to another address. Where a jump through a
variable goes is not in the code, and a jump to the halt address goes nowhere. -/
inductive Program.Goes (p : Program) : Nat → Nat → Prop
  | next {a i} (h : Code.fetch p.code a = some i) (ht : i.target? = none)
      (hi : ∀ x, i ≠ .jumpIndirect x) :
      Goes p a (a + i.width)
  | pass {a t} (h : Code.fetch p.code a = some (.jumpIfFalse t)) : Goes p a (a + 5)
  | jump {a i b} (h : Code.fetch p.code a = some i) (ht : i.target? = some (.addr b))
      (hb : b ≠ haltAddress) :
      Goes p a b

/-- Control goes from `x` to `y` and does not get out of a block. -/
def Program.StaysIn (p : Program) (a : Nat) (block : List Instr) (x y : Nat) : Prop :=
  Inside a block x ∧ Relation.ReflTransGen (fun u v => p.Goes u v ∧ Inside a block v) x y

theorem Program.StaysIn.inside {p : Program} {a x y : Nat} {block : List Instr}
    (h : p.StaysIn a block x y) :
    Inside a block y := by
  obtain ⟨hx, h⟩ := h
  cases h with
  | refl => exact hx
  | tail _ hy => exact hy.2

theorem Program.StaysIn.tail {p : Program} {a x y z : Nat} {block : List Instr}
    (h : p.StaysIn a block x y) (hy : p.Goes y z) (hz : Inside a block z) : p.StaysIn a block x z :=
  ⟨h.1, h.2.tail ⟨hy, hz⟩⟩

namespace Code

def Begins (a : Nat) (block : List Instr) (x : Nat) : Prop :=
  ∃ pre i post, block = pre ++ i :: post ∧ x = a + size pre

def EndsShut (block : List Instr) : Prop := ∃ i, block.getLast? = some i ∧ i.isExit

variable {block pre post : List Instr} {i : Instr} {a x : Nat}

theorem EndsShut.size_pos (h : EndsShut block) : 0 < size block := by
  obtain ⟨j, hj, he⟩ := h
  obtain ⟨front, rfl⟩ := List.getLast?_eq_some_iff.mp hj
  have hw := Instr.width_pos_of_isExit he
  rw [size_append, size_cons]
  omega

theorem EndsShut.right (h : EndsShut (pre ++ i :: post)) : EndsShut (i :: post) := by
  obtain ⟨j, hj, he⟩ := h
  rw [List.getLast?_append_of_ne_nil _ (List.cons_ne_nil i post)] at hj
  exact ⟨j, hj, he⟩

/-- Behind an instruction that is no way out there is another one. -/
theorem EndsShut.next (h : EndsShut (pre ++ i :: post)) (hi : i.isExit = false) :
    0 < size post := by
  cases post with
  | nil =>
      obtain ⟨j, hj, he⟩ := h.right
      obtain rfl : i = j := by simpa using hj
      rw [hi] at he
      cases he
  | cons j post =>
      rw [List.append_cons] at h
      exact h.right.size_pos

theorem EndsShut.inside_begin (h : EndsShut block) (a : Nat) : Inside a block a :=
  ⟨le_rfl, Nat.lt_add_of_pos_right h.size_pos⟩

theorem Begins.inside (hx : Begins a block x) (h : EndsShut block) : Inside a block x := by
  obtain ⟨pre, i, post, rfl, rfl⟩ := hx
  have hpos := h.right.size_pos
  rw [Inside, size_append]
  omega

end Code

theorem Linked.begins {labels : List Label} {xs ys : List Instr} {a b : Nat}
    (h : Linked labels xs ys) (hb : Begins a xs b) : Begins a ys b := by
  obtain ⟨pre, i, post, rfl, rfl⟩ := hb
  obtain ⟨us, vs, rfl, hu, hv⟩ := h.split
  obtain ⟨j, ws, -, -, rfl⟩ := List.forall₂_cons_left_iff.mp hv
  exact ⟨us, j, ws, rfl, by rw [hu.size_eq]⟩

namespace Module

variable {c : Catalog} {m : Module} {p : Program} {fs : Functions} {d : Nat → Draft} {k j : Nat}
  {st st' : Stmt} {a b x y : Nat} {region region' : List Instr}

/-- The instructions of the `k`-th statement stand in the program, one after the other, from address
`a` on. -/
def Occupies (c : Catalog) (m : Module) (p : Program) (k : Nat) (st : Stmt) (a : Nat)
    (region : List Instr) : Prop :=
  ∃ s t block, m.Spans c k st s t ∧ Emits s t block ∧ Linked p.labels block region ∧
    Code.At p.code a region ∧ a = s.emitter.pc

/-- The jump in front of address `x` is that of a call of `g` in the `k`-th statement. -/
def CallsBefore (c : Catalog) (m : Module) (fs : Functions) (k : Nat) (st : Stmt) (g : Function)
    (x : Nat) : Prop :=
  ∃ const args entry r u v, m.Calls c fs k st g const args entry r u v ∧ x = v.emitter.pc

/-- The code of a definition. It begins where the host or a caller comes in, and ends with a way
out. Its jumps stay inside, or end the event, or call a function. Control that gets out of it is in
the function that it came into last, and came there at the begin. -/
structure Confined (c : Catalog) (m : Module) (p : Program) (fs : Functions) (F : Draft)
    (k : Nat) (st : Stmt) (a : Nat) (region : List Instr) : Prop where
  shape : (∃ q name params returns body inner, st = .define q name params returns body ∧
    Names.isEvent name ∧
      region = .eventHead name :: (inner ++ [.jump (.addr haltAddress)])) ∨
    ∃ f l inner, st.function? c = some f ∧ region = inner ++ [.jumpIndirect Names.returnAddress] ∧
      F.emitter.named.lookup (Names.functionId f.name f.types) = some l ∧
      Label.address p.labels l = .ok a
  targets : ∀ {pre i post t}, region = pre ++ i :: post → i.target? = some t → ∃ b, t = .addr b ∧
    (Begins a region b ∨ b = haltAddress ∧ st.place c = .event ∨
      ∃ g j st' region', m.CallsBefore c fs k st g (a + size (pre ++ [i])) ∧
      st'.function? c = some g ∧
        m.Occupies c p j st' b region')
  runs : ∀ {x y}, Inside a region x → Relation.ReflTransGen p.Goes x y →
    p.StaysIn a region x y ∨ ∃ g j st' b region', st'.function? c = some g ∧
    m.Occupies c p j st' b region' ∧
      Relation.ReflTransGen p.Goes x b ∧ p.StaysIn b region' b y

namespace Layout

variable (L : Layout c m p fs d)
include L

theorem occupies (hk : m.body[k]? = some st) :
    ∃ region, m.Occupies c p k st (d k).emitter.pc region := by
  have hlt := (List.getElem?_eq_some_iff.mp hk).1
  obtain ⟨code, e, _⟩ := L.placed hk
  obtain ⟨region, hl, hat⟩ := e.has (L.size_code hlt.le) (L.moves hlt le_rfl) L.linked
  exact ⟨region, _, _, code, L.spans_iff.mpr ⟨hk, rfl, rfl⟩, e, hl, hat, rfl⟩

theorem of_occupies (h : m.Occupies c p k st a region) :
    m.body[k]? = some st ∧ a = (d k).emitter.pc ∧ a + size region = (d (k + 1)).emitter.pc ∧
      Code.At p.code a region ∧ ∃ code, Emits (d k) (d (k + 1)) code ∧
      Linked p.labels code region := by
  obtain ⟨s, t, code, hs, e, hl, hat, rfl⟩ := h
  obtain ⟨hk, rfl, rfl⟩ := L.spans_iff.mp hs
  exact ⟨hk, rfl, by rw [hl.size_eq, e.pc], hat, code, e, hl⟩

theorem occupies_callee {g : Function} {l : Nat} (hg : g ∈ fs)
    (hl : (d m.body.length).emitter.named.lookup (Names.functionId g.name g.types) = some l) :
    ∃ j st' b region', st'.function? c = some g ∧ m.Occupies c p j st' b region' ∧
    (d m.body.length).Bound l b := by
  obtain ⟨j, st', hj, hf⟩ := L.exists_define hg
  obtain ⟨region', hregion⟩ := L.occupies hj
  exact ⟨j, st', _, region', hf, hregion, (L.entry_bound hj hf hl).1⟩

theorem statement_unique (h : m.Occupies c p k st a region) (h' : m.Occupies c p j st' b region')
    (hx : Inside a region x) (hx' : Inside b region' x) : k = j := by
  obtain ⟨hk, rfl, hend, -⟩ := L.of_occupies h
  obtain ⟨hj, rfl, hend', -⟩ := L.of_occupies h'
  rw [Inside, hend] at hx
  rw [Inside, hend'] at hx'
  rw [← L.statementAt_eq (List.getElem?_eq_some_iff.mp hk).1 hx.1 hx.2,
    L.statementAt_eq (List.getElem?_eq_some_iff.mp hj).1 hx'.1 hx'.2]

theorem region_cases (h : m.Occupies c p k st a region) (hp : st.place c ≠ .module) :
    (∃ q name params returns body inner, st = .define q name params returns body ∧
      Names.isEvent name ∧
        region = .eventHead name :: (inner ++ [.jump (.addr haltAddress)])) ∨
      ∃ f l inner, st.function? c = some f ∧ region = inner ++ [.jumpIndirect Names.returnAddress] ∧
        (d m.body.length).emitter.named.lookup (Names.functionId f.name f.types) = some l ∧
        Label.address p.labels l = .ok a := by
  obtain ⟨hk, rfl, -, -, code, e, hl⟩ := L.of_occupies h
  obtain ⟨code', e', hpl⟩ := L.placed hk
  obtain rfl : code = code' := List.append_cancel_left (e.code.symm.trans e'.code)
  cases hpl with
  | @event _ q name params returns body ys he _ hy =>
      rw [eventHead, List.cons_append] at hl
      obtain ⟨i, rest, hi, hrest, rfl⟩ := List.forall₂_cons_left_iff.mp hl
      cases hi
      rw [← List.append_assoc] at hrest
      obtain ⟨inner, rfl⟩ := Linked.concat hrest rfl
      exact .inl ⟨q, name, params, returns, body, inner, rfl, he, rfl⟩
  | @function _ q name params returns body f l ys hf hn hb _ hy =>
      rw [Block.ret, Block.exit, ← List.append_assoc, ← List.append_assoc] at hl
      obtain ⟨inner, rfl⟩ := Linked.concat hl rfl
      exact .inr ⟨f, l, inner, hf, rfl, hn, by rw [L.labels]; exact hb⟩
  | loose hs =>
      cases st with
      | define q name params returns body => exact absurd rfl (hs q name params returns body)
      | _ => exact absurd rfl hp

theorem endsShut (h : m.Occupies c p k st a region) (hp : st.place c ≠ .module) :
    EndsShut region := by
  obtain ⟨_, _, _, _, _, inner, -, -, rfl⟩ | ⟨_, _, inner, -, rfl, -⟩ := L.region_cases h hp
  · exact ⟨_, by rw [← List.cons_append, List.getLast?_concat], rfl⟩
  · exact ⟨_, List.getLast?_concat, rfl⟩

theorem begins_of_branch {pre post : List Instr} {i : Instr} {l : Nat} (hk : m.body[k]? = some st)
    (e : Emits (d k) (d (k + 1)) (pre ++ i :: post)) (hp : st.place c ≠ .module)
    (hx : i.isExit = false) (hi : i.branch? ((d m.body.length).callee fs) = some l)
    (hb : (d m.body.length).Bound l b) :
    Begins (d k).emitter.pc (pre ++ i :: post) b := by
  obtain ⟨code, e', hr, -⟩ := L.region hk
  obtain rfl : code = pre ++ i :: post := List.append_cancel_left (e'.code.symm.trans e.code)
  obtain ⟨he, -⟩ | ⟨rest, tail, rfl, -, hland, -, ht⟩ := hr.split
  · rw [hx] at he
    cases he
  obtain ⟨b', hb', pre', post', hsplit, rfl, -⟩ := hland l hi
  obtain rfl := hb.unique hb'
  have htail : tail ≠ [] := by
    rintro rfl
    obtain ⟨hm, -⟩ | ⟨-, ht⟩ := ht
    · exact hp hm
    · cases ht
  -- the landing is at most where the tail begins, and the tail is not empty
  have hcode : pre ++ i :: (rest ++ tail) = pre' ++ (post' ++ tail) := by
    rw [← List.append_assoc pre', ← hsplit]
    simp
  obtain ⟨j, more, hj⟩ :=
    List.exists_cons_of_ne_nil (List.append_ne_nil_of_right_ne_nil post' htail)
  exact ⟨pre', j, more, by rw [hcode, hj], rfl⟩

theorem targets {pre post : List Instr} {i : Instr} {t : Target}
    (h : m.Occupies c p k st a (pre ++ i :: post)) (hp : st.place c ≠ .module)
    (ht : i.target? = some t) :
    ∃ b, t = .addr b ∧ (Begins a (pre ++ i :: post) b ∨ b = haltAddress ∧ st.place c = .event ∨
      ∃ g j st' region', m.CallsBefore c fs k st g (a + size (pre ++ [i])) ∧
      st'.function? c = some g ∧
        m.Occupies c p j st' b region') := by
  obtain ⟨hk, rfl, -, -, code, e, hl⟩ := L.of_occupies h
  obtain ⟨front, rest, rfl, hfront, hrest⟩ := Linked.split_right hl
  obtain ⟨i₀, back, hi, hback, rfl⟩ := List.forall₂_cons_right_iff.mp hrest
  obtain ⟨b, rfl, hb⟩ := Instr.target_of_resolve hi ht
  rw [L.labels] at hb
  refine ⟨b, rfl, ?_⟩
  obtain ⟨code, e', hpieces⟩ := L.adds hk
  obtain rfl : code = front ++ i₀ :: back := List.append_cancel_left (e'.code.symm.trans e.code)
  obtain ⟨before, xs, rfl, -, hpurpose⟩ :=
    hpieces.split (by rintro x rfl; obtain hb | ⟨_, hb, -⟩ := hb <;> cases hb)
  cases hpurpose with
  | @enter g x args entry r u v hcall hu =>
      obtain hb | ⟨l, hb, hbound⟩ := hb <;> cases hb
      obtain ⟨hg, hentry, hv, hpc⟩ := L.of_calls hcall
      obtain ⟨j, st', b', region', hf, hregion, hb'⟩ := L.occupies_callee hg hentry
      obtain rfl := Bound.unique hbound hb'
      refine .inr (.inr ⟨g, j, st', region', ⟨x, args, entry, r, u, v, hcall, ?_⟩, hf, hregion⟩)
      have hsize : size (pre ++ [i]) = _ := Linked.size_eq (List.rel_append hfront (.cons hi .nil))
      rw [← hpc, hv, hu, hsize]
      simp only [size_append, L.size_code (List.getElem?_eq_some_iff.mp hk).1.le, Nat.add_assoc]
  | test hx hpriv =>
      obtain hb | ⟨l, hb, hbound⟩ := hb
      · cases hb
      · cases hb
        exact .inl (hl.begins (L.begins_of_branch hk e hp rfl rfl hbound))
  | goto hpriv =>
      obtain hb | ⟨l, hb, hbound⟩ := hb
      · cases hb
      · cases hb
        refine .inl (hl.begins (L.begins_of_branch hk e hp rfl ?_ hbound))
        simp [Instr.branch?, hpriv.callee]
  | halt hplace =>
      obtain hb | ⟨l, hb, -⟩ := hb
      · cases hb
        exact .inr (.inl ⟨rfl, hplace⟩)
      · cases hb
  | _ => obtain hb | ⟨_, hb, -⟩ := hb <;> cases hb

/-- One step inside a definition leads to an address of the same definition, or to the begin
of a function. -/
theorem step (h : m.Occupies c p k st a region) (hp : st.place c ≠ .module) (hx : Inside a region x)
    (hxy : p.Goes x y) :
    Inside a region y ∨ ∃ g j st' region', st'.function? c = some g ∧
    m.Occupies c p j st' y region' := by
  have hshut := L.endsShut h hp
  have hat := (L.of_occupies h).2.2.2.1
  cases hxy with
  | @next i hi ht hj =>
      obtain ⟨pre, post, rfl, rfl, -⟩ := hat.split_of_fetch hi hx.1 hx.2
      have hpos := hshut.next (Instr.isExit_of_noTarget ht hj)
      simp only [Inside, size_append, size_cons]
      exact .inl (by omega)
  | pass hi =>
      obtain ⟨pre, post, rfl, rfl, -⟩ := hat.split_of_fetch hi hx.1 hx.2
      have hpos := hshut.next rfl
      simp only [Inside, size_append, size_cons, Instr.width]
      exact .inl (by omega)
  | @jump i _ hi ht hb =>
      obtain ⟨pre, post, rfl, rfl, -⟩ := hat.split_of_fetch hi hx.1 hx.2
      obtain ⟨b, hb', hin | ⟨rfl, -⟩ | ⟨g, j, st', region', -, hf, hj⟩⟩ := L.targets h hp ht
      · cases hb'
        exact .inl (hin.inside hshut)
      · cases hb'
        exact absurd rfl hb
      · cases hb'
        exact .inr ⟨g, j, st', region', hf, hj⟩

/-- What holds of a step holds of a run: the definition that control is in was entered at
its begin. -/
theorem runs (h : m.Occupies c p k st a region) (hp : st.place c ≠ .module) (hx : Inside a region x)
    (hxy : Relation.ReflTransGen p.Goes x y) :
    p.StaysIn a region x y ∨ ∃ g j st' b region', st'.function? c = some g ∧
    m.Occupies c p j st' b region' ∧
      Relation.ReflTransGen p.Goes x b ∧ p.StaysIn b region' b y := by
  induction hxy with
  | refl => exact .inl ⟨hx, .refl⟩
  | @tail y z hxy hyz ih =>
      -- a function that is reached by the last step is entered at its begin
      have henter {g : Function} {j : Nat} {st' : Stmt} {region' : List Instr}
          (hf : st'.function? c = some g)
            (hj : m.Occupies c p j st' z region') :
            ∃ g j st' b region', st'.function? c = some g ∧ m.Occupies c p j st' b region' ∧
              Relation.ReflTransGen p.Goes x b ∧ p.StaysIn b region' b z := by
        have hin := (L.endsShut hj (Stmt.place_ne_module hf)).inside_begin z
        exact ⟨g, j, st', z, region', hf, hj, hxy.tail hyz, hin, .refl⟩
      obtain hs | ⟨g, j, st', b, region', hf, hj, hb, hs⟩ := ih
      · obtain hz | ⟨g, j, st', region', hf, hj⟩ := L.step h hp hs.inside hyz
        · exact .inl (hs.tail hyz hz)
        · exact .inr (henter hf hj)
      · obtain hz | ⟨g', j', st'', region'', hf', hj'⟩ :=
          L.step hj (Stmt.place_ne_module hf) hs.inside hyz
        · exact .inr ⟨g, j, st', b, region', hf, hj, hb, hs.tail hyz hz⟩
        · exact .inr (henter hf' hj')

theorem confined (h : m.Occupies c p k st a region) (hp : st.place c ≠ .module) :
    Confined c m p fs (d m.body.length) k st a region where
  shape := L.region_cases h hp
  targets := by
    rintro pre i post t rfl ht
    exact L.targets h hp ht
  runs := L.runs h hp

end Layout

/-- Each statement has code of its own in the program. The code of a definition begins with the
event, or at the label of the function, and control does not get from it into the middle of
another one. -/
theorem compile_confined (hc : m.compile c = .ok p) :
    ∃ fs F, m.lowered c m.body.length = some (fs, F) ∧
      (∀ k st, m.body[k]? = some st → ∃ a region, m.Occupies c p k st a region) ∧
      (∀ {k st a region j st' b region' x}, m.Occupies c p k st a region →
        m.Occupies c p j st' b region' → Inside a region x → Inside b region' x → k = j) ∧
      ∀ {k q name params returns body a region},
        m.Occupies c p k (.define q name params returns body) a region →
        m.Confined c p fs F k (.define q name params returns body) a region := by
  obtain ⟨fs, d, L⟩ := layout_of_compile hc
  refine ⟨fs, d m.body.length, L.lowered _ le_rfl, fun k st hk => ⟨_, L.occupies hk⟩,
    L.statement_unique, ?_⟩
  intro k q name params returns body a region h
  exact L.confined h (Stmt.place_define q name params returns body)

/-- A function with a loop in which it calls itself. -/
theorem recursive_confined : ∃ p fs F st a region, recursive.compile scalars = .ok p ∧
    recursive.body[1]? = some st ∧ recursive.Occupies scalars p 1 st a region ∧
    recursive.Confined scalars p fs F 1 st a region := by
  have hok : (recursive.compile scalars).isOk := by decide +kernel
  cases hc : recursive.compile scalars with
  | error e => rw [hc] at hok; cases hok
  | ok p =>
      obtain ⟨fs, F, -, hregion, -, hconf⟩ := compile_confined hc
      obtain ⟨a, region, h⟩ := hregion 1 _ rfl
      exact ⟨p, fs, F, _, a, region, rfl, rfl, h, hconf h⟩

end Module
end StackScript
