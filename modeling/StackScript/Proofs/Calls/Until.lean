import Mathlib.Data.List.Infix
import StackScript.Proofs.CallConvention

namespace StackScript

theorem Store.assign_map_of_mem {D : Type} {σ τ : Store D} {xs : List String} {y : String}
    (hy : y ∈ xs) :
    τ.assign xs (xs.map σ) y = σ y := by
  induction xs generalizing τ with
  | nil => cases hy
  | cons x xs ih =>
      rw [List.map_cons, assign]
      by_cases h : y ∈ xs
      · exact ih h
      · obtain rfl := (List.mem_cons.mp hy).resolve_right h
        rw [assign_of_not_mem h, Function.update_self]

namespace Machine

variable {D H : Type} (E : Host D H) (code : List Instr)

/-- For `n` steps the machine stays inside, unless it has got to a goal before. -/
def Until (inside goal : State D H → Prop) : Nat → State D H → Prop
  | 0, s => goal s ∨ inside s
  | n + 1, s => goal s ∨ inside s ∧ ∀ t, step E code s = some t → Until inside goal n t

/-- The machine gets to a state, and not before to the same address with the same stack. -/
def Arrives (s t : State D H) : Prop :=
  ∃ n, Runs E code n s t ∧ ∀ k < n, ∀ u, Runs E code k s u → ¬ (u.pc = t.pc ∧ u.stack = t.stack)

def firstAt (a height : Nat) : Nat → State D H → Option (State D H)
  | 0, s => if s.pc = a ∧ s.stack.length = height then some s else none
  | n + 1, s =>
    if s.pc = a ∧ s.stack.length = height then none else (step E code s).bind (firstAt a height n)

variable {E code} {I J G K : State D H → Prop} {n : Nat} {s t : State D H}

theorem runs_of_firstAt {a height : Nat} (h : firstAt E code a height n s = some t) :
    t.pc = a ∧ t.stack.length = height ∧ Runs E code n s t ∧
      ∀ k < n, ∀ u, Runs E code k s u → ¬ (u.pc = a ∧ u.stack.length = height) := by
  induction n generalizing s with
  | zero =>
      rw [firstAt, Option.ite_none_right_eq_some] at h
      obtain ⟨⟨ha, hl⟩, hs⟩ := h
      cases hs
      exact ⟨ha, hl, .refl _, fun k hk => (Nat.not_lt_zero k hk).elim⟩
  | succ n ih =>
      rw [firstAt, Option.ite_none_left_eq_some] at h
      obtain ⟨hs, h⟩ := h
      obtain ⟨s', hstep, h⟩ := Option.bind_eq_some_iff.mp h
      obtain ⟨ha, hl, hr, hfirst⟩ := ih h
      refine ⟨ha, hl, .step hstep hr, fun k hk u hu => ?_⟩
      cases hu with
      | refl => exact hs
      | step hstep' hu =>
          obtain rfl := Option.some.inj (hstep.symm.trans hstep')
          exact hfirst _ (Nat.lt_of_succ_lt_succ hk) u hu

theorem arrives_of_firstAt {a height : Nat} (h : firstAt E code a height n s = some t) :
    Arrives E code s t := by
  obtain ⟨rfl, rfl, hr, hfirst⟩ := runs_of_firstAt h
  exact ⟨n, hr, fun k hk u hu ⟨hpc, hst⟩ => hfirst k hk u hu ⟨hpc, by rw [hst]⟩⟩

namespace Until

theorem here (h : G s) : Until E code I G n s := by
  cases n with
  | zero => exact .inl h
  | succ n => exact .inl h

theorem of_step (hs : I s) (h : ∀ t, step E code s = some t → ∀ m < n, Until E code I G m t) :
    Until E code I G n s := by
  cases n with
  | zero => exact .inr hs
  | succ n => exact .inr ⟨hs, fun t ht => h t ht n (Nat.lt_succ_self n)⟩

theorem mono {m : Nat} (h : Until E code I G n s) (hm : m ≤ n) : Until E code I G m s := by
  induction m generalizing n s with
  | zero =>
      cases n with
      | zero => exact h
      | succ n => exact h.imp_right And.left
  | succ m ih =>
      cases n with
      | zero => cases hm
      | succ n =>
          refine h.imp_right fun ⟨hs, ht⟩ => ⟨hs, fun t hst => ?_⟩
          exact ih (ht t hst) (Nat.le_of_succ_le_succ hm)

theorem imp (h : Until E code I G n s) (hI : ∀ s, I s → J s) (hG : ∀ s, G s → K s) :
    Until E code J K n s := by
  induction n generalizing s with
  | zero => exact h.imp (hG s) (hI s)
  | succ n ih => exact h.imp (hG s) fun ⟨hs, ht⟩ => ⟨hI s hs, fun t hst => ih (ht t hst)⟩

theorem bind (h : Until E code I G n s) (k : ∀ m ≤ n, ∀ t, G t → Until E code I K m t) :
    Until E code I K n s := by
  induction n generalizing s with
  | zero =>
      obtain h | h := h
      · exact k 0 le_rfl s h
      · exact .inr h
  | succ n ih =>
      obtain h | ⟨hs, ht⟩ := h
      · exact k (n + 1) le_rfl s h
      · exact .inr ⟨hs, fun t hst => ih (ht t hst) fun m hm => k m (Nat.le_succ_of_le hm)⟩

theorem goal_of_runs (h : Until E code I G n s) (hr : Runs E code n s t) (ht : ¬ I t)
    (hn : ∀ k < n, ∀ u, Runs E code k s u → ¬ G u) : G t := by
  induction hr with
  | refl s => exact h.resolve_right ht
  | @step n s u t hs r ih =>
      obtain h | ⟨_, h⟩ := h
      · exact absurd h (hn 0 (Nat.succ_pos n) s (.refl s))
      · exact ih (h u hs) ht fun k hk v hv => hn (k + 1) (Nat.succ_lt_succ hk) v (.step hs hv)

variable {a : Nat} {σ : Store D} {st : List (Cell D)} {h : H}

theorem instr {i : Instr} {is : List Instr} (hc : Code.At code a (i :: is)) (hw : i.width ≠ 0)
    (hi : I ⟨a, σ, st, h⟩) (he : execute E i ⟨a, σ, st, h⟩ = some t) (hk : Until E code I G n t) :
    Until E code I G n ⟨a, σ, st, h⟩ := by
  refine of_step hi fun u hu m hm => ?_
  rw [step, hc.fetch hw] at hu
  obtain rfl : t = u := Option.some.inj (he.symm.trans hu)
  exact hk.mono hm.le

end Until

/-- All states inside a range of addresses count, as long as a stack is under theirs; and all states
with a higher stack. -/
structure Room (I : State D H → Prop) (a b : Nat) (st : List (Cell D)) : Prop where
  here : ∀ {s : State D H}, a ≤ s.pc → s.pc < b → st <:+ s.stack → I s
  deep : ∀ {s : State D H}, st.length < s.stack.length → I s

namespace Room

variable {a b : Nat} {st : List (Cell D)}

theorem sub (hr : Room I a b st) {a' b' : Nat} (ha : a ≤ a') (hb : b' ≤ b) : Room I a' b' st :=
  ⟨fun h₁ h₂ => hr.here (ha.trans h₁) (h₂.trans_le hb), hr.deep⟩

theorem higher (hr : Room I a b st) (top : List (Cell D)) : Room I a b (top ++ st) := by
  refine ⟨fun h₁ h₂ hs => hr.here h₁ h₂ ((List.suffix_append top st).trans hs),
    fun hs => hr.deep ?_⟩
  rw [List.length_append] at hs
  omega

end Room

def Above (st : List (Cell D)) (s : State D H) : Prop := st.length ≤ s.stack.length

theorem room_above {st st' : List (Cell D)} (hle : st.length ≤ st'.length) (a b : Nat) :
    Room (Above (H := H) st) a b st' :=
  ⟨fun _ _ hs => hle.trans hs.length_le, fun hs => hle.trans hs.le⟩

theorem collected_of_ne {τ : Store D} {result : Block.Outcome} {cs : List (Cell D)} {y : String}
    (hr : result ≠ .into y) : collected τ result cs y = τ y := by
  unfold collected
  split
  case h_1 x c =>
    have hne : y ≠ x := fun he => hr (he ▸ rfl)
    exact Function.update_of_ne hne ..
  case h_2 => rfl

def restored (σ τ : Store D) (result : Block.Outcome) (cs : List (Cell D)) (f : Block.Frame) :
    Store D :=
  (collected τ result cs).assign (f.returnSlot :: f.env).reverse
    ((f.returnSlot :: f.env).map σ).reverse

theorem restored_of_mem {σ τ : Store D} {result : Block.Outcome} {cs : List (Cell D)}
    {f : Block.Frame} {y : String} (hy : y ∈ f.returnSlot :: f.env) :
    restored σ τ result cs f y = σ y := by
  rw [restored, ← List.map_reverse]
  exact Store.assign_map_of_mem (List.mem_reverse.mpr hy)

theorem restored_of_not_mem {σ τ : Store D} {result : Block.Outcome} {cs : List (Cell D)}
    {f : Block.Frame} {y : String} (hy : y ∉ f.returnSlot :: f.env) (hr : result ≠ .into y) :
    restored σ τ result cs f y = τ y := by
  rw [restored, Store.assign_of_not_mem (by rwa [List.mem_reverse]), collected_of_ne hr]

structure Keeps (keep : String → Prop) (a : Nat) (σ : Store D) (st : List (Cell D))
    (s : State D H) : Prop where
  pc : s.pc = a
  stack : s.stack = st
  store : ∀ x, keep x → s.store x = σ x

section

variable {a : Nat} {σ σ' : Store D} {st : List (Cell D)} {h h' : H} {symbol : String}
  {xs : List String}

theorem execute_invoke_names :
    execute E (.invoke symbol xs.length) ⟨a, σ, (xs.map (cell σ)).reverse ++ st, h⟩ =
      (invoke E symbol (xs.map (cell σ)) σ h).map fun (σ, h) => ⟨a + 5, σ, st, h⟩ := by
  rw [← execute_invoke, List.length_map]

/-- A host operation leaves all variables alone but that of its last operand, and that one too if it
has no result. -/
theorem invoke_spares (hi : invoke E symbol (xs.map (cell σ)) σ h = some (σ', h')) (y : String)
    (hy : E.answers symbol → xs.getLast? ≠ some y) : σ' y = σ y := by
  rw [invoke] at hi
  split at hi
  case isFalse => cases hi; rfl
  case isTrue ha =>
    rw [List.getLast?_map] at hi
    cases hx : xs.getLast? with
    | none => rw [hx] at hi; cases hi
    | some x =>
        rw [hx] at hi
        cases hi
        have hne : y ≠ x := fun he => hy ha (by rw [hx, he])
        exact Function.update_of_ne hne _ _

end

namespace Until

variable {a b : Nat} {σ : Store D} {st : List (Cell D)} {h : H}

theorem push {x : String} {is : List Instr} (hc : Code.At code a (.push x :: is))
    (hr : Room I a b st) (hb : a < b) (hk : Until E code I G n ⟨a + 5, σ, cell σ x :: st, h⟩) :
    Until E code I G n ⟨a, σ, st, h⟩ :=
  instr hc (by simp [Instr.width]) (hr.here le_rfl hb List.suffix_rfl) rfl hk

theorem pushAll (xs : List String) {a : Nat} {st : List (Cell D)}
    (hc : Code.At code a (Block.pushAll xs)) (hr : Room I a b st)
    (hb : a + Code.size (Block.pushAll xs) ≤ b)
    (hk : Until E code I G n ⟨a + Code.size (Block.pushAll xs), σ,
      (xs.map (cell σ)).reverse ++ st, h⟩) :
    Until E code I G n ⟨a, σ, st, h⟩ := by
  induction xs generalizing a st with
  | nil => exact hk
  | cons x xs ih =>
      have hx : Code.At code a ([.push x] ++ Block.pushAll xs) := hc
      have hsize : a + Code.size (Block.pushAll (x :: xs)) = a + 5 +
          Code.size (Block.pushAll xs) := by
        simp only [size_pushAll, List.length_cons]
        omega
      rw [hsize] at hb hk
      refine push hx hr (by omega)
        (ih hx.right ((hr.higher [_]).sub (Nat.le_add_right ..) le_rfl) hb ?_)
      simpa using hk

theorem popInto {x : String} {c : Cell D} (hc : Code.At code a (Block.popInto x))
    (hr : Room I a b st) (hb : a + 6 ≤ b)
    (hk : Until E code I G n ⟨a + 6, Function.update σ x c.value, st, h⟩) :
    Until E code I G n ⟨a, σ, c :: st, h⟩ := by
  have hx : Code.At code a ([.push x] ++ [.copy]) := hc
  have hsuffix : st <:+ cell σ x :: c :: st := (List.suffix_cons c st).trans (List.suffix_cons _ _)
  refine push hx (hr.higher [c]) (by omega) (instr hx.right (by decide) ?_ rfl hk)
  exact hr.here (Nat.le_add_right ..) (by dsimp only [Instr.width]; omega) hsuffix

theorem popIntoEach (xs : List String) (cs : List (Cell D)) {a : Nat} {σ : Store D}
    (hl : xs.length = cs.length) (hc : Code.At code a (xs.flatMap Block.popInto))
    (hr : Room I a b st) (hb : a + Code.size (xs.flatMap Block.popInto) ≤ b)
    (hk : Until E code I G n
      ⟨a + Code.size (xs.flatMap Block.popInto), σ.assign xs (cs.map Cell.value), st, h⟩) :
    Until E code I G n ⟨a, σ, cs ++ st, h⟩ := by
  induction xs generalizing a σ cs with
  | nil =>
      rw [List.length_eq_zero_iff.mp hl.symm] at hk ⊢
      exact hk
  | cons x xs ih =>
      cases cs with
      | nil => simp at hl
      | cons c cs =>
          rw [List.flatMap_cons] at hc hb hk
          rw [Code.add_size_append] at hb hk
          have hsize : Code.size (Block.popInto x) = 6 := rfl
          rw [hsize] at hb hk
          refine popInto hc.left (hr.higher cs) (by omega)
            (ih cs (by simpa using hl) hc.right ?_ hb hk)
          exact hr.sub (Nat.le_add_right ..) le_rfl

theorem popIntoAll (xs : List String) (cs : List (Cell D)) {a : Nat} {σ : Store D}
    (hl : xs.length = cs.length) (hc : Code.At code a (Block.popIntoAll xs)) (hr : Room I a b st)
    (hb : a + Code.size (Block.popIntoAll xs) ≤ b)
    (hk : Until E code I G n
      ⟨a + Code.size (Block.popIntoAll xs), σ.assign xs.reverse (cs.map Cell.value), st, h⟩) :
    Until E code I G n ⟨a, σ, cs ++ st, h⟩ :=
  popIntoEach xs.reverse cs (by simpa using hl) hc hr hb hk

section

variable {p : Program} {f : Block.Frame} {a : Nat}

theorem enter {entry : Nat} (hc : p.Has a (Block.enter f))
    (he : Label.address p.labels f.entry = .ok entry) (hr : Room I a b st)
    (hb : a + Code.size (Block.enter f) ≤ b) (hk : ∀ m < n, Until E p.code I G m
      ⟨entry, σ, (f.args.map (cell σ)).reverse ++ cell σ f.returnConst :: (saved σ f ++ st), h⟩) :
    Until E p.code I G n ⟨a, σ, st, h⟩ := by
  rw [Block.enter_eq] at hc hb
  rw [Code.add_size_append, Code.add_size_append] at hb
  have hg : Code.size (Block.goto f.entry) = 5 := rfl
  refine pushAll _ (hc.left.at_of_noTarget Block.target_pushAll) hr (by omega) ?_
  refine pushAll _ (hc.right.left.at_of_noTarget Block.target_pushAll)
    ((hr.higher _).sub (Nat.le_add_right ..) le_rfl) (by omega) (of_step ?_ fun t ht m hm => ?_)
  · exact hr.here (by dsimp only; omega) (by dsimp only; omega)
      ((List.suffix_append ..).trans (List.suffix_append ..))
  · rw [step, (hc.right.right.goto he).fetch (by simp [Instr.width])] at ht
    cases ht
    simpa [saved] using hk m hm

theorem collect {result : Block.Outcome} {cs : List (Cell D)} (hf : Fits result cs)
    (hc : Code.At code a (Block.collect result)) (hr : Room I a b st)
    (hb : a + Code.size (Block.collect result) ≤ b)
    (hk : Until E code I G n ⟨a + Code.size (Block.collect result), collected σ result cs, st, h⟩) :
    Until E code I G n ⟨a, σ, cs ++ st, h⟩ := by
  cases result with
  | none => cases hf; exact hk
  | discard =>
      obtain ⟨c, rfl⟩ := hf
      have hsize : Code.size (Block.collect .discard) = 1 := rfl
      exact instr hc (by decide) (hr.here le_rfl (by dsimp only; omega) (List.suffix_append ..))
        rfl hk
  | into x => obtain ⟨c, rfl⟩ := hf; exact popInto hc hr hb hk

theorem leave {result : Block.Outcome} {cs : List (Cell D)} {σ' : Store D} (hf : Fits result cs)
    (hc : p.Has a (Block.leave result f.env f.returnSlot)) (hr : Room I a b st)
    (hb : a + Code.size (Block.leave result f.env f.returnSlot) ≤ b)
    (hk : Until E p.code I G n
      ⟨a + Code.size (Block.leave result f.env f.returnSlot), restored σ σ' result cs f, st, h⟩) :
    Until E p.code I G n ⟨a, σ', cs ++ (saved σ f ++ st), h⟩ := by
  have hi := hc.at_of_noTarget Block.target_leave
  rw [Block.leave_eq] at hi hb hk
  rw [Code.add_size_append] at hb hk
  refine collect hf hi.left (hr.higher _) (by omega)
    (popIntoAll _ _ (by simp [saved]) hi.right (hr.sub (Nat.le_add_right ..) le_rfl) hb ?_)
  simpa [saved, restored, List.map_reverse, Function.comp_def, cell] using hk

theorem goto {l b' : Nat} (hc : p.Has a (Block.goto l)) (hl : Label.address p.labels l = .ok b')
    (hi : I ⟨a, σ, st, h⟩) (hk : ∀ m < n, Until E p.code I G m ⟨b', σ, st, h⟩) :
    Until E p.code I G n ⟨a, σ, st, h⟩ := by
  refine of_step hi fun t ht m hm => ?_
  rw [step, (hc.goto hl).fetch (by simp [Instr.width])] at ht
  cases ht
  exact hk m hm

theorem branchUnless {l b' : Nat} {x : String} (hc : p.Has a (Block.branchUnless x l))
    (hl : Label.address p.labels l = .ok b') (hr : Room I a b st)
    (hb : a + Code.size (Block.branchUnless x l) ≤ b)
    (hno : ∀ m < n, Until E p.code I G m ⟨b', σ, st, h⟩)
    (hyes : ∀ m < n, Until E p.code I G m ⟨a + Code.size (Block.branchUnless x l), σ, st, h⟩) :
    Until E p.code I G n ⟨a, σ, st, h⟩ := by
  have hsize : Code.size (Block.branchUnless x l) = 10 := rfl
  have hx := hc.branchUnless hl
  have hj : Code.fetch p.code (a + 5) = some (.jumpIfFalse (.addr b')) :=
    hx.tail.fetch (by simp [Instr.width])
  refine push hx hr (by omega) (of_step ?_ fun t ht m hm => ?_)
  · exact hr.here (Nat.le_add_right ..) (by dsimp only; omega) (List.suffix_cons ..)
  · rw [step, hj] at ht
    cases ht
    dsimp only
    split
    · exact hno m hm
    · exact hyes m hm

theorem exit {slot : String} {value : Option String} {r : Nat}
    (hc : Code.At code a (Block.exit slot value)) (hs : σ slot = .addr r) (hr : Room I a b st)
    (hb : a + Code.size (Block.exit slot value) ≤ b)
    (hk : Until E code I G n ⟨r, σ, (value.toList.map (cell σ)).reverse ++ st, h⟩) :
    Until E code I G n ⟨a, σ, st, h⟩ := by
  rw [Block.exit, Code.add_size_append] at hb
  have hsize : Code.size [Instr.jumpIndirect slot] = 5 := rfl
  refine pushAll _ hc.left hr (by omega) (instr hc.right (by simp [Instr.width]) ?_ ?_ hk)
  · exact hr.here (Nat.le_add_right ..) (by dsimp only; omega) (List.suffix_append ..)
  · simp [execute, hs]

end
end Until

/-- A block that may stand anywhere. It gets to its end with the stack as it was, and keeps all
variables but some. -/
def Plain (E : Host D H) (code block : List Instr) (dests : List String) : Prop :=
  ∀ {I n a σ st h}, Code.At code a block → Room I a (a + Code.size block) st →
    Until E code I (Keeps (· ∉ dests) (a + Code.size block) σ st) n ⟨a, σ, st, h⟩

theorem plain_assign (dst src : String) : Plain E code (Block.assign dst src) [dst] := by
  intro I n a σ st h hc hr
  have hx : Code.At code a ([.push src] ++ Block.popInto dst) := hc
  have hsize : Code.size (Block.assign dst src) = 11 := rfl
  rw [hsize] at hr ⊢
  refine .push hx hr (by omega) (.popInto (c := cell σ src) hx.right
    (hr.sub (Nat.le_add_right ..) le_rfl) le_rfl (.here ⟨rfl, rfl, fun y hy => ?_⟩))
  exact Function.update_of_ne (by simpa using hy) _ _

def results (E : Host D H) (symbol : String) (operands : List String) : List String :=
  if E.answers symbol then operands.getLast?.toList else []

theorem plain_invoke (symbol : String) (xs : List String) :
    Plain E code (Block.invoke symbol xs) (results E symbol xs) := by
  intro I n a σ st h hc hr
  rw [Block.invoke] at hc hr ⊢
  rw [Code.add_size_append] at hr ⊢
  have hw : Code.size [Instr.invoke symbol xs.length] = 5 := rfl
  rw [hw] at hr ⊢
  refine .pushAll xs hc.left hr (by omega) (.of_step ?_ fun t ht m _ => ?_)
  · exact hr.here (Nat.le_add_right ..) (by dsimp only; omega) (List.suffix_append ..)
  · rw [step, hc.right.fetch (by simp [Instr.width])] at ht
    obtain ⟨⟨σ', h'⟩, hi, rfl⟩ :=
      Option.map_eq_some_iff.mp ((execute_invoke_names ..).symm.trans ht)
    refine .here ⟨rfl, rfl, fun y hy => invoke_spares hi y fun ha hl => hy ?_⟩
    rw [results, if_pos ha, hl]
    exact List.mem_singleton.mpr rfl

end Machine
end StackScript
