import StackScript.Proofs.StackDepth

namespace StackScript

mutual

/-- Every way through a statement meets a return. A loop may be left before its first turn. -/
def Stmt.returns : Stmt → Bool
  | .ret _ _ => true
  | .branch _ _ body orelse => Stmt.returnsIn body && Stmt.returnsIn orelse
  | _ => false

def Stmt.returnsIn : List Stmt → Bool
  | [] => false
  | st :: ss => st.returns || Stmt.returnsIn ss

end

theorem Stmt.returns_of_isPlain {st : Stmt} (h : st.isPlain) : st.returns = false := by
  cases st with
  | branch | loop | ret => cases h
  | _ => rfl

namespace Draft

variable (fs : Functions) (F : Draft)

abbrev Leads : Nat → Nat → Prop := Relation.ReflTransGen (F.Flow fs)

/-- The same with the heights of the stack: control comes from an address at a height to another
address at another height. -/
def Walks : Nat × Nat → Nat × Nat → Prop :=
  Relation.ReflTransGen fun x y => F.Flow fs x.1 y.1 ∧
    ∃ i, Code.fetch F.code x.1 = some i ∧ y.2 = x.2 - i.takes (F.callee fs) + i.gives (F.callee fs)

variable {fs F}

theorem Flow.fetch {a b : Nat} (h : F.Flow fs a b) : ∃ i, Code.fetch F.code a = some i := by
  cases h with
  | next h | pass h | branch h | call h => exact ⟨_, h⟩

theorem Flow.on {a : Nat} {i : Instr} (h : Code.fetch F.code a = some i) (he : i.isExit = false)
    (hb : i.branch? (F.callee fs) = none) : F.Flow fs a (a + i.width) := by
  cases i with
  | jumpIfFalse t => exact .pass h
  | jumpIndirect => cases he
  | jump t =>
      cases t with
      | addr => cases he
      | label l =>
          cases hc : F.callee fs l with
          | none => simp [Instr.branch?, hc] at hb
          | some g => exact .call h hc
  | _ => exact .next h rfl (by simp)

theorem Leads.walks {a b : Nat} (h : F.Leads fs a b) (n : Nat) : ∃ k, F.Walks fs (a, n) (b, k) := by
  induction h with
  | refl => exact ⟨n, .refl⟩
  | tail _ hstep ih =>
      obtain ⟨k, ih⟩ := ih
      obtain ⟨i, hi⟩ := hstep.fetch
      exact ⟨_, ih.tail ⟨hstep, i, hi, rfl⟩⟩

theorem Walks.leads {x y : Nat × Nat} (h : F.Walks fs x y) : F.Leads fs x.1 y.1 := by
  induction h with
  | refl => exact .refl
  | tail _ hstep ih => exact ih.tail hstep.1

end Draft

open Code Draft

variable {fs : Functions} {F : Draft} {a : Nat}

theorem Code.isExit_eq_false_of_climbs {base S T : List Source} {code : List Instr}
    (hc : Climbs fs F (fun _ => False) base S code T) : ∀ i ∈ code, i.isExit = false := by
  intro i hi
  obtain ⟨pre, post, rfl⟩ := List.append_of_mem hi
  by_contra he
  exact hc.checked.fits.exit (by simpa using he)

theorem Code.At.leads {code : List Instr} (hat : Code.At F.code a code)
    (he : ∀ i ∈ code, i.isExit = false) (hb : ∀ i ∈ code, i.branch? (F.callee fs) = none) :
    F.Leads fs a (a + size code) := by
  induction code generalizing a with
  | nil => exact .refl
  | cons i is ih =>
      rw [List.forall_mem_cons] at he hb
      have hrest := ih hat.tail he.2 hb.2
      rw [size_cons, ← Nat.add_assoc]
      by_cases hw : i.width = 0
      · rw [hw] at hrest ⊢
        exact hrest
      · exact .head (.on (hat.fetch hw) he.1 hb.1) hrest

theorem Straight.leads {code : List Instr} (hs : Straight fs F code) (hF : F.Entered fs)
    (hat : Code.At F.code a code) : F.Leads fs a (a + size code) := by
  have hc : Climbs fs F (fun _ => False) [] [] code [] := hs.climbs hF []
  exact hat.leads (isExit_eq_false_of_climbs hc) (hs.branch?_eq_none hF)

theorem leads_test {xs : List Instr} {x : String} {l : Nat} (hs : Straight fs F xs)
    (hF : F.Entered fs) (hat : Code.At F.code a (xs ++ Block.branchUnless x l)) :
    F.Leads fs a (a + size (xs ++ Block.branchUnless x l)) ∧ ∀ b, F.Bound l b → F.Leads fs a b := by
  have hx :=
    (hs.leads hF hat.left).tail (.next (hat.right.fetch (by simp [Instr.width])) rfl (by simp))
  have hj := hat.right.tail.fetch (by simp [Instr.width])
  refine ⟨?_, fun b hb => hx.tail (.branch hj rfl hb)⟩
  rw [add_size_append]
  exact hx.tail (.pass hj)

theorem leads_goto {l b : Nat} (hat : Code.At F.code a (Block.goto l)) (hp : F.Private l)
    (hb : F.Bound l b) : F.Leads fs a b := by
  refine .single (.branch (hat.fetch (by simp [Instr.width])) ?_ hb)
  simp [Instr.branch?, hp.callee]

/-- If some way through statements meets no return, control gets to their end. -/
theorem Laid.leads {place : Place} {ss : List Stmt} {code : List Instr}
    (hl : Laid fs F place a ss code) (hF : F.Entered fs) (hat : Code.At F.code a code)
    (hr : Stmt.returnsIn ss = false) :
    F.Leads fs a (a + size code) := by
  induction hl with
  | nil => exact .refl
  | plain hp hx _ ih =>
      rw [Stmt.returnsIn, Bool.or_eq_false_iff] at hr
      rw [add_size_append]
      exact (hx.leads hF hat.left).trans (ih hat.right hr.2)
  | leave => cases hr
  | branch hx h₁ h₂ hb hy hc hl₁ hz hd hl₂ _ ihy ihz ihr =>
      rw [Stmt.returnsIn, Stmt.returns, Bool.or_eq_false_iff, Bool.and_eq_false_iff] at hr
      obtain ⟨hon, htaken⟩ := leads_test hx hF hat.left
      have hyz := hat.right
      rw [← hb] at hon hyz
      have hzw := hyz.right
      rw [← hc] at hzw
      have hw := hzw.right
      rw [← hd] at hw
      rw [add_size_append, ← hb, add_size_append, ← hc, add_size_append, ← hd]
      refine .trans ?_ (ihr hw hr.2)
      obtain hbody | horelse := hr.1
      · exact hon.trans ((ihy hyz.left.left hbody).trans (leads_goto hyz.left.right h₂ hl₂))
      · exact (htaken _ hl₁).trans (hd ▸ ihz hzw.left horelse)
  | loop hx h₁ h₂ hl₁ hb hy hd hl₂ _ ihy ihr =>
      rw [Stmt.returnsIn, Bool.or_eq_false_iff] at hr
      obtain ⟨-, htaken⟩ := leads_test hx hF hat.left
      have hw := hat.right.right
      rw [← hb, ← hd] at hw
      rw [add_size_append, ← hb, add_size_append, ← hd]
      exact (htaken _ hl₂).trans (ihr hw hr.2)

def Inside (a : Nat) (code : List Instr) (x : Nat) : Prop := a ≤ x ∧ x < a + size code

theorem inside_or_empty (a : Nat) (code : List Instr) : Inside a code a ∨ a = a + size code := by
  rw [Inside]
  omega

theorem Draft.Flow.inside {code : List Instr} {x y : Nat} (h : F.Flow fs x y)
    (hat : Code.At F.code a code) (hx : Inside a code x) :
    (Inside a code y ∨ y = a + size code) ∨
      ∃ i ∈ code, ∃ l, i.branch? (F.callee fs) = some l ∧ F.Bound l y := by
  obtain ⟨i, hi⟩ := h.fetch
  obtain ⟨pre, post, rfl, rfl, -⟩ := hat.split_of_fetch hi hx.1 hx.2
  obtain ⟨-, rfl | hb⟩ := h.cases hi
  · simp only [Inside, size_append, size_cons]
    exact .inl (by omega)
  · exact .inr ⟨i, by simp, hb⟩

/-- Control that begins in a block is inside of it, or it has left it at one of its ends. -/
theorem leads_split {code : List Instr} (ends : Nat → Prop) (ha : Inside a code a ∨ ends a)
    (hends : ∀ x y, Inside a code x → F.Flow fs x y → Inside a code y ∨ ends y) {x : Nat}
    (h : F.Leads fs a x) : Inside a code x ∨ ∃ e, ends e ∧ F.Leads fs e x := by
  induction h with
  | refl => exact ha.imp_right fun ha => ⟨a, ha, .refl⟩
  | @tail x y _ hxy ih =>
      obtain hx | ⟨e, he, hx⟩ := ih
      · exact (hends x y hx hxy).imp_right fun hy => ⟨y, hy, .refl⟩
      · exact .inr ⟨e, he, hx.tail hxy⟩

theorem leads_behind {code : List Instr} {base S : List Source} (hat : Code.At F.code a code)
    (hl : ∀ i ∈ code, Lands fs F base S a code i) {x : Nat} (hx : F.Leads fs a x) :
    Inside a code x ∨ F.Leads fs (a + size code) x := by
  have hends : ∀ x y, Inside a code x → F.Flow fs x y → Inside a code y ∨ y = a + size code := by
    intro x y hx hxy
    obtain hy | ⟨i, hi, l, hil, hy⟩ := hxy.inside hat hx
    · exact hy
    · obtain ⟨b, hb, pre, post, hcode, rfl, -⟩ := hl i hi l hil
      obtain rfl := hy.unique hb
      rw [Inside, hcode, size_append]
      omega
  obtain hx | ⟨_, rfl, hx⟩ := leads_split (· = a + size code) (inside_or_empty a code) hends hx
  · exact .inl hx
  · exact .inr hx

theorem Leaves.exists_exit {place : Place} {code : List Instr} (hl : Leaves fs F place code) :
    ∃ front i, code = front ++ [i] ∧ i.isExit := by
  cases hl with
  | halt => exact ⟨[], _, rfl, rfl⟩
  | void => exact ⟨Block.popInto Names.returnAddress, _, rfl, rfl⟩
  | @value _ xs x =>
      refine ⟨Block.popInto Names.returnAddress ++ (xs ++ [.push x]),
        .jumpIndirect Names.returnAddress, ?_, rfl⟩
      simp [Block.exit, Block.pushAll]

theorem Leaves.leads_inside {place : Place} {code : List Instr} (hl : Leaves fs F place code)
    (hF : F.Entered fs) (hat : Code.At F.code a code) {x : Nat} (hx : F.Leads fs a x) :
    Inside a code x := by
  obtain ⟨front, i, rfl, hi⟩ := hl.exists_exit
  have hlands : ∀ j ∈ front, Lands fs F [] [] a front j :=
    fun j hj => hl.lands hF j (List.mem_append_left _ hj)
  have hw := Instr.width_pos_of_isExit hi
  rw [Inside, add_size_append, size_cons]
  obtain hx | hx := leads_behind hat.left hlands hx
  · exact ⟨hx.1, by have := hx.2; omega⟩
  · obtain rfl | ⟨y, hy, -⟩ := Relation.ReflTransGen.cases_head hx
    · exact ⟨Nat.le_add_right .., by omega⟩
    · rw [(hy.cases (hat.right.fetch hw.ne')).1] at hi
      cases hi

theorem leads_behind_test {xs : List Instr} {x : String} {l b : Nat} (hs : Straight fs F xs)
    (hF : F.Entered fs) (hat : Code.At F.code a (xs ++ Block.branchUnless x l))
    (hl : F.Bound l b) {y : Nat} (hy : F.Leads fs a y) :
    Inside a (xs ++ Block.branchUnless x l) y ∨
      F.Leads fs (a + size (xs ++ Block.branchUnless x l)) y ∨ F.Leads fs b y := by
  have hbranch : ∀ i ∈ xs ++ Block.branchUnless x l, ∀ k, i.branch? (F.callee fs) =
      some k → k = l := by
    rw [List.forall_mem_append, Block.branchUnless, List.forall_mem_cons, List.forall_mem_singleton]
    refine ⟨fun i hi k hk => ?_, by simp [Instr.branch?], fun k hk => (Option.some.inj hk).symm⟩
    rw [hs.branch?_eq_none hF i hi] at hk
    cases hk
  generalize xs ++ Block.branchUnless x l = code at *
  have hends : ∀ x y, Inside a code x → F.Flow fs x y → Inside a code y ∨
      y = a + size code ∨ y = b := by
    intro x y hx hxy
    obtain hy | ⟨i, hi, k, hik, hy⟩ := hxy.inside hat hx
    · exact hy.imp_right .inl
    · obtain rfl := hbranch i hi k hik
      exact .inr (.inr (hy.unique hl))
  obtain hy | ⟨_, rfl | rfl, hy⟩ :=
    leads_split (fun y => y = a + size code ∨ y = b)
      ((inside_or_empty a code).imp_right .inl) hends hy
  · exact .inl hy
  · exact .inr (.inl hy)
  · exact .inr (.inr hy)

theorem Laid.leads_lt_append {place : Place} {st : Stmt} {xs ys : List Instr} {b x : Nat}
    (hl : Laid fs F place a [st] xs) (hF : F.Entered fs) (hat : Code.At F.code a (xs ++ ys))
    (hb : a + size xs = b) (hrest : Code.At F.code b ys → F.Leads fs b x → x < b + size ys)
    (hx : F.Leads fs a x) : x < a + size (xs ++ ys) := by
  subst hb
  rw [add_size_append]
  obtain hx | hx := leads_behind hat.left (hl.lands hF) hx
  · exact Nat.lt_add_right _ hx.2
  · exact hrest hat.right hx

theorem Laid.leads_lt {place : Place} {ss : List Stmt} {code : List Instr}
    (hl : Laid fs F place a ss code) (hF : F.Entered fs) (hat : Code.At F.code a code)
    (hr : Stmt.returnsIn ss) {y : Nat} (hy : F.Leads fs a y) : y < a + size code := by
  induction hl with
  | nil => cases hr
  | @plain a st ss xs ys hp hs _ ih =>
      rw [Stmt.returnsIn, Stmt.returns_of_isPlain hp, Bool.false_or] at hr
      have hst : Laid fs F place a [st] xs := by simpa using Laid.plain hp hs (.nil _)
      exact hst.leads_lt_append hF hat rfl (fun h => ih h hr) hy
  | leave hs _ ih =>
      rw [add_size_append]
      exact Nat.lt_add_right _ (hs.leads_inside hF hat.left hy).2
  | @branch a p test body orelse ss xs ys zs ws x l₁ l₂ b c d hs h₁ h₂ hb hy' hc hl₁ hz hd hl₂ _
      ihy ihz ihr =>
      rw [Stmt.returnsIn, Stmt.returns, Bool.or_eq_true, Bool.and_eq_true] at hr
      obtain ⟨hbody, horelse⟩ | hr := hr
      · have hyz := hat.right
        rw [← hb] at hyz
        have hzw := hyz.right
        rw [← hc] at hzw
        rw [add_size_append, ← hb, add_size_append, ← hc, add_size_append, ← hd]
        rw [add_size_append] at hc
        obtain hy | hy | hy := leads_behind_test hs hF hat.left hl₁ hy
        · have := hb ▸ hy.2
          omega
        · have := ihy hyz.left.left hbody (hb ▸ hy)
          omega
        · have := ihz hzw.left horelse hy
          omega
      · have hst : Laid fs F place a [.branch p test body orelse]
            ((xs ++ Block.branchUnless x l₁) ++ ((ys ++ Block.goto l₂) ++ zs)) := by
          simpa using Laid.branch hs h₁ h₂ hb hy' hc hl₁ hz hd hl₂ (.nil _)
        have hcode : (xs ++ Block.branchUnless x l₁) ++ ((ys ++ Block.goto l₂) ++ (zs ++ ws)) =
            ((xs ++ Block.branchUnless x l₁) ++ ((ys ++ Block.goto l₂) ++ zs)) ++ ws := by simp
        rw [hcode] at hat ⊢
        refine hst.leads_lt_append hF hat ?_ (fun h => ihr h hr) hy
        rw [add_size_append, ← hb, add_size_append, ← hc, ← hd]
  | @loop a p test body ss xs ys ws x l₁ l₂ b d hs h₁ h₂ hl₁ hb hy' hd hl₂ _ ihy ihr =>
      have hst : Laid fs F place a [.loop p test body []]
          ((xs ++ Block.branchUnless x l₂) ++ (ys ++ Block.goto l₁)) := by
        simpa using Laid.loop hs h₁ h₂ hl₁ hb hy' hd hl₂ (.nil _)
      rw [← List.append_assoc] at hat ⊢
      refine hst.leads_lt_append hF hat ?_ (fun h => ihr h hr) hy
      rw [add_size_append, ← hb, ← hd]

/-- Control gets from the begin of a function to the end of its body exactly if some way through the
body meets no return; else it stays before this end. -/
theorem leads_body {place : Place} {params : List String} {body : List Stmt} {ys zs : List Instr}
    (hy : Laid fs F place (a + size (Block.popIntoAll params)) body ys) (hF : F.Entered fs)
    (hat : Code.At F.code a (Block.popIntoAll params ++ (ys ++ zs))) :
    (Stmt.returnsIn body = false → F.Leads fs a (a + size (Block.popIntoAll params) + size ys)) ∧
      (Stmt.returnsIn body → ∀ x, F.Leads fs a x →
        x < a + size (Block.popIntoAll params) + size ys) := by
  have hn : ∀ i ∈ Block.popIntoAll params, i.branch? (F.callee fs) = none :=
    fun i hi => Instr.branch?_of_noTarget _ (Block.target_popIntoAll i hi)
  have hx : ∀ i ∈ Block.popIntoAll params, i.isExit = false := by
    intro i hi
    obtain ⟨x, -, hi⟩ := List.mem_flatMap.mp hi
    simp only [Block.popInto, List.mem_cons, List.not_mem_nil, or_false] at hi
    obtain rfl | rfl := hi <;> rfl
  constructor
  · intro hr
    exact (hat.left.leads hx hn).trans (hy.leads hF hat.right.left hr)
  · intro hr x hx
    have hl : ∀ i ∈ Block.popIntoAll params, Lands fs F [] [] a (Block.popIntoAll params) i :=
      fun i hi => .of_none (hn i hi)
    obtain hx | hx := leads_behind hat.left hl hx
    · exact Nat.lt_add_right _ hx.2
    · exact hy.leads_lt hF hat.right.left hr hx

/-- Control does not leave a definition, and it finds the stack at the height that belongs to the
address. -/
theorem Region.walks {place : Place} {start : List Source} {code : List Instr} {y : Nat × Nat}
    (hr : Region fs F place start a code) (hp : place ≠ .module) (hat : Code.At F.code a code)
    (hy : F.Walks fs (a, start.length) y) :
    Inside a code y.1 ∧ y.2 = (stackAt (F.callee fs) start code (y.1 - a)).length := by
  induction hy with
  | refl =>
      rw [Nat.sub_self, stackAt_zero]
      exact ⟨⟨Nat.le_refl a, Nat.lt_add_of_pos_right (hr.size_pos hp)⟩, rfl⟩
  | tail _ hstep ih =>
      obtain ⟨hflow, i, hi, hheight⟩ := hstep
      obtain ⟨hx, hh⟩ := ih
      obtain ⟨_, rfl, ⟨ha, hb, hy⟩ | ⟨-, hm, -⟩⟩ := hr.flow hat hx.1 hx.2 hi hflow
      · exact ⟨⟨ha, hb⟩, by rw [hheight, hh, hy, Instr.length_after _ _ (hflow.cases hi).1]⟩
      · exact absurd hm hp

namespace Module

variable {c : Catalog} {m : Module} {p : Program} {d : Nat → Draft}

namespace Layout

variable (L : Layout c m p fs d)
include L

theorem exists_body {k : Nat} {q : Pos} {name : String} {params : List Param}
    {returns : Option String} {body : List Stmt} {f : Function}
    (hk : m.body[k]? = some (.define q name params returns body))
    (hf : Stmt.function? c (.define q name params returns body) = some f) :
    ∃ b, (d (k + 1)).emitter.pc = b + 11 ∧
      Code.At (d m.body.length).code b (Block.ret Names.returnAddress none) ∧
      (Stmt.returnsIn body = false → (d m.body.length).Leads fs (d k).emitter.pc b) ∧
      (Stmt.returnsIn body → ∀ x, (d m.body.length).Leads fs (d k).emitter.pc x → x < b) := by
  obtain ⟨code, e, hp⟩ := L.placed hk
  have hat := L.at_code (List.getElem?_eq_some_iff.mp hk).1 e
  cases hp with
  | event he => rw [Stmt.function?, if_pos he] at hf; cases hf
  | function _ _ _ hb hy =>
      subst hb
      obtain ⟨hend, hlt⟩ := leads_body hy L.entered hat
      refine ⟨_, ?_, hat.right.right, hend, hlt⟩
      rw [e.pc, add_size_append, add_size_append]
      rfl
  | loose hs => exact absurd rfl (hs q name params returns body)

/-- Where a function with a result comes back, the result is on the stack, except at the end of its
body. -/
theorem exit_height {k a h : Nat} {st : Stmt} {f : Function} {x : String}
    (hk : m.body[k]? = some st) (hf : st.function? c = some f) (hv : f.ret.isVoid = false)
    (hw : (d m.body.length).Walks fs ((d k).emitter.pc, f.types.length + 1) (a, h))
    (hx : Code.fetch (d m.body.length).code a = some (.jumpIndirect x)) :
    h = if a + 5 = (d (k + 1)).emitter.pc then 0 else 1 := by
  obtain ⟨code, e, hr, hat⟩ := L.region hk
  have hplace : st.place c = .function f.ret := by
    cases st with
    | define => rw [Stmt.place, hf]; rfl
    | _ => cases hf
  have harrival : st.arrival c = f.arrival := by
    rw [Stmt.arrival, hf]
    rfl
  rw [hplace, harrival] at hr
  rw [← f.length_arrival] at hw
  obtain ⟨hin, hh⟩ := hr.walks (by simp) hat hw
  dsimp only at hin hh
  rw [hh, e.pc, hr.exit_length hat hin.1 hin.2 hx rfl, Place.out, hv]
  rfl

end Layout

/-- Which functions come back with their result, for a compiled module: exactly those in which every
way through the body meets a return. In any other function with a result, control gets to the return
without a value that stands behind the body. -/
theorem compile_returns_iff (hc : m.compile c = .ok p) :
    ∃ fs F, m.lowered c m.body.length = some (fs, F) ∧ p.labels = F.emitter.labels.toList ∧
      Linked p.labels F.code p.code ∧
      ∀ k q name params returns body s t f, m.Spans c k (.define q name params returns body) s t →
        Stmt.function? c (.define q name params returns body) = some f → f.ret.isVoid = false →
        ∃ b, t.emitter.pc = b + 11 ∧ Code.At F.code b (Block.ret Names.returnAddress none) ∧
          (F.Leads fs s.emitter.pc b ↔ Stmt.returnsIn body = false) ∧
          ((∀ a h x, F.Walks fs (s.emitter.pc, f.types.length + 1) (a, h) →
            Code.fetch F.code a = some (.jumpIndirect x) → h = 1) ↔ Stmt.returnsIn body) := by
  obtain ⟨fs, d, L⟩ := layout_of_compile hc
  refine ⟨fs, d m.body.length, L.lowered _ le_rfl, L.labels, L.linked, ?_⟩
  intro k q name params returns body s t f hs hf hv
  obtain ⟨hk, rfl, rfl⟩ := L.spans_iff.mp hs
  obtain ⟨b, hend, hat, hleads, hlt⟩ := L.exists_body hk hf
  refine ⟨b, hend, hat, ⟨fun hb => ?_, hleads⟩, fun hone => ?_, fun hr a h x hw hx => ?_⟩
  · by_contra hr
    exact absurd (hlt (by simpa using hr) b hb) (lt_irrefl b)
  · by_contra hr
    -- control runs on to the jump behind the body, where nothing is on the stack
    have hback := (hleads (by simpa using hr)).tail (.next (hat.fetch (by decide)) rfl (by simp))
    have hback := hback.tail (.next (hat.tail.fetch (by decide)) rfl (by simp))
    obtain ⟨h, hw⟩ := Leads.walks hback (f.types.length + 1)
    have hx := hat.tail.tail.fetch (by decide)
    have hzero := L.exit_height hk hf hv hw hx
    rw [hone _ h _ hw hx, if_pos (by rw [hend]; rfl)] at hzero
    cases hzero
  · rw [L.exit_height hk hf hv hw hx, if_neg]
    have := hlt hr a hw.leads
    omega

def forked : Stmt :=
  Build.define "f" [("b", "SystemBoolean"), ("n", "SystemInt32")] (some "SystemInt32")
    [Build.branch (.name .unknown "b") [Build.ret (some (.name .unknown "n"))]
      [Build.loop (.name .unknown "b") [.pass .unknown], Build.ret (some (.int .unknown 0))]]

theorem forked_returns : ∃ p fs F b, (⟨[forked]⟩ : Module).compile scalars = .ok p ∧
    (⟨[forked]⟩ : Module).lowered scalars 1 = some (fs, F) ∧ F.emitter.pc = b + 11 ∧
    ¬ F.Leads fs 0 b ∧
    ∀ a h x, F.Walks fs (0, 3) (a, h) → Code.fetch F.code a = some (.jumpIndirect x) → h = 1 := by
  have hok : ((⟨[forked]⟩ : Module).compile scalars).isOk := by decide +kernel
  have hpc : ((⟨[forked]⟩ : Module).lowered scalars 0).map (fun x => x.2.emitter.pc) = some 0 := by
    decide +kernel
  have hfun : (forked.function? scalars).map (fun f => (f.types.length, f.ret.isVoid)) =
      some (2, false) := by
    decide +kernel
  cases hc : (⟨[forked]⟩ : Module).compile scalars with
  | error e => rw [hc] at hok; cases hok
  | ok p =>
      obtain ⟨fs, F, hF, -, -, hall⟩ := compile_returns_iff hc
      obtain ⟨s, hs, -⟩ := lowered_of_le hF (Nat.zero_le _)
      rw [hs, Option.map_some, Option.some.injEq] at hpc
      obtain ⟨f, hf, hlen⟩ := Option.map_eq_some_iff.mp hfun
      rw [Prod.mk.injEq] at hlen
      obtain ⟨b, hb, -, hleads, hone⟩ := hall 0 _ _ _ _ _ s F f ⟨rfl, fs, hs, hF⟩ hf hlen.2
      rw [hpc] at hleads hone
      rw [hlen.1] at hone
      exact ⟨p, fs, F, b, rfl, hF, hb, fun h => Bool.noConfusion (hleads.mp h), hone.mpr rfl⟩

def hollow : Stmt := Build.define "f" [] (some "SystemInt32") [.pass .unknown]

/-- Control runs through it to the return without a value and comes back with nothing on
the stack. -/
theorem hollow_falls_off : ((⟨[hollow]⟩ : Module).compile scalars).isOk ∧
    ∃ (fs : Functions) (F s : Draft) (f : Function),
      (⟨[hollow]⟩ : Module).lowered scalars 1 = some (fs, F) ∧
      (⟨[hollow]⟩ : Module).Spans scalars 0 hollow s F ∧ hollow.function? scalars = some f ∧
      f.ret.isVoid = false ∧ F.emitter.pc = s.emitter.pc + 11 ∧
      F.Leads fs s.emitter.pc s.emitter.pc ∧ F.Walks fs (s.emitter.pc, f.types.length + 1) (6, 0) ∧
      Code.fetch F.code 6 = some (.jumpIndirect Names.returnAddress) := by
  have hok : ((⟨[hollow]⟩ : Module).compile scalars).isOk := by decide +kernel
  have hpc : [0, 1].map (fun k => ((⟨[hollow]⟩ : Module).lowered scalars k).map fun x =>
      x.2.emitter.pc) =
        [some 0, some 11] := by
    decide +kernel
  have hcode : ((⟨[hollow]⟩ : Module).lowered scalars 1).map (fun x => x.2.code) =
      some (Block.ret Names.returnAddress none) := by
    decide +kernel
  have hfun : (hollow.function? scalars).map (fun f => (f.types.length, f.ret.isVoid)) =
      some (0, false) := by
    decide +kernel
  obtain ⟨⟨fs, F⟩, hF, hcode⟩ := Option.map_eq_some_iff.mp hcode
  dsimp only at hcode
  obtain ⟨s, hs, -⟩ := lowered_of_le hF (Nat.zero_le 1)
  simp only [List.map_cons, hs, hF, Option.map_some, List.cons.injEq, Option.some.injEq] at hpc
  obtain ⟨f, hf, hlen⟩ := Option.map_eq_some_iff.mp hfun
  rw [Prod.mk.injEq] at hlen
  refine ⟨hok, fs, F, s, f, hF, ⟨rfl, fs, hs, hF⟩, hf, hlen.2, ?_, .refl, ?_, ?_⟩
  · rw [hpc.1, hpc.2.1]
  · rw [hpc.1, hlen.1]
    have h₁ : Code.fetch F.code 0 = some (.push Names.returnAddress) := by rw [hcode]; rfl
    have h₂ : Code.fetch F.code 5 = some .copy := by rw [hcode]; rfl
    have hpush : F.Walks fs (0, 1) (5, 2) := .single ⟨.next h₁ rfl (by simp), _, h₁, rfl⟩
    exact hpush.tail ⟨.next h₂ rfl (by simp), _, h₂, rfl⟩
  · rw [hcode]
    rfl

end Module
end StackScript
