import StackScript.Proofs.Flow
import StackScript.Proofs.Lowering.Units

namespace StackScript

namespace Place

/-- The height at which the statements of a definition stand. -/
def base : Place → Nat
  | .module | .event => 0
  | .function _ => 1

def out : Place → Nat
  | .module | .event => 0
  | .function ret => if ret.isVoid then 0 else 1

def frame : Place → List Source
  | .module | .event => []
  | .function _ => [.back]

theorem length_frame (place : Place) : place.frame.length = place.base := by
  cases place <;> rfl

/-- What is on the stack where a definition is left by a return. -/
def Ends (F : Draft) : Place → List Source → Prop
  | .module, S | .event, S => S = []
  | .function ret, S => if ret.isVoid then S = [] else ∃ x, S = [.pushed x] ∧ F.Typed x ret

theorem Ends.length {F : Draft} {place : Place} {S : List Source} (h : place.Ends F S) :
    S.length = place.out := by
  cases place with
  | module | event =>
      rw [show S = [] from h]
      rfl
  | function ret =>
      rw [Ends] at h
      rw [out]
      split at h
      case isTrue hv => rw [h, if_pos hv, List.length_nil]
      case isFalse hv =>
        obtain ⟨x, rfl, -⟩ := h
        rw [if_neg hv, List.length_singleton]

end Place

/-- What a copy into a variable can take off the stack that was not pushed for it: the value that
the variable has had, an address for the one that holds the address to return to, an argument for
the parameter, or a result for a variable of its type. -/
def Source.Feeds (fs : Functions) (F : Draft) : Source → String → Prop
  | .pushed x, y => x = y
  | .address _, y | .back, y => y = Names.returnAddress
  | .argument f i, y => f ∈ fs ∧ f.params[i]? = some y
  | .result g, y => F.Typed y g.ret

namespace Code

/-- What a copy finds on the stack `S` behind the code `pre`: the variable to write to and what goes
there. -/
inductive Copied (fs : Functions) (F : Draft) (S : List Source) (pre : List Instr) : Prop
  | moved {before src dst rest} (hp : pre = before ++ [.push src, .push dst])
      (hS : S = .pushed dst :: .pushed src :: rest) : Copied fs F S pre
  | stored {src dst rest} (hS : S = .pushed dst :: src :: rest) (hf : src.Feeds fs F dst) :
      Copied fs F S pre

def Served (fs : Functions) (F : Draft) (S : List Source) (block : List Instr) : Prop :=
  ∀ pre post, block = pre ++ .copy :: post → Copied fs F (stack (F.callee fs) S pre) pre

variable {fs : Functions} {F : Draft} {out : List Source → Prop} {base S T U : List Source}

theorem Copied.append {pre : List Instr} (h : Copied fs F S pre) (front : List Instr) :
    Copied fs F S (front ++ pre) := by
  cases h with
  | moved hp hS => exact .moved (by rw [hp, List.append_assoc]) hS
  | stored hS hf => exact .stored hS hf

theorem Served.append {xs ys : List Instr} (hx : Served fs F S xs)
    (hy : Served fs F (stack (F.callee fs) S xs) ys) : Served fs F S (xs ++ ys) := by
  intro pre post h
  obtain ⟨rest, rfl, hr⟩ | ⟨rest, rfl, hr⟩ := List.append_eq_append_iff.mp h
  · rw [stack_append]
    exact (hy rest post hr).append xs
  · cases rest with
    | nil =>
        have hcopied := (hy [] post hr.symm).append pre
        rwa [List.append_nil] at hcopied
    | cons i rest =>
        cases hr
        exact hx pre rest rfl

theorem served_of_no_copy {block : List Instr} (h : ∀ i ∈ block, i ≠ .copy) :
    Served fs F S block := by
  rintro pre post rfl
  exact absurd rfl (h .copy (by simp))

/-- A block whose instructions fit, from one stack to another. -/
structure Climbs (fs : Functions) (F : Draft) (out : List Source → Prop) (base S : List Source)
    (block : List Instr) (T : List Source) : Prop where
  stack : stack (F.callee fs) S block = T
  checked : Checked (F.callee fs) out base S block
  served : Served fs F S block

theorem Climbs.nil (S : List Source) : Climbs fs F out base S [] S :=
  ⟨rfl, trivial, served_of_no_copy (List.forall_mem_nil _)⟩

theorem Climbs.append {xs ys : List Instr} (hx : Climbs fs F out base S xs T)
    (hy : Climbs fs F out base T ys U) : Climbs fs F out base S (xs ++ ys) U := by
  obtain ⟨rfl, cx, sx⟩ := hx
  obtain ⟨rfl, cy, sy⟩ := hy
  exact ⟨stack_append .., (checked_append ..).mpr ⟨cx, cy⟩, sx.append sy⟩

theorem climbs_of_fits {i : Instr} (hi : i.Fits (F.callee fs) out base S) (hc : i ≠ .copy) :
    Climbs fs F out base S [i] (i.after (F.callee fs) S) :=
  ⟨rfl, ⟨hi, trivial⟩, served_of_no_copy (List.forall_mem_singleton.mpr hc)⟩

theorem climbs_single {i : Instr} (ht : i.target? = none) (hi : i.isExit = false) (hc : i ≠ .copy)
    (hr : i.takes (F.callee fs) ≤ S.length) :
    Climbs fs F out base S [i] (i.after (F.callee fs) S) :=
  climbs_of_fits ⟨hr, by simp [hi], by simp [Instr.branch?_of_noTarget _ ht]⟩ hc

theorem climbs_push (S : List Source) (x : String) :
    Climbs fs F out base S [.push x] (.pushed x :: S) :=
  climbs_single rfl rfl nofun (Nat.zero_le _)

theorem climbs_pushAll (S : List Source) (xs : List String) :
    Climbs fs F out base S (Block.pushAll xs) ((xs.map Source.pushed).reverse ++ S) := by
  induction xs generalizing S with
  | nil => exact .nil S
  | cons x xs ih =>
      have hx := (climbs_push S x).append (ih (.pushed x :: S))
      rwa [List.map_cons, List.reverse_cons, List.append_assoc]

theorem climbs_popInto {c : Source} {x : String} (hc : c.Feeds fs F x) (S : List Source) :
    Climbs fs F out base (c :: S) (Block.popInto x) S := by
  refine ⟨rfl, ⟨(climbs_push _ x).checked.1, ⟨Nat.le_add_left 2 S.length, nofun, nofun⟩, trivial⟩,
    ?_⟩
  intro pre post h
  match pre, h with
  | [], h | _ :: _ :: _, h => simp [Block.popInto] at h
  | [_], h =>
      cases h
      exact .stored rfl hc

theorem climbs_back : Climbs fs F out base [.back] (Block.popInto Names.returnAddress) [] :=
  climbs_popInto (c := .back) rfl []

theorem climbs_popInto_each {cs : List Source} {xs : List String}
    (hc : List.Forall₂ (Source.Feeds fs F) cs xs) (S : List Source) :
    Climbs fs F out base (cs ++ S) (xs.flatMap Block.popInto) S := by
  induction hc with
  | nil => exact .nil S
  | cons hc _ ih => exact (climbs_popInto hc _).append ih

theorem climbs_popIntoAll {cs : List Source} {xs : List String}
    (hc : List.Forall₂ (Source.Feeds fs F) cs xs.reverse) (S : List Source) :
    Climbs fs F out base (cs ++ S) (Block.popIntoAll xs) S :=
  climbs_popInto_each hc S

theorem climbs_assign (S : List Source) (dst src : String) :
    Climbs fs F out base S (Block.assign dst src) S := by
  have hp : Climbs fs F out base S [.push src, .push dst] _ :=
    (climbs_push S src).append (climbs_push _ dst)
  refine ⟨rfl, ?_, ?_⟩
  · exact ⟨hp.checked.1, hp.checked.2.1, ⟨Nat.le_add_left 2 S.length, nofun, nofun⟩, trivial⟩
  · intro pre post h
    match pre, h with
    | [], h | [_], h | _ :: _ :: _ :: _, h => simp [Block.assign] at h
    | [_, _], h =>
        cases h
        exact .moved (List.nil_append _).symm rfl

theorem climbs_invoke (S : List Source) (symbol : String) (operands : List String) :
    Climbs fs F out base S (Block.invoke symbol operands) S := by
  have hlen : ((operands.map Source.pushed).reverse).length = operands.length := by simp
  have hi : Climbs fs F out base ((operands.map Source.pushed).reverse ++ S)
      [.invoke symbol operands.length] _ :=
    climbs_single rfl rfl nofun (by rw [List.length_append, hlen]; exact Nat.le_add_right ..)
  have hafter : (Instr.invoke symbol operands.length).after (F.callee fs)
      ((operands.map Source.pushed).reverse ++ S) = S := by
    rw [← hlen]
    exact List.drop_left
  rw [hafter] at hi
  exact (climbs_pushAll S operands).append hi

theorem after_call {l : Nat} {g : Function} {args : List String} (hg : F.callee fs l = some g)
    (hl : args.length = g.types.length) (x : String) (S : List Source) :
    (Instr.jump (.label l)).after (F.callee fs)
    ((args.map Source.pushed).reverse ++ .pushed x :: S) =
      g.leaves ++ S := by
  have htakes : (Instr.jump (.label l)).takes (F.callee fs) =
      ((args.map Source.pushed).reverse ++ [Source.pushed x]).length := by
    simp [Instr.takes, hg, hl]
  have hsplit : (args.map Source.pushed).reverse ++ Source.pushed x :: S =
      ((args.map Source.pushed).reverse ++ [Source.pushed x]) ++ S := by
    simp
  rw [Instr.after_eq _ _ rfl, htakes, hsplit, List.drop_left]
  simp [Instr.puts, hg]

/-- Up to the jump the caller's half of a call climbs by all that it pushes; behind it there are the
result and what the caller has kept. -/
theorem climbs_enter (S : List Source) {f : Block.Frame} {g : Function}
    (hg : F.callee fs f.entry = some g) (hl : f.args.length = g.types.length) :
    Climbs fs F out base S (Block.enter f)
      (g.leaves ++ (((f.returnSlot :: f.env).map Source.pushed).reverse ++ S)) := by
  have hp : ∀ T, Climbs fs F out base T (Block.pushAll (f.returnConst :: f.args))
      ((f.args.map Source.pushed).reverse ++ .pushed f.returnConst :: T) := by
    intro T
    have hp : Climbs fs F out base T (Block.pushAll (f.returnConst :: f.args)) _ :=
      climbs_pushAll ..
    rwa [List.map_cons, List.reverse_cons, List.append_assoc] at hp
  have hj : ∀ T, Climbs fs F out base
      ((f.args.map Source.pushed).reverse ++ .pushed f.returnConst :: T)
      [.jump (.label f.entry)] (g.leaves ++ T) := by
    intro T
    rw [← after_call hg hl f.returnConst T]
    refine climbs_of_fits ⟨?_, nofun, ?_⟩ nofun
    · simp only [Instr.takes, hg, Option.map_some, Option.getD_some, List.length_append,
        List.length_reverse, List.length_map, List.length_cons]
      omega
    · rw [Instr.branch?_of_callee _ hg]
      exact nofun
  rw [Block.enter_eq]
  exact (climbs_pushAll S _).append ((hp _).append (hj _))

theorem climbs_collect (S : List Source) {g : Function} {result : Block.Outcome}
    (hr : result = .none ↔ g.ret.isVoid) (ht : ∀ y, result = .into y → F.Typed y g.ret) :
    Climbs fs F out base (g.leaves ++ S) (Block.collect result) S := by
  cases result with
  | none =>
      rw [Function.leaves, if_pos (hr.mp rfl)]
      exact .nil S
  | discard =>
      rw [Function.leaves, if_neg fun hv => by cases hr.mpr hv]
      exact climbs_single rfl rfl (by simp) (Nat.le_add_left 1 S.length)
  | into x =>
      rw [Function.leaves, if_neg fun hv => by cases hr.mpr hv]
      exact climbs_popInto (c := .result g) (ht x rfl) S

theorem climbs_call (S : List Source) {f : Block.Frame} {g : Function} {result : Block.Outcome}
    (hg : F.callee fs f.entry = some g) (hl : f.args.length = g.types.length)
    (hr : result = .none ↔ g.ret.isVoid) (ht : ∀ y, result = .into y → F.Typed y g.ret) :
    Climbs fs F out base S (Block.enter f ++ Block.leave result f.env f.returnSlot) S := by
  -- the variables that were pushed first come back last
  have hsaved : List.Forall₂ (Source.Feeds fs F) ((f.returnSlot :: f.env).map Source.pushed).reverse
      (f.returnSlot :: f.env).reverse := by
    rw [← List.map_reverse, List.forall₂_map_left_iff]
    exact List.forall₂_same.mpr fun _ _ => rfl
  rw [Block.leave_eq]
  exact (climbs_enter S hg hl).append
    ((climbs_collect _ hr ht).append (climbs_popIntoAll hsaved S))

end Code

namespace Draft

def Entered (fs : Functions) (F : Draft) : Prop :=
  ∀ g ∈ fs, ∀ l, F.emitter.named.lookup (Names.functionId g.name g.types) = some l →
    F.callee fs l = some g

theorem Private.callee {fs : Functions} {F : Draft} {l : Nat} (h : F.Private l) :
    F.callee fs l = none :=
  List.find?_eq_none.mpr fun f _ => by simpa using h _

end Draft

open Code

variable {fs : Functions} {F : Draft} {out : List Source → Prop} {base : List Source}

theorem Straight.climbs {code : List Instr} (hs : Straight fs F code) (hF : F.Entered fs)
    (S : List Source) : Climbs fs F out base S code S := by
  induction hs generalizing S with
  | nil => exact .nil S
  | append _ _ hx hy => exact (hx S).append (hy S)
  | assign dst src => exact climbs_assign S dst src
  | invoke symbol operands => exact climbs_invoke S symbol operands
  | call hg he hl hr ht => exact climbs_call S (hF _ hg _ he) hl hr ht

theorem Straight.stack {code : List Instr} (hs : Straight fs F code) (hF : F.Entered fs)
    (S : List Source) : stack (F.callee fs) S code = S :=
  have hc : Climbs fs F (fun _ => False) [] S code S := hs.climbs hF S
  hc.stack

theorem Straight.branch?_eq_none {code : List Instr} (hs : Straight fs F code) (hF : F.Entered fs) :
    ∀ i ∈ code, i.branch? (F.callee fs) = none := by
  have hn {xs : List Instr} (h : ∀ i ∈ xs, i.target? = none) :
    ∀ i ∈ xs, i.branch? (F.callee fs) = none :=
    fun i hi => Instr.branch?_of_noTarget _ (h i hi)
  induction hs with
  | nil => exact nofun
  | append _ _ hx hy => exact List.forall_mem_append.mpr ⟨hx, hy⟩
  | assign => exact hn Block.target_assign
  | invoke => exact hn Block.target_invoke
  | @call f g result hg he =>
      rw [Block.enter_eq]
      simp only [List.forall_mem_append]
      refine ⟨⟨hn Block.target_pushAll, hn Block.target_pushAll, ?_⟩, hn Block.target_leave⟩
      exact List.forall_mem_singleton.mpr (Instr.branch?_of_callee _ (hF g hg _ he))

/-- A place in a block, from address `a` on, where the stack is `base`. -/
def Landing (callee : Nat → Option Function) (base S : List Source) (a : Nat) (code : List Instr)
    (b : Nat) : Prop :=
  ∃ pre post, code = pre ++ post ∧ b = a + size pre ∧ stack callee S pre = base

variable {S T : List Source}

theorem Landing.left {callee : Nat → Option Function} {a b : Nat} {xs ys : List Instr}
    (hl : Landing callee base S a xs b) : Landing callee base S a (xs ++ ys) b := by
  obtain ⟨pre, post, rfl, hb, hh⟩ := hl
  exact ⟨pre, post ++ ys, by simp, hb, hh⟩

theorem Landing.right {callee : Nat → Option Function} {a b : Nat} {xs ys : List Instr}
    (hx : stack callee S xs = T) (hl : Landing callee base T (a + size xs) ys b) :
    Landing callee base S a (xs ++ ys) b := by
  obtain ⟨pre, post, rfl, hb, hh⟩ := hl
  exact ⟨xs ++ pre, post, by simp, by rw [hb, size_append, Nat.add_assoc],
    by rw [stack_append, hx, hh]⟩

theorem Landing.here {callee : Nat → Option Function} (a : Nat) {xs ys : List Instr}
    (hx : stack callee S xs = base) : Landing callee base S a (xs ++ ys) (a + size xs) :=
  ⟨xs, ys, rfl, rfl, hx⟩

def Lands (fs : Functions) (F : Draft) (base S : List Source) (a : Nat) (code : List Instr)
    (i : Instr) : Prop :=
  ∀ l, i.branch? (F.callee fs) = some l → ∃ b, F.Bound l b ∧ Landing (F.callee fs) base S a code b

theorem Lands.left {a : Nat} {xs ys : List Instr} {i : Instr} (hl : Lands fs F base S a xs i) :
    Lands fs F base S a (xs ++ ys) i := by
  intro l hi
  obtain ⟨b, hb, hl⟩ := hl l hi
  exact ⟨b, hb, hl.left⟩

theorem Lands.right {a : Nat} {xs ys : List Instr} {i : Instr}
    (hx : stack (F.callee fs) S xs = T) (hl : Lands fs F base T (a + size xs) ys i) :
    Lands fs F base S a (xs ++ ys) i := by
  intro l hi
  obtain ⟨b, hb, hl⟩ := hl l hi
  exact ⟨b, hb, hl.right hx⟩

theorem Lands.of_none {a : Nat} {code : List Instr} {i : Instr}
    (hi : i.branch? (F.callee fs) = none) : Lands fs F base S a code i := by
  intro l hl
  rw [hi] at hl
  cases hl

theorem Straight.lands {code : List Instr} (hs : Straight fs F code) (hF : F.Entered fs) {a : Nat}
    {whole : List Instr} : ∀ i ∈ code, Lands fs F base S a whole i :=
  fun i hi => .of_none (hs.branch?_eq_none hF i hi)

theorem lands_of_noTarget {code whole : List Instr} (hc : ∀ i ∈ code, i.target? = none) {a : Nat} :
    ∀ i ∈ code, Lands fs F base S a whole i :=
  fun i hi => .of_none (Instr.branch?_of_noTarget _ (hc i hi))

theorem lands_branchUnless {a b l : Nat} {x : String} {whole : List Instr} (hb : F.Bound l b)
    (hl : Landing (F.callee fs) base S a whole b) :
    ∀ i ∈ Block.branchUnless x l, Lands fs F base S a whole i := by
  rw [Block.branchUnless, List.forall_mem_cons, List.forall_mem_singleton]
  refine ⟨.of_none rfl, ?_⟩
  rintro _ ⟨⟩
  exact ⟨b, hb, hl⟩

theorem lands_goto {a b l : Nat} {whole : List Instr} (hp : F.Private l) (hb : F.Bound l b)
    (hl : Landing (F.callee fs) base S a whole b) :
    ∀ i ∈ Block.goto l, Lands fs F base S a whole i := by
  rw [Block.goto, List.forall_mem_singleton]
  intro k hk
  simp only [Instr.branch?, hp.callee, Option.isNone_none, if_true, Option.some.injEq] at hk
  exact hk ▸ ⟨b, hb, hl⟩

theorem climbs_exit {i : Instr} (hi : i.isExit) (hr : i.takes (F.callee fs) ≤ S.length)
    (hS : out S) :
    Climbs fs F out base S [i] (i.after (F.callee fs) S) := by
  refine climbs_of_fits ⟨hr, fun _ => hS, ?_⟩ ?_
  · cases i with
    | jump t =>
        cases t with
        | addr => exact nofun
        | label => cases hi
    | jumpIndirect => exact nofun
    | _ => cases hi
  · rintro rfl
    cases hi

theorem Leaves.climbs {place : Place} {code : List Instr} (hl : Leaves fs F place code)
    (hF : F.Entered fs) :
    Climbs fs F (place.Ends F) place.frame place.frame code place.frame := by
  cases hl with
  | halt => exact climbs_exit rfl (Nat.le_refl 0) rfl
  | @void ret hv =>
      have hout : (Place.function ret).Ends F [] := by
        rw [Place.Ends, if_pos hv]
      exact climbs_back.append (climbs_exit rfl (Nat.zero_le _) hout)
  | @value ret xs x hv hx ht =>
      have hout : (Place.function ret).Ends F [.pushed x] := by
        rw [Place.Ends, if_neg (by simp [hv])]
        exact ⟨x, rfl, ht⟩
      exact climbs_back.append ((hx.climbs hF []).append
        ((climbs_push [] x).append (climbs_exit rfl (Nat.zero_le _) hout)))

theorem Leaves.lands {place : Place} {code : List Instr} (hl : Leaves fs F place code)
    (hF : F.Entered fs) {a : Nat} {whole : List Instr} :
    ∀ i ∈ code, Lands fs F base S a whole i := by
  cases hl with
  | halt => exact List.forall_mem_singleton.mpr (.of_none rfl)
  | void => exact lands_of_noTarget Block.target_ret
  | value _ hx _ =>
      rw [List.forall_mem_append, List.forall_mem_append]
      exact ⟨lands_of_noTarget Block.target_popInto, hx.lands hF,
        lands_of_noTarget Block.target_exit⟩

theorem climbs_branchUnless (x : String) (l : Nat) :
    Climbs fs F out base base (Block.branchUnless x l) base :=
  (climbs_push base x).append
    (climbs_of_fits ⟨Nat.le_add_left 1 base.length, nofun, fun _ _ => rfl⟩ nofun)

theorem climbs_goto {l : Nat} (hl : F.callee fs l = none) :
    Climbs fs F out base base (Block.goto l) base := by
  have hafter : (Instr.jump (.label l)).after (F.callee fs) base = base := by
    rw [Instr.after_eq _ _ rfl]
    simp [Instr.puts, Instr.takes, hl]
  have hc : Climbs fs F out base base [.jump (.label l)] _ :=
    climbs_of_fits ⟨by simp [Instr.takes, hl], by simp [Instr.isExit], fun _ _ => hafter⟩ (by simp)
  rwa [hafter] at hc

theorem Laid.climbs {place : Place} {a : Nat} {ss : List Stmt} {code : List Instr}
    (hl : Laid fs F place a ss code) (hF : F.Entered fs) :
    Climbs fs F (place.Ends F) place.frame place.frame code place.frame := by
  induction hl with
  | nil => exact .nil _
  | plain _ hx _ hr => exact (hx.climbs hF _).append hr
  | leave hx _ hr => exact (hx.climbs hF).append hr
  | branch hx h₁ h₂ _ _ _ _ _ _ _ _ hy hz hr =>
      exact ((hx.climbs hF _).append (climbs_branchUnless _ _)).append
        ((hy.append (climbs_goto h₂.callee)).append (hz.append hr))
  | loop hx h₁ h₂ _ _ _ _ _ _ hy hr =>
      exact ((hx.climbs hF _).append (climbs_branchUnless _ _)).append
        ((hy.append (climbs_goto h₁.callee)).append hr)

theorem Laid.lands {place : Place} {a : Nat} {ss : List Stmt} {code : List Instr}
    (hl : Laid fs F place a ss code) (hF : F.Entered fs) :
    ∀ i ∈ code, Lands fs F place.frame place.frame a code i := by
  induction hl with
  | nil => exact nofun
  | plain _ hx hr ih =>
      rw [List.forall_mem_append]
      exact ⟨hx.lands hF, fun i hi => (ih i hi).right (hx.stack hF _)⟩
  | leave hx hr ih =>
      rw [List.forall_mem_append]
      exact ⟨hx.lands hF, fun i hi => (ih i hi).right (hx.climbs hF).stack⟩
  | @branch a p test body orelse ss xs ys zs ws x l₁ l₂ b c d hx h₁ h₂ hb hy hc hl₁ hz hd hl₂ hr
      ihy ihz ihr =>
      subst hb hc hd
      have hA : stack (F.callee fs) place.frame (xs ++ Block.branchUnless x l₁) = place.frame := by
        rw [stack_append, hx.stack hF]
        rfl
      have hB := ((hy.climbs hF).append (climbs_goto h₂.callee)).stack
      have hZ := (hz.climbs hF).stack
      simp only [List.forall_mem_append]
      exact ⟨⟨hx.lands hF, lands_branchUnless hl₁ (.right hA (.here _ hB))⟩,
        ⟨fun i hi => (ihy i hi).left.left.right hA,
          lands_goto h₂ hl₂ (.right hA (.right hB (.here _ hZ)))⟩,
        fun i hi => ((ihz i hi).left.right hB).right hA, fun i hi =>
        (((ihr i hi).right hZ).right hB).right hA⟩
  | @loop a p test body ss xs ys ws x l₁ l₂ b d hx h₁ h₂ hl₁ hb hy hd hl₂ hr ihy ihr =>
      subst hb hd
      have hA : stack (F.callee fs) place.frame (xs ++ Block.branchUnless x l₂) = place.frame := by
        rw [stack_append, hx.stack hF]
        rfl
      have hB := ((hy.climbs hF).append (climbs_goto h₁.callee)).stack
      simp only [List.forall_mem_append]
      exact ⟨⟨hx.lands hF, lands_branchUnless hl₂ (.right hA (.here _ hB))⟩,
        ⟨fun i hi => (ihy i hi).left.left.right hA, lands_goto h₁ hl₁ ⟨[], _, rfl, rfl, rfl⟩⟩,
        fun i hi => ((ihr i hi).right hB).right hA⟩

/-- The code of one statement outside of all definitions. It leaves nothing of what it finds on the
stack; a definition ends with a way out. -/
inductive Region (fs : Functions) (F : Draft) : Place → List Source → Nat → List Instr → Prop
  | loose {a code} (hc : Climbs fs F (Place.module.Ends F) [] [] code [])
      (hl : ∀ i ∈ code, Lands fs F [] [] a code i) : Region fs F .module [] a code
  | closed {place start a code i} (hc : Climbs fs F (place.Ends F) place.frame start code [])
      (hl : ∀ i ∈ code, Lands fs F place.frame start a code i) (hi : i.isExit)
      (hp : place ≠ .module) : Region fs F place start a (code ++ [i])

namespace Function

/-- What a function finds on the stack: its arguments, the last one on top, and the address to come
back to. -/
def arrival (f : Function) : List Source :=
  ((List.range f.types.length).map (Source.argument f)).reverse ++ [.back]

theorem length_arrival (f : Function) : f.arrival.length = f.types.length + 1 := by
  simp [arrival]

theorem climbs_params {f : Function} (hf : f ∈ fs) (hl : f.params.length = f.types.length) :
    Code.Climbs fs F out base f.arrival (Block.popIntoAll f.params) [.back] := by
  refine Code.climbs_popIntoAll (List.forall₂_reverse_iff.mpr ?_) _
  rw [List.forall₂_map_left_iff, List.forall₂_iff_get]
  refine ⟨by simp [hl], fun i hi hp => ?_⟩
  simp [Source.Feeds, hf]

end Function

namespace Stmt

def place (c : Catalog) (st : Stmt) : Place :=
  match st with
  | .define _ _ _ _ _ => ((st.function? c).map fun f => Place.function f.ret).getD .event
  | _ => .module

theorem place_define {c : Catalog} (p : Pos) (name : String) (params : List Param)
    (returns : Option String) (body : List Stmt) :
    place c (.define p name params returns body) ≠ .module := by
  rw [place]
  cases function? c (.define p name params returns body) <;> simp

theorem place_of_function? {c : Catalog} {st : Stmt} {f : Function} (hf : st.function? c = some f) :
    st.place c = .function f.ret := by
  cases st with
  | define => rw [place, hf]; rfl
  | _ => cases hf

theorem place_ne_module {c : Catalog} {st : Stmt} {f : Function} (hf : st.function? c = some f) :
    st.place c ≠ .module := by
  rw [place_of_function? hf]
  simp

/-- The height of the stack where this code begins. A function finds its arguments above the address
to come back to. -/
def entry (c : Catalog) (st : Stmt) : Nat :=
  ((st.function? c).map fun f => f.types.length + 1).getD 0

def arrival (c : Catalog) (st : Stmt) : List Source :=
  ((st.function? c).map Function.arrival).getD []

theorem length_arrival (c : Catalog) (st : Stmt) : (st.arrival c).length = st.entry c := by
  rw [arrival, entry]
  cases st.function? c with
  | none => rfl
  | some f => exact f.length_arrival

end Stmt

theorem climbs_receiveSlots (S : List Source) (c : Catalog) (name : String) (params : List Param) :
    Climbs fs F out base S (Lower.receiveSlots c name params) S := by
  rw [Lower.receiveSlots]
  induction ((c.event? name).getD []).zip params with
  | nil => exact .nil S
  | cons x xs ih => exact (climbs_assign S _ _).append ih

theorem climbs_eventHead (c : Catalog) (name : String) (params : List Param) :
    Climbs fs F out base [] (eventHead c name params) [] := by
  have h₁ : Climbs fs F out base [] [.eventHead name] [] :=
    climbs_single rfl rfl nofun (Nat.le_refl 0)
  have h₂ : Climbs fs F out base [] [.pushAddr haltAddress] [.address haltAddress] :=
    climbs_single rfl rfl nofun (Nat.le_refl 0)
  have h₃ : Climbs fs F out base [.address haltAddress] (Block.popInto Names.returnAddress) [] :=
    climbs_popInto (c := .address haltAddress) rfl []
  exact h₁.append (h₂.append (h₃.append (climbs_receiveSlots [] c name params)))

theorem Placed.region {c : Catalog} {a : Nat} {st : Stmt} {code : List Instr}
    (hp : Placed c fs F a st code) (hF : F.Entered fs) :
    Region fs F (st.place c) (st.arrival c) a code := by
  cases hp with
  | @event b p name params returns body ys he hb hy =>
      have hn : Stmt.function? c (.define p name params returns body) = none := by
        rw [Stmt.function?, if_pos he]
      have hh : Climbs fs F (Place.event.Ends F) [] [] (eventHead c name params) [] :=
        climbs_eventHead ..
      rw [Stmt.place, Stmt.arrival, hn, ← List.append_assoc]
      subst hb
      refine .closed (hh.append (hy.climbs hF)) (List.forall_mem_append.mpr ⟨?_, ?_⟩) rfl (by simp)
      · exact lands_of_noTarget target_eventHead
      · exact fun i hi => (hy.lands hF i hi).right hh.stack
  | @function b p name params returns body f l ys hf hn hl hb hy hm =>
      have hlen := (Stmt.function?_define hf).2.2.2
      have hh : Climbs fs F ((Place.function f.ret).Ends F) [.back] f.arrival
          (Block.popIntoAll f.params) [.back] := Function.climbs_params hm hlen
      have hr := hh.append ((hy.climbs hF).append climbs_back)
      have he : Block.popIntoAll f.params ++ (ys ++ Block.ret Names.returnAddress none) =
          (Block.popIntoAll f.params ++ (ys ++ Block.popInto Names.returnAddress)) ++
            [.jumpIndirect Names.returnAddress] := by
        simp [Block.ret, Block.exit, Block.pushAll]
      rw [Stmt.place, Stmt.arrival, hf, he]
      subst hb
      refine .closed hr ?_ rfl (by simp)
      simp only [List.forall_mem_append]
      refine ⟨lands_of_noTarget Block.target_popIntoAll, ?_, lands_of_noTarget Block.target_popInto⟩
      exact fun i hi => (hy.lands hF i hi).left.right hh.stack
  | loose hs hx =>
      cases st with
      | define p name params returns body => exact absurd rfl (hs p name params returns body)
      | _ => exact .loose (hx.climbs hF) (hx.lands hF)

namespace Region

variable {place : Place} {start : List Source} {a : Nat} {code : List Instr}

theorem split {pre post : List Instr} {i : Instr}
    (hr : Region fs F place start a (pre ++ i :: post)) :
    (i.isExit ∧ post = [] ∧ stack (F.callee fs) start pre = []) ∨
      ∃ rest tail, post = rest ++ tail ∧
        i.Fits (F.callee fs) (place.Ends F) place.frame (stack (F.callee fs) start pre) ∧
        Lands fs F place.frame start a (pre ++ i :: rest) i ∧
        stack (F.callee fs) start (pre ++ i :: rest) = [] ∧
        (place = .module ∧ tail = [] ∨ place ≠ .module ∧ 0 < size tail) := by
  generalize hw : pre ++ i :: post = whole at hr
  cases hr with
  | loose hc hl =>
      subst hw
      exact .inr ⟨post, [], by simp, hc.checked.fits, hl i (by simp), hc.stack, .inl ⟨rfl, rfl⟩⟩
  | @closed _ _ _ code j hc hl hi hp =>
      obtain ⟨rest, rfl, hr⟩ | ⟨rest, rfl, hr⟩ := List.append_eq_append_iff.mp hw
      · cases rest with
        | nil =>
            cases hr
            exact .inl ⟨hi, rfl, by simpa using hc.stack⟩
        | cons k rest =>
            cases hr
            refine .inr ⟨rest, [j], rfl, hc.checked.fits, hl _ (by simp), hc.stack, .inr ⟨hp, ?_⟩⟩
            exact Nat.lt_add_right _ (Instr.width_pos_of_isExit hi)
      · cases rest with
        | nil =>
            cases hr
            exact .inl ⟨hi, rfl, by simpa using hc.stack⟩
        | cons => simp at hr

theorem size_pos (hr : Region fs F place start a code) (hp : place ≠ .module) : 0 < size code := by
  cases hr with
  | loose => exact absurd rfl hp
  | closed _ _ hi =>
      have := Instr.width_pos_of_isExit hi
      rw [size_append, size_cons]
      omega

theorem room {x : Nat} {i : Instr} (hr : Region fs F place start a code)
    (hat : Code.At F.code a code) (hx : a ≤ x) (hb : x < a + size code)
    (hf : Code.fetch F.code x = some i) :
    i.takes (F.callee fs) ≤ (stackAt (F.callee fs) start code (x - a)).length := by
  obtain ⟨pre, post, rfl, rfl, -⟩ := hat.split_of_fetch hf hx hb
  rw [Nat.add_sub_cancel_left, stackAt_size]
  obtain ⟨he, -⟩ | ⟨rest, tail, -, hfit, -⟩ := hr.split
  · cases i with
    | jumpIndirect => exact Nat.zero_le _
    | jump t =>
        cases t with
        | addr => exact Nat.zero_le _
        | label => cases he
    | _ => cases he
  · exact hfit.room

theorem exit {x : Nat} {i : Instr} (hr : Region fs F place start a code)
    (hat : Code.At F.code a code) (hx : a ≤ x) (hb : x < a + size code)
    (hf : Code.fetch F.code x = some i) (hi : i.isExit) :
    if x + i.width = a + size code then stackAt (F.callee fs) start code (x - a) = []
    else place.Ends F (stackAt (F.callee fs) start code (x - a)) := by
  obtain ⟨pre, post, rfl, rfl, -⟩ := hat.split_of_fetch hf hx hb
  rw [Nat.add_sub_cancel_left, stackAt_size]
  obtain ⟨-, rfl, hh⟩ | ⟨rest, tail, rfl, hfit, -, -, ht⟩ := hr.split
  · rwa [if_pos (by simp [Nat.add_assoc])]
  · have hends := hfit.exit hi
    split
    case isTrue he =>
      simp only [size_append, size_cons] at he
      obtain ⟨rfl, -⟩ | ⟨-, ht⟩ := ht
      · exact hends
      · omega
    case isFalse => exact hends

theorem exit_length {x : Nat} {i : Instr} (hr : Region fs F place start a code)
    (hat : Code.At F.code a code) (hx : a ≤ x) (hb : x < a + size code)
    (hf : Code.fetch F.code x = some i) (hi : i.isExit) :
    (stackAt (F.callee fs) start code (x - a)).length =
      if x + i.width = a + size code then 0 else place.out := by
  have hexit := hr.exit hat hx hb hf hi
  split at hexit
  case isTrue he => rw [hexit, if_pos he, List.length_nil]
  case isFalse he => rw [hexit.length, if_neg he]

theorem served {pre post : List Instr} (hr : Region fs F place start a (pre ++ .copy :: post)) :
    Copied fs F (stack (F.callee fs) start pre) pre := by
  generalize hw : pre ++ .copy :: post = whole at hr
  cases hr with
  | loose hc => exact hc.served pre post hw.symm
  | closed hc _ hi =>
      obtain ⟨rest, rfl, hr⟩ | ⟨rest, rfl, hr⟩ := List.append_eq_append_iff.mp hw
      · cases rest with
        | nil =>
            cases hr
            cases hi
        | cons j rest =>
            cases hr
            exact hc.served pre rest rfl
      · cases rest with
        | nil =>
            cases hr
            cases hi
        | cons => simp at hr

theorem arrives {callee : Nat → Option Function} {xs rest tail : List Instr} (a : Nat)
    (hh : stack callee start xs = S) (hz : stack callee start (xs ++ rest) = [])
    (ht : place = .module ∧ tail = [] ∨ place ≠ .module ∧ 0 < size tail) :
    (a ≤ a + size xs ∧ a + size xs < a + size (xs ++ (rest ++ tail)) ∧
        stackAt callee start (xs ++ (rest ++ tail)) (a + size xs - a) = S) ∨
      (a + size xs = a + size (xs ++ (rest ++ tail)) ∧ place = .module ∧ S = []) := by
  rw [Nat.add_sub_cancel_left, stackAt_size]
  simp only [size_append]
  by_cases hend : size rest + size tail = 0
  · obtain ⟨hp, rfl⟩ | ⟨-, ht⟩ := ht
    · rw [stack_append, hh, stack_of_size_zero (by omega)] at hz
      exact .inr ⟨by omega, hp, hz⟩
    · omega
  · exact .inl ⟨by omega, by omega, hh⟩

/-- Along the flow of control the stack changes by what the instructions take and put. Only loose
code runs on behind its end, and it does so with nothing on the stack. -/
theorem flow {x y : Nat} {i : Instr} (hr : Region fs F place start a code)
    (hat : Code.At F.code a code) (hx : a ≤ x) (hb : x < a + size code)
    (hf : Code.fetch F.code x = some i) (hy : F.Flow fs x y) :
    ∃ S, S = i.after (F.callee fs) (stackAt (F.callee fs) start code (x - a)) ∧
      (a ≤ y ∧ y < a + size code ∧ stackAt (F.callee fs) start code (y - a) = S ∨
        y = a + size code ∧ place = .module ∧ S = []) := by
  obtain ⟨hi, hy⟩ := hy.cases hf
  obtain ⟨pre, post, rfl, rfl, -⟩ := hat.split_of_fetch hf hx hb
  refine ⟨_, rfl, ?_⟩
  rw [Nat.add_sub_cancel_left, stackAt_size]
  obtain ⟨he, -⟩ | ⟨rest, tail, rfl, hfit, hland, hzero, ht⟩ := hr.split
  · rw [hi] at he
    cases he
  obtain rfl | ⟨l, hl, hbound⟩ := hy
  · have hsplit : pre ++ i :: (rest ++ tail) = (pre ++ [i]) ++ (rest ++ tail) := by simp
    have hsize : a + size pre + i.width = a + size (pre ++ [i]) := by simp [Nat.add_assoc]
    rw [hsplit, hsize]
    exact arrives a (by simp) (by simpa using hzero) ht
  · obtain ⟨b, hb, pre', post', hwhole, rfl, hbase⟩ := hland l hl
    have hsplit : pre ++ i :: (rest ++ tail) = pre' ++ (post' ++ tail) := by
      rw [← List.append_assoc pre', ← hwhole]
      simp
    rw [hbound.unique hb, hfit.branch l hl, hsplit]
    exact arrives a hbase (by rw [← hwhole]; exact hzero) ht

end Region

end StackScript
