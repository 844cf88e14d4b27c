import Mathlib.Logic.Relation
import StackScript.Proofs.Calls.Operands

namespace StackScript

/-- A place on a stack of references: a variable, or a constant. -/
inductive Ref (D : Type) where
  | var (x : String)
  | const (v : Value D)
  deriving DecidableEq

def Ref.read {D : Type} (σ : Store D) : Ref D → Cell D
  | .var x => ⟨some x, σ x⟩
  | .const v => ⟨none, v⟩

def Cell.ref {D : Type} : Cell D → Ref D
  | ⟨some x, _⟩ => .var x
  | ⟨none, v⟩ => .const v

theorem Ref.ref_read {D : Type} (σ : Store D) (r : Ref D) : (r.read σ).ref = r := by
  cases r <;> rfl

@[simp] theorem Ref.ref_comp_read {D : Type} (σ : Store D) : Cell.ref ∘ Ref.read σ = id :=
  funext (Ref.ref_read σ)

def refs {D : Type} (xs : List String) : List (Ref D) := (xs.map .var).reverse

theorem length_refs {D : Type} (xs : List String) :
    (refs xs : List (Ref D)).length = xs.length := by
  simp [refs]

namespace RefMachine

structure State (D H : Type) where
  pc : Nat
  store : Store D
  stack : List (Ref D)
  host : H

variable {D H : Type}

def State.read (s : State D H) : Machine.State D H :=
  ⟨s.pc, s.store, s.stack.map (Ref.read s.store), s.host⟩

def forget (s : Machine.State D H) : State D H := ⟨s.pc, s.store, s.stack.map Cell.ref, s.host⟩

/-- An instruction sees the values that the references have when it is carried out. None of them
stays on the stack. -/
def step (E : Host D H) (code : List Instr) (s : State D H) : Option (State D H) :=
  (Machine.step E code s.read).map forget

def Reaches (E : Host D H) (code : List Instr) : State D H → State D H → Prop :=
  Relation.ReflTransGen fun s t => step E code s = some t

def after (E : Host D H) (code : List Instr) : Nat → State D H → Option (State D H)
  | 0, s => some s
  | n + 1, s => (step E code s).bind (after E code n)

variable {E : Host D H} {code : List Instr} {p : Program} {a : Nat} {σ : Store D}
  {st : List (Ref D)} {h : H} {s t : State D H}

theorem Reaches.trans {u : State D H} (h : Reaches E code s t) (r : Reaches E code t u) :
    Reaches E code s u :=
  Relation.ReflTransGen.trans h r

theorem reaches_of_after {n : Nat} (hn : after E code n s = some t) : Reaches E code s t := by
  induction n generalizing s with
  | zero => cases hn; exact .refl
  | succ n ih =>
      obtain ⟨u, hu, hn⟩ := Option.bind_eq_some_iff.mp hn
      exact .head hu (ih hn)

theorem reaches_one {i : Instr} {is : List Instr} {b : Nat} {τ : Store D}
    {rs : List (Ref D)} {h' : H} (hc : Code.At code a (i :: is)) (hw : i.width ≠ 0)
    (he : Machine.execute E i ⟨a, σ, st.map (Ref.read σ), h⟩ =
      some ⟨b, τ, rs.map (Ref.read σ), h'⟩) :
    Reaches E code ⟨a, σ, st, h⟩ ⟨b, τ, rs, h'⟩ := by
  refine .single ?_
  rw [step, State.read, Machine.step, hc.fetch hw, Option.bind_some, he]
  simp [forget]

theorem reaches_push {x : String} (hc : Code.At code a [.push x]) :
    Reaches E code ⟨a, σ, st, h⟩ ⟨a + 5, σ, .var x :: st, h⟩ :=
  reaches_one hc (by simp [Instr.width]) rfl

theorem reaches_pushAll (xs : List String) {a : Nat} {st : List (Ref D)}
    (hc : Code.At code a (Block.pushAll xs)) :
    Reaches E code ⟨a, σ, st, h⟩ ⟨a + Code.size (Block.pushAll xs), σ, refs xs ++ st, h⟩ := by
  induction xs generalizing a st with
  | nil => exact .refl
  | cons x xs ih =>
      have hx : Code.At code a ([.push x] ++ Block.pushAll xs) := hc
      have h₁ : Reaches E code ⟨a, σ, st, h⟩ ⟨a + 5, σ, .var x :: st, h⟩ := reaches_push hx.left
      refine h₁.trans ?_
      simpa [refs, Nat.mul_succ, Nat.add_assoc, Nat.add_comm, Instr.width] using ih hx.right

theorem reaches_popInto {x : String} {r : Ref D} (hc : Code.At code a (Block.popInto x)) :
    Reaches E code ⟨a, σ, r :: st, h⟩ ⟨a + 6, Function.update σ x (r.read σ).value, st, h⟩ := by
  have hx : Code.At code a ([.push x] ++ [.copy]) := hc
  exact (reaches_push hx.left).trans (reaches_one hx.right (by decide) rfl)

theorem reaches_popIntoAll_refs (xs : List String) {a : Nat}
    (hc : Code.At code a (Block.popIntoAll xs)) :
    Reaches E code ⟨a, σ, refs xs ++ st, h⟩ ⟨a + Code.size (Block.popIntoAll xs), σ, st, h⟩ := by
  rw [refs, ← List.map_reverse]
  rw [Block.popIntoAll] at hc ⊢
  -- the order does not matter, so the induction is on the reversed list
  generalize xs.reverse = ys at hc ⊢
  induction ys generalizing a with
  | nil => exact .refl
  | cons y ys ih =>
      rw [List.flatMap_cons] at hc ⊢
      rw [Code.add_size_append]
      have hpop : Reaches E code ⟨a, σ, .var y :: (ys.map .var ++ st), h⟩
          ⟨a + 6, Function.update σ y (σ y), ys.map .var ++ st, h⟩ := reaches_popInto hc.left
      rw [Function.update_eq_self] at hpop
      exact hpop.trans (ih hc.right)

theorem reaches_enter {f : Block.Frame} {entry : Nat} (hc : p.Has a (Block.enter f))
    (he : Label.address p.labels f.entry = .ok entry) :
    Reaches E p.code ⟨a, σ, st, h⟩
      ⟨entry, σ, refs f.args ++ .var f.returnConst :: (refs (f.returnSlot :: f.env) ++ st), h⟩ := by
  rw [Block.enter_eq] at hc
  refine (reaches_pushAll _ (hc.left.at_of_noTarget Block.target_pushAll)).trans ?_
  refine (reaches_pushAll _ (hc.right.left.at_of_noTarget Block.target_pushAll)).trans ?_
  refine (reaches_one (hc.right.right.goto he) (by simp [Instr.width]) rfl).trans ?_
  simp only [refs, List.map_cons, List.reverse_cons, List.append_assoc, List.singleton_append]
  exact .refl

theorem reaches_collect {result : Block.Outcome} {rs : List (Ref D)}
    (hf : Machine.Fits result (rs.map (Ref.read σ)))
    (hc : Code.At p.code a (Block.collect result)) :
    Reaches E p.code ⟨a, σ, rs ++ st, h⟩
      ⟨a + Code.size (Block.collect result), Machine.collected σ result (rs.map (Ref.read σ)),
        st, h⟩ := by
  cases result with
  | none =>
      obtain rfl := List.map_eq_nil_iff.mp hf
      exact .refl
  | discard =>
      obtain ⟨c, hc'⟩ := hf
      obtain ⟨r, rfl, rfl⟩ := List.map_eq_singleton_iff.mp hc'
      exact reaches_one hc (by decide) rfl
  | into x =>
      obtain ⟨c, hc'⟩ := hf
      obtain ⟨r, rfl, rfl⟩ := List.map_eq_singleton_iff.mp hc'
      exact reaches_popInto hc

/-- The caller's half of a call changes no variable but that of the result. -/
theorem reaches_leave {result : Block.Outcome} {rs : List (Ref D)} {f : Block.Frame}
    (hf : Machine.Fits result (rs.map (Ref.read σ)))
    (hc : p.Has a (Block.leave result f.env f.returnSlot)) :
    Reaches E p.code ⟨a, σ, rs ++ (refs (f.returnSlot :: f.env) ++ st), h⟩
      ⟨a + Code.size (Block.leave result f.env f.returnSlot),
        Machine.collected σ result (rs.map (Ref.read σ)), st, h⟩ := by
  have hi := hc.at_of_noTarget Block.target_leave
  rw [Block.leave_eq] at hi ⊢
  rw [Code.add_size_append]
  exact (reaches_collect hf hi.left).trans (reaches_popIntoAll_refs _ hi.right)

theorem step_jumpIndirect {x : String} (hf : Code.fetch code a = some (.jumpIndirect x)) :
    step E code ⟨a, σ, st, h⟩ = some t ↔ ∃ b, σ x = .addr b ∧ ⟨b, σ, st, h⟩ = t := by
  rw [step, State.read, Machine.step, hf, Option.bind_some]
  cases hx : σ x <;> simp [Machine.execute, hx, forget]

/-- A callee comes back to an address, by an indirect jump through the return address. -/
def ComesBack (E : Host D H) (code : List Instr) (s : State D H) (back : Nat) (ρ : Store D)
    (st : List (Ref D)) (h : H) : Prop :=
  ∃ a, Code.fetch code a = some (.jumpIndirect Names.returnAddress) ∧
    Reaches E code s ⟨a, ρ, st, h⟩ ∧ step E code ⟨a, ρ, st, h⟩ = some ⟨back, ρ, st, h⟩

theorem ComesBack.reaches {back : Nat} (hb : ComesBack E code s back σ st h) :
    σ Names.returnAddress = .addr back ∧ Reaches E code s ⟨back, σ, st, h⟩ := by
  obtain ⟨a, hf, hr, hj⟩ := hb
  obtain ⟨b, hb, he⟩ := (step_jumpIndirect hf).mp hj
  cases he
  exact ⟨hb, Relation.ReflTransGen.tail hr hj⟩

end RefMachine

namespace Module

open Draft RefMachine

variable {c : Catalog} {m : Module} {p : Program} {fs : Functions} {D H : Type} {E : Host D H}

theorem size_enter (f : Block.Frame) :
    Code.size (Block.enter f) = 5 * (f.env.length + f.args.length + 3) := by
  have hgoto : Code.size (Block.goto f.entry) = 5 := rfl
  rw [Block.enter_eq, Code.size_append, Code.size_append, Machine.size_pushAll,
    Machine.size_pushAll, hgoto]
  simp only [List.length_cons]
  omega

/-- A call inside a function, with a stack of references. Entering changes no variable. When the
callee has come back through the return address, the rest of the call leaves all known variables as
it finds them: so the caller has its own values again exactly if its return address was the one that
the callee came back by, and if its parameters are what they were by then. -/
theorem compile_call_restores_iff {s₀ s t F : Draft} {g : Function} {name : String}
    {args : List String} {discard : Bool} {o : Operand} (hc : m.compile c = .ok p)
    (h₀ : m.lowered c 0 = some (fs, s₀)) (hF : m.lowered c m.body.length = some (fs, F))
    (hg : g ∈ fs) (hs : Moves s₀ s)
    (hcall : Lower.userCall ⟨c, fs, .function (Names.functionId g.name g.types) g.ret g.params⟩
      name args discard s = .ok o t)
    (ht : Moves t F) (σ : Store D) (st : List (Ref D)) (h : H) :
    ∃ callee ∈ fs, callee.name = name ∧ ∃ k stmt sₖ const back, m.body[k]? = some stmt ∧
      stmt.function? c = some callee ∧ m.lowered c k = some (fs, sₖ) ∧
      Reaches E p.code ⟨s.emitter.pc, σ, st, h⟩ ⟨sₖ.emitter.pc, σ,
        refs args ++ .var const :: (refs (Names.returnAddress :: g.params) ++ st), h⟩ ∧
      back = s.emitter.pc + 5 * (g.params.length + args.length + 3) ∧
      ∀ ρ rs h', rs.length = callee.results →
        ComesBack E p.code ⟨s.emitter.pc, σ, st, h⟩ back ρ
          (rs ++ (refs (Names.returnAddress :: g.params) ++ st)) h' →
        ∃ τ, Reaches E p.code ⟨s.emitter.pc, σ, st, h⟩ ⟨t.emitter.pc, τ, st, h'⟩ ∧
          (∀ x, s.vars.contains x → τ x = ρ x) ∧
          ((Names.returnAddress :: g.params).map τ = (Names.returnAddress :: g.params).map σ ↔
            σ Names.returnAddress = .addr back ∧ g.params.map ρ = g.params.map σ) := by
  obtain ⟨fs', d, L⟩ := layout_of_compile hc
  obtain ⟨rfl, rfl⟩ : fs = fs' ∧ s₀ = d 0 := by simpa [h₀] using L.lowered 0 (Nat.zero_le _)
  obtain rfl : F = d m.body.length := by simpa [hF] using L.lowered _ le_rfl
  obtain ⟨callee, const, l, _, r, s₁, s₂, C, hname, _⟩ := Lower.userCall_eq_ok hcall
  have hF₁ := (C.enter.trans C.leave).moves.trans ht
  obtain ⟨k, stmt, hk, hf⟩ := L.exists_define C.callee
  have hlt := (List.getElem?_eq_some_iff.mp hk).1
  have hentry := (L.entry_bound hk hf ((Moves.grows hF₁).named C.named)).1
  have hsized : s.Sized := hs.sized (L.size_code (Nat.zero_le _))
  have henter := C.enter.has (C.begins.moves.sized hsized) (C.leave.moves.trans ht) L.linked
  have hleave := C.leave.has ((C.begins.trans C.enter).moves.sized hsized) ht L.linked
  refine ⟨callee, C.callee, hname, k, stmt, d k, const, s₂.emitter.pc, hk, hf,
    L.lowered k hlt.le, ?_, ?_, ?_⟩
  · rw [C.begins.silent] at henter
    exact reaches_enter henter (by rw [L.labels]; exact hentry)
  · rw [C.enter.pc, C.begins.silent, size_enter]
    rfl
  · intro ρ rs h' hl hback
    obtain ⟨hslot, hreach⟩ := hback.reaches
    let τ := Machine.collected ρ r (rs.map (Ref.read ρ))
    -- the result goes into a variable that was not there before the call
    have hτ (x : String) (hx : s.vars.contains x) : τ x = ρ x := by
      refine Machine.collected_of_ne fun hr => ?_
      exact Bool.false_ne_true
        ((C.fresh x hr).symm.trans ((C.begins.trans C.enter).moves.contains hx))
    have hknown : (Names.returnAddress :: g.params).map τ = .addr s₂.emitter.pc ::
        g.params.map ρ := by
      obtain ⟨hret, hparams⟩ := L.known (Nat.zero_le _)
      rw [List.map_cons, hτ _ (hs.contains hret), hslot]
      exact congrArg _ (List.map_congr_left fun x hx => hτ x (hs.contains (hparams g hg x hx)))
    refine ⟨τ, hreach.trans ?_, hτ, ?_⟩
    · rw [C.leave.pc]
      have hfits := Stage.fits_of_results C.outcome ((List.length_map (Ref.read ρ)).trans hl)
      exact reaches_leave (f := ⟨Names.returnAddress, g.params, const, args, l⟩) hfits hleave
    · rw [hknown, List.map_cons, List.cons.injEq, eq_comm (b := σ Names.returnAddress)]

def nextArgs : Lower (List String) := do
  Lower.note (.expression next.pos next.describe)
  Lower.lowerValues summingContext [Build.binary param .add (.int .unknown 1)]

theorem next_eq_ok {u t : Draft} {y : String} (h : Lower.value summingContext next u = .ok y t) :
    ∃ args s, nextArgs u = .ok args s ∧
    Lower.userCall summingContext "f" args false s = .ok (.var y) t := by
  obtain ⟨u₁, hn, h⟩ := Lower.value_eq_ok h
  simp only [next, Build.call, Lower.lowerExpr, Lower.bind_eq_ok] at h
  obtain ⟨args, s, hargs, h⟩ := h
  rw [Lower.plainCall, if_neg (by decide), if_neg (by decide)] at h
  exact ⟨args, s, Lower.bind_eq_ok.mpr ⟨(), u₁, hn, hargs⟩, h⟩

/-- The function calls itself from within a sum, with a run from the event to the call, back from
the callee, and on to the end of the call. -/
structure Recursion where
  (p : Program) (F s₀ s₁ s t : Draft) (args : List String) (o : Operand)
  (σ ρ τ : Store Int) (st rs : List (Ref Int)) (h h' h'' : Nat)
  compiled : (summing (Build.binary param .add next)).compile arithmetic = .ok p
  header : (summing (Build.binary param .add next)).lowered arithmetic 0 =
    some ([summingFunction], s₀)
  starts : (summing (Build.binary param .add next)).lowered arithmetic 1 =
    some ([summingFunction], s₁)
  lowered : (summing (Build.binary param .add next)).lowered arithmetic 2 =
    some ([summingFunction], F)
  begins : Moves s₀ s
  call : Lower.userCall summingContext "f" args false s = .ok o t
  ends : Moves t F
  site : Reaches calculator p.code ⟨s₁.emitter.pc, launched p, [], 0⟩ ⟨s.emitter.pc, σ, st, h⟩
  result : rs.length = 1
  back : ComesBack calculator p.code ⟨s.emitter.pc, σ, st, h⟩
    (s.emitter.pc + 5 * (1 + args.length + 3)) ρ
    (rs ++ (refs [Names.returnAddress, "f__SystemInt32__n"] ++ st)) h'
  done : Reaches calculator p.code ⟨s.emitter.pc, σ, st, h⟩ ⟨t.emitter.pc, τ, st, h''⟩

/-- The same by running the machine: the parameter and the return address before and after
the call. -/
def recursion? (n k j : Nat) : Option (List (Value Int) × List (Value Int)) := do
  let e := Build.binary param .add next
  let p ← ((summing e).compile arithmetic).toOption
  let (_, s₀) ← (summing e).lowered arithmetic 0
  let (_, s₁) ← (summing e).lowered arithmetic 1
  let (_, s') ← (summingHead e).result? s₀
  let (_, u) ← (Lower.value summingContext param).result? s'
  let (args, s) ← nextArgs.result? u
  let (_, t) ← (Lower.userCall summingContext "f" args false).result? s
  let site ← after calculator p.code n ⟨s₁.emitter.pc, launched p, [], 0⟩
  let jump ← after calculator p.code k site
  let done ← after calculator p.code j jump
  if site.pc = s.emitter.pc ∧ Code.fetch p.code jump.pc = some (.jumpIndirect Names.returnAddress) ∧
      jump.store Names.returnAddress = .addr (s.emitter.pc + 5 * (1 + args.length + 3)) ∧
      jump.stack = jump.stack.take 1 ++
      (refs [Names.returnAddress, "f__SystemInt32__n"] ++ site.stack) ∧ done.pc = t.emitter.pc ∧
      done.stack = site.stack then
    some ([Names.returnAddress, "f__SystemInt32__n"].map site.store,
      [Names.returnAddress, "f__SystemInt32__n"].map done.store)
  else none

theorem exists_recursion {n k j : Nat} {vs ws : List (Value Int)}
    (h : recursion? n k j = some (vs, ws)) :
    ∃ R : Recursion, [Names.returnAddress, "f__SystemInt32__n"].map R.σ = vs ∧
      [Names.returnAddress, "f__SystemInt32__n"].map R.τ = ws := by
  rw [recursion?] at h
  cases hc : (summing (Build.binary param .add next)).compile arithmetic with
  | error f => simp only [hc, Except.toOption] at h; cases h
  | ok p =>
      obtain ⟨d, s', z, v, L, hhead, hz, hs', hv⟩ := summing_lowered hc
      obtain ⟨x, u, y, t, hx, hy, ht⟩ := Lower.binary_eq_ok hz
      obtain ⟨args, s, hargs, hcall⟩ := next_eq_ok hy
      have hlen : (summing (Build.binary param .add next)).body.length = 2 := rfl
      have h₀ := L.lowered 0 (by omega)
      have h₁ := L.lowered 1 (by omega)
      simp only [hc, Except.toOption, h₀, h₁, Lower.result?_of_ok hhead, Lower.result?_of_ok hx,
        Lower.result?_of_ok hargs, Lower.result?_of_ok hcall, Option.bind_eq_bind, Option.bind_some,
        Option.bind_eq_some_iff, Option.ite_none_right_eq_some] at h
      obtain ⟨⟨_, σ, _, i⟩, hn, ⟨a, ρ, st', i'⟩, hk, ⟨_, τ, st, i''⟩, hj, hend, hres⟩ := h
      obtain ⟨rfl, hfetch, hslot, hst, rfl, rfl⟩ := hend
      cases hres
      obtain ⟨_, u₁, hn', hxs⟩ := Lower.bind_eq_ok.mp hargs
      obtain ⟨_, ea, _⟩ : Advances summingContext.functions u₁ s :=
        (Lower.Along.lowerValues _).of_ok hxs
      have hs :=
        hs'.trans ((Lower.value_moves hx).trans ((Lower.note_emits hn').moves.trans ea.moves))
      dsimp only at hst
      have hl : (st'.take 1).length = 1 := by
        have hlength := congrArg List.length hst
        simp only [List.length_append, List.length_take, length_refs, List.length_cons] at hlength ⊢
        omega
      have hback : ComesBack calculator p.code ⟨s.emitter.pc, σ, st, i⟩ _ ρ st' i' :=
        ⟨a, hfetch, reaches_of_after hk, (step_jumpIndirect hfetch).mpr ⟨_, hslot, rfl⟩⟩
      rw [hst] at hback
      have hdone := (reaches_of_after hk).trans (reaches_of_after hj)
      exact ⟨⟨p, _, _, _, s, t, args, _, σ, ρ, τ, st, _, i, i', i'', hc, h₀, h₁,
        L.lowered 2 (by omega), hs, hcall, ht.moves.trans hv, reaches_of_after hn, hl, hback,
        hdone⟩, rfl, rfl⟩

theorem recursion_rebinds : recursion? 21 47 7 = some
    ([.addr 198, .datum 1], [.addr 87, .datum 3]) := by
  decide +kernel

/-- The call as it is run here has lost both: the parameter has the callee's last value, and the
return address is that of the callee. -/
theorem recursion_restores_iff : ∃ R : Recursion, ∃ τ,
    Reaches calculator R.p.code ⟨R.s.emitter.pc, R.σ, R.st, R.h⟩ ⟨R.t.emitter.pc, τ, R.st, R.h'⟩ ∧
      (∀ x, R.s.vars.contains x → τ x = R.ρ x) ∧
      ([Names.returnAddress, "f__SystemInt32__n"].map τ =
        [Names.returnAddress, "f__SystemInt32__n"].map R.σ ↔
        R.σ Names.returnAddress = .addr (R.s.emitter.pc + 5 * (1 + R.args.length + 3)) ∧
          ["f__SystemInt32__n"].map R.ρ = ["f__SystemInt32__n"].map R.σ) := by
  obtain ⟨R, -⟩ := exists_recursion recursion_rebinds
  obtain ⟨callee, hmem, -, k, stmt, sₖ, const, back, -, -, -, -, rfl, hends⟩ :=
    compile_call_restores_iff (E := calculator) R.compiled R.header R.lowered
      (List.mem_singleton.mpr rfl) R.begins
      R.call R.ends R.σ R.st R.h
  obtain rfl := List.mem_singleton.mp hmem
  exact ⟨R, hends R.ρ R.rs R.h' R.result R.back⟩

/-- The parameter is 1 before the call and 3 after it, and the return address is another one. -/
theorem recursion_not_restored : ∃ R : Recursion,
    [Names.returnAddress, "f__SystemInt32__n"].map R.σ = [.addr 198, .datum 1] ∧
      [Names.returnAddress, "f__SystemInt32__n"].map R.τ = [.addr 87, .datum 3] :=
  exists_recursion recursion_rebinds

end Module
end StackScript
