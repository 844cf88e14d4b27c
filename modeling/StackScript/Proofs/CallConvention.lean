import Mathlib.Data.List.Nodup
import StackScript.Proofs.Linking

namespace StackScript

theorem Store.map_assign_reverse {D : Type} {σ : Store D} {xs : List String} {vs : List (Value D)}
    (hn : xs.Nodup) (hl : xs.length = vs.length) :
    xs.map (σ.assign xs.reverse vs.reverse) = vs := by
  have hr : xs.reverse.map (σ.assign xs.reverse vs.reverse) = vs.reverse :=
    map_assign (List.nodup_reverse.mpr hn) (by simpa using hl)
  rwa [List.map_reverse, List.reverse_inj] at hr

namespace Machine

variable {D H : Type} {E : Host D H} {p : Program} {a : Nat} {σ : Store D} {st : List (Cell D)}
  {h : H}

def saved (σ : Store D) (f : Block.Frame) : List (Cell D) :=
  ((f.returnSlot :: f.env).map (cell σ)).reverse

theorem reaches_enter {f : Block.Frame} {entry : Nat} (hc : p.Has a (Block.enter f))
    (he : Label.address p.labels f.entry = .ok entry) :
    Reaches E p.code ⟨a, σ, st, h⟩
      ⟨entry, σ, (f.args.map (cell σ)).reverse ++ cell σ f.returnConst :: (saved σ f ++ st), h⟩ :=
      by
  rw [Block.enter_eq] at hc
  refine (reaches_pushAll _ (hc.left.at_of_noTarget Block.target_pushAll)).trans ?_
  refine (reaches_pushAll _ (hc.right.left.at_of_noTarget Block.target_pushAll)).trans ?_
  refine (reaches_one (hc.right.right.goto he) (by simp [Instr.width]) rfl).trans ?_
  simp only [List.map_cons, List.reverse_cons, List.append_assoc, List.singleton_append, saved]
  exact .refl _

theorem reaches_exit {slot : String} {value : Option String} {r : Nat}
    (hc : Code.At p.code a (Block.exit slot value)) (hr : σ slot = .addr r) :
    Reaches E p.code ⟨a, σ, st, h⟩ ⟨r, σ, (value.toList.map (cell σ)).reverse ++ st, h⟩ := by
  refine (reaches_pushAll _ hc.left).trans (reaches_one hc.right (by simp [Instr.width]) ?_)
  simp [execute, hr]

theorem reaches_ret {slot : String} {value : Option String} {c : Cell D} {r : Nat}
    (hc : p.Has a (Block.ret slot value)) (hr : c.value = .addr r) :
    Reaches E p.code ⟨a, σ, c :: st, h⟩
      ⟨r, Function.update σ slot (.addr r),
        (value.toList.map (cell (Function.update σ slot (.addr r)))).reverse ++ st, h⟩ := by
  have hi := hc.at_of_noTarget Block.target_ret
  refine (reaches_popInto hi.left).trans ?_
  rw [hr]
  exact reaches_exit hi.right (Function.update_self ..)

def collected (σ : Store D) : Block.Outcome → List (Cell D) → Store D
  | .into x, [c] => Function.update σ x c.value
  | _, _ => σ

/-- A result lies on the stack exactly if the caller takes one off it. -/
def Fits : Block.Outcome → List (Cell D) → Prop
  | .none, cs => cs = []
  | .discard, cs | .into _, cs => ∃ c, cs = [c]

theorem reaches_collect {result : Block.Outcome} {cs : List (Cell D)} (hf : Fits result cs)
    (hc : Code.At p.code a (Block.collect result)) :
    Reaches E p.code ⟨a, σ, cs ++ st, h⟩
      ⟨a + Code.size (Block.collect result), collected σ result cs, st, h⟩ := by
  cases result with
  | none => cases hf; exact .refl _
  | discard => obtain ⟨c, rfl⟩ := hf; exact reaches_one hc (by decide) rfl
  | into x => obtain ⟨c, rfl⟩ := hf; exact reaches_popInto hc

theorem reaches_leave {result : Block.Outcome} {cs : List (Cell D)} {f : Block.Frame} {σ' : Store D}
    (hf : Fits result cs) (hc : p.Has a (Block.leave result f.env f.returnSlot)) :
    Reaches E p.code ⟨a, σ', cs ++ (saved σ f ++ st), h⟩
      ⟨a + Code.size (Block.leave result f.env f.returnSlot),
        (collected σ' result cs).assign (f.returnSlot :: f.env).reverse
          ((f.returnSlot :: f.env).map σ).reverse, st, h⟩ := by
  have hi := hc.at_of_noTarget Block.target_leave
  rw [Block.leave_eq] at hi ⊢
  refine (reaches_collect hf hi.left).trans ((reaches_popIntoAll _ _ (by simp) hi.right).trans ?_)
  rw [Code.size_append, Nat.add_assoc, List.map_reverse, List.map_map]
  exact .refl _

theorem fits_value {result : Block.Outcome} {value : Option String} {σ : Store D}
    (hv : value.isSome ↔ result ≠ .none) : Fits result (value.toList.map (cell σ)).reverse := by
  cases result with
  | none =>
      have hn : value = none := by simpa using hv
      simp [Fits, hn]
  | discard | into =>
      obtain ⟨v, rfl⟩ := Option.isSome_iff_exists.mp (hv.mpr (by simp))
      exact ⟨cell σ v, rfl⟩

/-- The code of a call. The caller's half stands at `site` and the label `back` right behind its
jump; the callee takes its arguments at `entry` and goes back at `finish`, where its body ends. -/
structure Joins (p : Program) (f : Block.Frame) (params : List String) (value : Option String)
    (result : Block.Outcome) (site back entry finish : Nat) : Prop where
  caller : p.Has site (Block.enter f ++ Block.leave result f.env f.returnSlot)
  bound : Label.address p.labels back = .ok (site + Code.size (Block.enter f))
  enters : Label.address p.labels f.entry = .ok entry
  takes : p.Has entry (Block.popIntoAll params)
  returns : p.Has finish (Block.ret f.returnSlot value)

def inside (σ : Store D) (f : Block.Frame) (st : List (Cell D)) : List (Cell D) :=
  cell σ f.returnConst :: (saved σ f ++ st)

def handed (σ τ : Store D) (f : Block.Frame) (value : Option String) (st : List (Cell D)) :
    List (Cell D) :=
  (value.toList.map (cell τ)).reverse ++ (saved σ f ++ st)

/-- A whole call. The body may do what it likes to the variables, as long as it leaves the stack as
it found it: its parameters are the arguments, it comes back to the label behind the jump, and then
the caller has its stack, its parameters and its return address again, and the result. -/
theorem call_restores_caller {f : Block.Frame} {params : List String} {value : Option String}
    {result : Block.Outcome} {site back entry finish start : Nat}
    (hj : Joins p f params value result site back entry finish)
    (hs : start = entry + Code.size (Block.popIntoAll params))
    (hn : params.Nodup) (hl : params.length = f.args.length) (he : (f.returnSlot :: f.env).Nodup)
    (hv : value.isSome ↔ result ≠ .none) (hx : ∀ x, result = .into x → x ≠ f.returnSlot ∧ x ∉ f.env)
    (σ : Store D) (st : List (Cell D)) (h : H)
    (hc : ∀ r, Label.address p.labels back = .ok r → σ f.returnConst = .addr r) :
    ∃ σ₁, Reaches E p.code ⟨site, σ, st, h⟩ ⟨start, σ₁, inside σ f st, h⟩ ∧
      params.map σ₁ = f.args.map σ ∧ (∀ y ∉ params, σ₁ y = σ y) ∧
      ∀ σ₂ h₂, Reaches E p.code ⟨start, σ₁, inside σ f st, h⟩ ⟨finish, σ₂, inside σ f st, h₂⟩ →
        ∃ r τ σ₃, Label.address p.labels back = .ok r ∧
          τ = Function.update σ₂ f.returnSlot (.addr r) ∧
          Reaches E p.code ⟨finish, σ₂, inside σ f st, h₂⟩ ⟨r, τ, handed σ τ f value st, h₂⟩ ∧
          Reaches E p.code ⟨r, τ, handed σ τ f value st, h₂⟩
            ⟨r + Code.size (Block.leave result f.env f.returnSlot), σ₃, st, h₂⟩ ∧
          (f.returnSlot :: f.env).map σ₃ = (f.returnSlot :: f.env).map σ ∧
          (∀ x v, result = .into x → value = some v → σ₃ x = τ v) ∧
          ∀ y ∉ f.returnSlot :: f.env, result ≠ .into y → σ₃ y = σ₂ y := by
  subst hs
  refine ⟨σ.assign params.reverse (f.args.map σ).reverse, ?_, ?_, ?_, ?_⟩
  · have hpop := hj.takes.at_of_noTarget Block.target_popIntoAll
    have hl' : params.length = (f.args.map (cell σ)).length := by simpa using hl
    refine (reaches_enter hj.caller.left hj.enters).trans
      ((reaches_popIntoAll _ _ hl' hpop).trans ?_)
    rw [List.map_reverse, List.map_map]
    exact .refl _
  · exact Store.map_assign_reverse hn (by simpa using hl)
  · intro y hy
    exact Store.assign_of_not_mem (by simpa using hy)
  · intro σ₂ h₂ _
    have hret := hc _ hj.bound
    refine ⟨_, _, _, hj.bound, rfl, reaches_ret hj.returns hret,
      reaches_leave (fits_value hv) hj.caller.right, ?_, ?_, ?_⟩
    · exact Store.map_assign_reverse he (by simp)
    · rintro x v rfl rfl
      rw [Store.assign_of_not_mem (by simpa [and_comm] using hx x rfl)]
      exact Function.update_self ..
    · intro y hy hne
      rw [Store.assign_of_not_mem (by rwa [List.mem_reverse])]
      have hslot : y ≠ f.returnSlot := fun h => hy (h ▸ List.mem_cons_self)
      cases result with
      | none | discard => exact Function.update_of_ne hslot ..
      | into x =>
          have hxy : y ≠ x := fun h => hne (h ▸ rfl)
          obtain ⟨v, rfl⟩ := Option.isSome_iff_exists.mp (hv.mpr (by simp))
          exact (Function.update_of_ne hxy ..).trans (Function.update_of_ne hslot ..)

def exchange : Program where
  exports := []
  vars := []
  events := []
  code := Block.popIntoAll ["n", "m"] ++ (Block.assign "m" "n" ++
    (Block.ret "ret_addr" (some "n") ++
    (Block.pushAll ["ret_addr", "n", "m", "k", "m", "n"] ++ ([.jump (.addr 0)] ++
      Block.leave (.into "x") ["n", "m"] "ret_addr"))))
  labels := [⟨"f", some 0⟩, ⟨"back", some 74⟩]

theorem exchange_joins : Joins exchange ⟨"ret_addr", ["n", "m"], "k", ["m", "n"], 0⟩ ["n", "m"]
    (some "n") (.into "x") 39 1 0 23 where
  caller := ⟨Block.pushAll ["ret_addr", "n", "m", "k", "m", "n"] ++ ([.jump (.addr 0)] ++
    Block.leave (.into "x") ["n", "m"] "ret_addr"), by repeat constructor,
    Block.popIntoAll ["n", "m"] ++ (Block.assign "m" "n" ++ Block.ret "ret_addr" (some "n")), [],
    by decide, by decide⟩
  bound := rfl
  enters := rfl
  takes := ⟨_, by repeat constructor, [], _, rfl, rfl⟩
  returns := ⟨_, by repeat constructor,
    Block.popIntoAll ["n", "m"] ++ Block.assign "m" "n", _, rfl, by decide⟩

def exchangeStore : Store Nat
  | "k" => .addr 74
  | "n" => .datum 1
  | "m" => .datum 2
  | _ => .datum 0

def quietHost : Host Nat Unit := ⟨fun _ => false, fun _ _ h => (.datum 0, h)⟩

theorem exchange_restores_caller :
    ∃ σ, Reaches quietHost exchange.code ⟨39, exchangeStore, [], ()⟩ ⟨98, σ, [], ()⟩ ∧
      ["ret_addr", "n", "m"].map σ = [.datum 0, .datum 1, .datum 2] ∧ σ "x" = .datum 2 := by
  obtain ⟨σ₁, h₁, hp, _, hk⟩ := call_restores_caller (E := quietHost) exchange_joins (rfl : 12 = _)
    (by decide) rfl (by decide) (by simp) (by rintro x ⟨⟩; decide) exchangeStore [] ()
    (by rintro r ⟨⟩; rfl)
  have hn : σ₁ "n" = .datum 2 := (List.cons.inj hp).1
  have hc : Code.At exchange.code 12 (Block.assign "m" "n") :=
    ⟨Block.popIntoAll ["n", "m"], _, rfl, by decide⟩
  have hb := hk _ _ (reaches_assign hc)
  obtain ⟨r, τ, σ₃, ⟨⟩, rfl, h₂, h₃, he, hx, _⟩ := hb
  refine ⟨σ₃, h₁.trans ((reaches_assign hc).trans (h₂.trans h₃)), he, ?_⟩
  rw [hx "x" "n" rfl rfl]
  simpa using hn

end Machine
end StackScript
