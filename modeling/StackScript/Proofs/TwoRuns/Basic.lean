import StackScript.Proofs.Lowering.Run

namespace StackScript

def Diagnostic.cause (d : Diagnostic) : Problem × Option String := (d.problem, d.hint)

def Fault.cause : Fault → (Problem × Option String) ⊕ Nat
  | .rejected d => .inl d.cause
  | .dangling label => .inr label

@[simp] theorem Diagnostic.cause_locate (d : Diagnostic) (p : Pos) :
    (d.locate p).cause = d.cause := by
  rw [locate]
  split <;> rfl

@[simp] theorem Fault.cause_locate (f : Fault) (p : Pos) : (f.locate p).cause = f.cause := by
  cases f with
  | rejected d => rw [locate, cause, Diagnostic.cause_locate, cause]
  | dangling => rfl

/-- Drafts with the same variables and the same code. -/
inductive Draft.Alike : Draft → Draft → Prop
  | mk (vars emitter journal journal') : Alike ⟨vars, emitter, journal⟩ ⟨vars, emitter, journal'⟩

namespace Lower

open Draft

variable {α β : Type} {both : Prop}

/-- The second result agrees with the first one. If the first is a fault, this is asked for only
with `both`, and the faults need not be found at the same place. -/
inductive Matches (both : Prop) : EStateM.Result Fault Draft α → EStateM.Result Fault Draft α → Prop
  | ok {a t t'} (h : t.Alike t') : Matches both (.ok a t) (.ok a t')
  | error {f f' t t'} (h : f.cause = f'.cause) : Matches both (.error f t) (.error f' t')
  | free {f t r} (h : ¬ both) : Matches both (.error f t) r

/-- The second step does what the first one does. -/
structure Mirrors (both : Prop) (x y : Lower α) : Prop where
  run : ∀ {s s'}, Alike s s' → Matches both (x s) (y s')

namespace Mirrors

theorem of_alike {x y : Lower α}
    (h : ∀ vars emitter j j', Matches both (x ⟨vars, emitter, j⟩) (y ⟨vars, emitter, j'⟩)) :
    Mirrors both x y := by
  refine ⟨fun hs => ?_⟩
  cases hs with
  | mk vars emitter j j' => exact h vars emitter j j'

theorem pure (a : α) : Mirrors both (Pure.pure a) (Pure.pure a) := ⟨fun h => .ok h⟩

theorem bind {x y : Lower α} {f g : α → Lower β} (hx : Mirrors both x y)
    (hf : ∀ a, Mirrors both (f a) (g a)) :
    Mirrors both (x >>= f) (y >>= g) := by
  refine ⟨fun {s s'} hs => ?_⟩
  change Matches both (EStateM.bind x f s) (EStateM.bind y g s')
  rw [EStateM.bind, EStateM.bind]
  have hr := hx.run hs
  generalize x s = r, y s' = r' at hr ⊢
  cases hr with
  | ok ht => exact (hf _).run ht
  | error h => exact .error h
  | free h => exact .free h

theorem get_bind {f g : Draft → Lower α}
    (h : ∀ vars emitter j j', Mirrors both (f ⟨vars, emitter, j⟩) (g ⟨vars, emitter, j'⟩)) :
    Mirrors both (get >>= f) (get >>= g) :=
  of_alike fun vars emitter j j' => (h vars emitter j j').run (.mk ..)

theorem reject {d d' : Diagnostic} (h : d.cause = d'.cause) :
    Mirrors both (reject d : Lower α) (reject d') :=
  ⟨fun _ => .error (congrArg Sum.inl h)⟩

theorem reject_free (h : ¬ both) (d : Diagnostic) (y : Lower α) : Mirrors both (Lower.reject d) y :=
  ⟨fun _ => .free h⟩

theorem reject_bind {d d' : Diagnostic} (h : d.cause = d'.cause) (f g : α → Lower β) :
    Mirrors both (Lower.reject d >>= f) (Lower.reject d' >>= g) :=
  ⟨fun _ => .error (congrArg Sum.inl h)⟩

theorem accept (r : Except Diagnostic α) : Mirrors both (accept r) (accept r) := by
  cases r with
  | error d => exact reject rfl
  | ok a => exact pure a

theorem located {x y : Lower α} (p p' : Pos) (h : Mirrors both x y) :
    Mirrors both (located p x) (located p' y) := by
  refine ⟨fun {s s'} hs => ?_⟩
  rw [Lower.located, Lower.located]
  have hr := h.run hs
  generalize x s = r, y s' = r' at hr ⊢
  cases hr with
  | ok ht => exact .ok ht
  | error h => exact .error (by simpa using h)
  | free h => exact .free h

theorem note (e e' : Entry) : Mirrors both (note e) (note e') :=
  of_alike fun _ _ _ _ => .ok (.mk ..)

theorem emit (block : List Instr) : Mirrors both (emit block) (emit block) :=
  of_alike fun _ _ _ _ => .ok (.mk ..)

theorem addEvent (name : String) : Mirrors both (addEvent name) (addEvent name) :=
  of_alike fun _ _ _ _ => .ok (.mk ..)

theorem freshLabel (kind : String) : Mirrors both (freshLabel kind) (freshLabel kind) :=
  of_alike fun _ _ _ _ => .ok (.mk ..)

theorem namedLabel (name : String) : Mirrors both (namedLabel name) (namedLabel name) :=
  of_alike fun _ _ _ _ => .ok (.mk ..)

theorem bindLabel (label : Nat) : Mirrors both (bindLabel label) (bindLabel label) := by
  refine of_alike fun vars emitter j j' => ?_
  rw [Lower.bindLabel, Lower.bindLabel]
  cases emitter.bind label with
  | error f => exact .error rfl
  | ok e => exact .ok (.mk ..)

theorem declare (name : String) (ty : Ty) (init : Init) :
    Mirrors both (declare name ty init) (declare name ty init) :=
  get_bind fun _ _ _ _ => (accept _).bind fun _ => ⟨fun _ => .ok (.mk ..)⟩

theorem contains (name : String) : Mirrors both (contains name) (contains name) :=
  get_bind fun _ _ _ _ => pure _

theorem forIn {f g : α → β → Lower (ForInStep β)} (hf : ∀ a b, Mirrors both (f a b) (g a b))
    (xs : List α) (b : β) :
    Mirrors both (ForIn.forIn xs b f) (ForIn.forIn xs b g) := by
  induction xs generalizing b with
  | nil => exact pure b
  | cons x xs ih =>
      rw [List.forIn_cons, List.forIn_cons]
      refine (hf x b).bind fun r => ?_
      cases r with
      | done => exact pure _
      | yield => exact ih _

variable {cx : Context}

theorem generate (kind : String) (ty : Ty) (init : Init) :
    Mirrors both (generate cx kind ty init) (generate cx kind ty init) :=
  bind (of_alike fun _ _ _ _ => .ok (.mk ..)) fun _ => (declare ..).bind fun _ => pure _

theorem resolve (name : String) : Mirrors both (resolve cx name) (resolve cx name) :=
  get_bind fun _ _ _ _ => pure _

theorem typeOf (var : String) : Mirrors both (typeOf cx var) (typeOf cx var) :=
  get_bind fun _ _ _ _ => accept _

theorem typesOf (vars : List String) : Mirrors both (typesOf cx vars) (typesOf cx vars) := by
  induction vars with
  | nil => exact pure _
  | cons x xs ih =>
      have hx : Lower.typesOf cx (x :: xs) =
        (do return (← Lower.typeOf cx x) :: (← Lower.typesOf cx xs)) :=
        List.mapM_cons
      rw [hx]
      exact (typeOf x).bind fun _ => ih.bind fun _ => pure _

theorem outcome (ret : Ty) (discard : Bool) :
    Mirrors both (outcome cx ret discard) (outcome cx ret discard) := by
  rw [Lower.outcome]
  split
  · exact pure _
  · split
    · exact pure _
    · exact (generate ..).bind fun _ => pure _

theorem hostCall (m : Method) (operands : List String) :
    Mirrors both (hostCall cx m operands) (hostCall cx m operands) := by
  refine (note ..).bind fun _ => ?_
  split
  · exact (emit _).bind fun _ => pure _
  · exact (generate ..).bind fun _ => (emit _).bind fun _ => pure _

theorem userCall (name : String) (args : List String) (discard : Bool) :
    Mirrors both (userCall cx name args discard) (userCall cx name args discard) :=
  (typesOf _).bind fun _ => (accept _).bind fun _ => (note ..).bind fun _ =>
    (namedLabel _).bind fun _ =>
    (freshLabel _).bind fun _ => (generate ..).bind fun _ => (emit _).bind fun _ =>
      (bindLabel _).bind fun _ =>
      (outcome ..).bind fun _ => (emit _).bind fun _ => pure _

theorem cast (name : String) (args : List String) :
    Mirrors both (cast cx name args) (cast cx name args) := by
  rw [Lower.cast.eq_def]
  split
  · exact (generate ..).bind fun _ => (emit _).bind fun _ => pure _
  · exact reject rfl

theorem nameOperand (ident : String) :
    Mirrors both (nameOperand cx ident) (nameOperand cx ident) := by
  refine (resolve _).bind fun x => (contains _).bind fun known => ?_
  split
  · exact pure _
  · split
    · exact pure _
    · exact reject rfl

end Mirrors
end Lower
end StackScript
