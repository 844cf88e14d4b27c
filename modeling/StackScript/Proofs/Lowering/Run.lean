import Mathlib.Data.List.Forall2
import StackScript.Lowering.Module

namespace StackScript

/-- A fault that is about the script: the label table has all that was looked up in it. -/
def Fault.isRefusal : Fault → Bool
  | .rejected d => !(d.problem matches .unresolvedLabel _)
  | .dangling _ => false

/-- A fault that has nothing to do with labels. -/
def Fault.isUnlabelled : Fault → Bool
  | .rejected d => match d.problem with
    | .unresolvedLabel _ => false
    | .declaration _ reason => reason ≠ "label is bound twice"
    | _ => true
  | .dangling _ => false

theorem Fault.isUnlabelled_locate (f : Fault) (p : Pos) :
    (f.locate p).isUnlabelled = f.isUnlabelled := by
  cases f with
  | rejected d => rw [locate, Diagnostic.locate]; split <;> rfl
  | dangling => rfl

theorem Fault.isRefusal_of_isUnlabelled {f : Fault} (h : f.isUnlabelled) : f.isRefusal := by
  cases f with
  | rejected d =>
      obtain ⟨problem, pos, hint⟩ := d
      cases problem with
      | unresolvedLabel => cases h
      | _ => rfl
  | dangling => cases h

theorem Diagnostic.isUnlabelled_functionTwice (name : String) (types : List Ty) :
    (Fault.rejected (functionTwice name types)).isUnlabelled := by
  rw [Fault.isUnlabelled, functionTwice, of, decide_eq_true_eq]
  intro h
  have hhead := congrArg (List.head? ∘ String.toList) h
  simp only [Function.comp_apply, String.toList_append] at hhead
  cases hhead

/-- No fault of a check is about a label. -/
structure Checks {α : Type} (r : Except Diagnostic α) : Prop where
  of_error : ∀ {d}, r = .error d → (Fault.rejected d).isUnlabelled

namespace Checks

variable {α β : Type}

theorem ok (a : α) : Checks (.ok a) := by
  refine ⟨fun h => ?_⟩
  cases h

theorem error {d : Diagnostic} (hd : (Fault.rejected d).isUnlabelled) :
    Checks (.error d : Except _ α) := by
  refine ⟨fun h => ?_⟩
  cases h
  exact hd

theorem bind {r : Except Diagnostic α} {f : α → Except Diagnostic β} (hr : Checks r)
    (hf : ∀ a, Checks (f a)) :
    Checks (r >>= f) := by
  refine ⟨fun h => ?_⟩
  cases r with
  | error e => cases h; exact hr.of_error rfl
  | ok a => exact (hf a).of_error h

theorem map {r : Except Diagnostic α} (hr : Checks r) (f : α → β) : Checks (r.map f) := by
  cases r with
  | error d => exact error (hr.of_error rfl)
  | ok a => exact ok _

theorem mapM {f : α → Except Diagnostic β} (hf : ∀ a, Checks (f a)) (xs : List α) :
    Checks (xs.mapM f) := by
  induction xs with
  | nil => exact ok _
  | cons x xs ih =>
      rw [List.mapM_cons]
      exact (hf x).bind fun _ => ih.bind fun _ => ok _

end Checks

theorem Variables.checks_declare (vs : Variables) (name : String) (ty : Ty) (init : Init) :
    Checks (vs.declare name ty init) := by
  rw [declare]
  split
  · exact .error rfl
  · split
    · exact .error rfl
    · exact .ok _

theorem Variables.checks_typeOf (vs : Variables) (c : Catalog) (name : String) :
    Checks (vs.typeOf c name) := by
  rw [typeOf]
  split
  · exact .ok _
  · split
    · exact .ok _
    · exact .error rfl

theorem Functions.checks_returnType (fs : Functions) (name : String) (types : List Ty) :
    Checks (fs.returnType name types) := by
  rw [returnType]
  split
  · exact .ok _
  · exact .error rfl

theorem Expr.checks_literal? (e : Expr) : Checks e.literal? := by
  cases e with
  | int p n =>
      rw [literal?]
      split
      · exact .ok _
      · exact .error (Fault.isUnlabelled_locate (.rejected _) p)
  | _ => exact .ok _

namespace Lower

variable {α β : Type} {s t : Draft}

theorem bind_eq_ok {x : Lower α} {f : α → Lower β} {b : β} :
    (x >>= f) s = .ok b t ↔ ∃ a u, x s = .ok a u ∧ f a u = .ok b t := by
  change EStateM.bind x f s = _ ↔ _
  rw [EStateM.bind]
  cases x s <;> simp

theorem pure_eq_ok {a b : α} : (pure a : Lower α) s = .ok b t ↔ a = b ∧ s = t := by
  change EStateM.Result.ok a s = .ok b t ↔ _
  simp

theorem get_eq_ok {d : Draft} : (get : Lower Draft) s = .ok d t ↔ s = d ∧ s = t := by
  change EStateM.Result.ok s s = .ok d t ↔ _
  simp

theorem set_eq_ok {d : Draft} {u : PUnit} : (set d : Lower PUnit) s = .ok u t ↔ d = t := by
  change EStateM.Result.ok PUnit.unit d = .ok u t ↔ _
  simp

theorem modify_eq_ok {f : Draft → Draft} {u : PUnit} :
    (modify f : Lower PUnit) s = .ok u t ↔ f s = t := by
  change EStateM.Result.ok PUnit.unit (f s) = .ok u t ↔ _
  simp

theorem modifyGet_eq_ok {f : Draft → α × Draft} {a : α} :
    (modifyGet f : Lower α) s = .ok a t ↔ (f s).1 = a ∧ (f s).2 = t := by
  change EStateM.Result.ok (f s).1 (f s).2 = .ok a t ↔ _
  simp

theorem reject_eq_ok {d : Diagnostic} {a : α} : (reject d : Lower α) s = .ok a t ↔ False := by
  change EStateM.Result.error (Fault.rejected d) s = .ok a t ↔ _
  simp

theorem accept_eq_ok {r : Except Diagnostic α} {a : α} :
    accept r s = .ok a t ↔ r = .ok a ∧ s = t := by
  cases r with
  | error d => simp [accept, reject_eq_ok]
  | ok b => simp [accept, pure_eq_ok]

theorem located_eq_ok {p : Pos} {x : Lower α} {a : α} :
    located p x s = .ok a t ↔ x s = .ok a t := by
  rw [located]
  cases x s <;> simp

theorem note_eq_ok {e : Entry} {u : Unit} :
    note e s = .ok u t ↔ { s with journal := e :: s.journal } = t := modify_eq_ok

theorem contains_eq_ok {name : String} {b : Bool} :
    contains name s = .ok b t ↔ s.vars.contains name = b ∧ s = t := by
  simp only [contains, bind_eq_ok, get_eq_ok, pure_eq_ok]
  constructor
  · rintro ⟨_, _, ⟨rfl, rfl⟩, h, rfl⟩
    exact ⟨h, rfl⟩
  · rintro ⟨h, rfl⟩
    exact ⟨s, s, ⟨rfl, rfl⟩, h, rfl⟩

theorem declare_eq_ok {name : String} {ty : Ty} {init : Init} {u : Unit} :
    declare name ty init s = .ok u t ↔
      ∃ vs, s.vars.declare name ty init = .ok vs ∧ { s with vars := vs } = t := by
  simp only [declare, bind_eq_ok, get_eq_ok, accept_eq_ok, set_eq_ok]
  constructor
  · rintro ⟨_, _, ⟨rfl, rfl⟩, vs, _, ⟨hv, rfl⟩, rfl⟩
    exact ⟨vs, hv, rfl⟩
  · rintro ⟨vs, hv, rfl⟩
    exact ⟨s, s, ⟨rfl, rfl⟩, vs, s, ⟨hv, rfl⟩, rfl⟩

variable {cx : Context}

theorem resolve_eq_ok {name x : String} :
    resolve cx name s = .ok x t ↔ s.vars.resolve cx.scope.qualifier name = x ∧ s = t := by
  simp only [resolve, bind_eq_ok, get_eq_ok, pure_eq_ok]
  constructor
  · rintro ⟨_, _, ⟨rfl, rfl⟩, h, rfl⟩
    exact ⟨h, rfl⟩
  · rintro ⟨h, rfl⟩
    exact ⟨s, s, ⟨rfl, rfl⟩, h, rfl⟩

theorem typeOf_eq_ok {x : String} {ty : Ty} :
    typeOf cx x s = .ok ty t ↔ s.vars.typeOf cx.catalog x = .ok ty ∧ s = t := by
  simp only [typeOf, bind_eq_ok, get_eq_ok, accept_eq_ok]
  constructor
  · rintro ⟨_, _, ⟨rfl, rfl⟩, h, rfl⟩
    exact ⟨h, rfl⟩
  · rintro ⟨h, rfl⟩
    exact ⟨s, s, ⟨rfl, rfl⟩, h, rfl⟩

theorem typesOf_eq_ok {xs : List String} {types : List Ty} :
    typesOf cx xs s = .ok types t ↔
      List.Forall₂ (fun x ty => s.vars.typeOf cx.catalog x = .ok ty) xs types ∧ s = t := by
  induction xs generalizing types t with
  | nil => simp [typesOf, pure_eq_ok, eq_comm]
  | cons x xs ih =>
      have hx : typesOf cx (x :: xs) = (do return (← typeOf cx x) :: (← typesOf cx xs)) :=
        List.mapM_cons
      simp only [hx, bind_eq_ok, typeOf_eq_ok, pure_eq_ok]
      constructor
      · rintro ⟨ty, _, ⟨hty, rfl⟩, tys, u, hr, rfl, rfl⟩
        obtain ⟨htys, rfl⟩ := ih.mp hr
        exact ⟨.cons hty htys, rfl⟩
      · rintro ⟨h, rfl⟩
        cases h with
        | cons hty htys => exact ⟨_, s, ⟨hty, rfl⟩, _, s, ih.mpr ⟨htys, rfl⟩, rfl, rfl⟩

theorem bind_eq_error {x : Lower α} {f : α → Lower β} {e : Fault} :
    (x >>= f) s = .error e t ↔ x s = .error e t ∨ ∃ a u, x s = .ok a u ∧ f a u = .error e t := by
  change EStateM.bind x f s = _ ↔ _
  rw [EStateM.bind]
  cases x s <;> simp

theorem located_eq_error {p : Pos} {x : Lower α} {e : Fault} :
    located p x s = .error e t ↔ ∃ f, x s = .error f t ∧ f.locate p = e := by
  rw [located]
  cases x s <;> simp [and_comm]

/-- Whenever the step fails, the fault is not about a label. -/
structure Refuses (x : Lower α) : Prop where
  of_error : ∀ {s f t}, x s = .error f t → f.isUnlabelled

namespace Refuses

theorem of_total {x : Lower α} (hx : ∀ s, ∃ a t, x s = .ok a t) : Refuses x := by
  refine ⟨fun {s f t} h => ?_⟩
  obtain ⟨a, u, ha⟩ := hx s
  rw [ha] at h
  cases h

theorem bind {x : Lower α} {f : α → Lower β} (hx : Refuses x) (hf : ∀ a, Refuses (f a)) :
    Refuses (x >>= f) := by
  refine ⟨fun h => ?_⟩
  obtain h | ⟨a, u, _, h⟩ := bind_eq_error.mp h
  · exact hx.of_error h
  · exact (hf a).of_error h

theorem pure (a : α) : Refuses (Pure.pure a : Lower α) := of_total fun s => ⟨a, s, rfl⟩

theorem get : Refuses (get : Lower Draft) := of_total fun s => ⟨s, s, rfl⟩

theorem set (d : Draft) : Refuses (set d : Lower PUnit) := of_total fun _ => ⟨_, d, rfl⟩

theorem modify (f : Draft → Draft) : Refuses (modify f : Lower PUnit) :=
  of_total fun s => ⟨_, f s, rfl⟩

theorem modifyGet (f : Draft → α × Draft) : Refuses (modifyGet f : Lower α) :=
  of_total fun s => ⟨(f s).1, (f s).2, rfl⟩

theorem reject {d : Diagnostic} (hd : (Fault.rejected d).isUnlabelled) :
    Refuses (reject d : Lower α) := by
  refine ⟨fun h => ?_⟩
  cases h
  exact hd

theorem accept {r : Except Diagnostic α} (hr : Checks r) : Refuses (accept r) := by
  cases r with
  | error d => exact reject (hr.of_error rfl)
  | ok a => exact pure a

theorem located {p : Pos} {x : Lower α} (hx : Refuses x) : Refuses (located p x) := by
  refine ⟨fun h => ?_⟩
  obtain ⟨f, hf, rfl⟩ := located_eq_error.mp h
  rw [Fault.isUnlabelled_locate]
  exact hx.of_error hf

theorem contains (name : String) : Refuses (contains name) := get.bind fun _ => pure _

theorem declare (name : String) (ty : Ty) (init : Init) : Refuses (declare name ty init) :=
  get.bind fun _ => (accept (Variables.checks_declare ..)).bind fun _ => set _

theorem generate (kind : String) (ty : Ty) (init : Init) : Refuses (generate cx kind ty init) :=
  (modifyGet _).bind fun _ => (declare ..).bind fun _ => pure _

theorem resolve (name : String) : Refuses (resolve cx name) := get.bind fun _ => pure _

theorem typeOf (x : String) : Refuses (typeOf cx x) :=
  get.bind fun _ => accept (Variables.checks_typeOf ..)

theorem typesOf (xs : List String) : Refuses (typesOf cx xs) := by
  induction xs with
  | nil => exact pure _
  | cons x xs ih =>
      have hx : Lower.typesOf cx (x :: xs) =
        (do return (← Lower.typeOf cx x) :: (← Lower.typesOf cx xs)) :=
        List.mapM_cons
      rw [hx]
      exact (typeOf x).bind fun _ => ih.bind fun _ => pure _

end Refuses
end Lower
end StackScript
