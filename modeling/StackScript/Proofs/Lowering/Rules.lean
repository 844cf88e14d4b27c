import StackScript.Proofs.Purpose.Acts

namespace StackScript

mutual

def Expr.places : Expr → List Pos
  | .int p _ | .float p _ | .str p _ | .bool p _ | .null p | .name p _ | .other p _ => [p]
  | .member p e _ | .unary p _ e => p :: e.places
  | .subscript p left right | .binary p left _ right => p :: (left.places ++ right.places)
  | .call p e es | .compare p e _ es => p :: (e.places ++ placesAll es)
  | .logic p _ es => p :: placesAll es

def Expr.placesAll : List Expr → List Pos
  | [] => []
  | e :: es => e.places ++ placesAll es

end

mutual

def Stmt.places : Stmt → List Pos
  | .define p _ _ _ body => p :: placesAll body
  | .assign p target e | .update p target _ e => p :: (target.places ++ e.places)
  | .branch p test body orelse | .loop p test body orelse =>
    p :: (test.places ++ (placesAll body ++ placesAll orelse))
  | .ret p (some e) | .eval p e => p :: e.places
  | .ret p none | .global p _ | .imports p _ | .importsFrom p _ _ | .pass p | .forLoop p
  | .breakLoop p | .continueLoop p | .other p _ => [p]

def Stmt.placesAll : List Stmt → List Pos
  | [] => []
  | s :: ss => s.places ++ placesAll ss

end

theorem Expr.pos_mem_places (e : Expr) : e.pos ∈ e.places := by
  cases e <;> simp [pos, places]

theorem Stmt.pos_mem_places (s : Stmt) : s.pos ∈ s.places := by
  cases s with
  | ret p e => cases e <;> simp [pos, places]
  | _ => simp [pos, places]

def Expr.ident? : Expr → Option String
  | .name _ x => some x
  | _ => none

mutual

def Stmt.targets : Stmt → List String
  | .define _ _ _ _ body => targetsAll body
  | .assign _ target _ | .update _ target _ _ => target.ident?.toList
  | .branch _ _ body orelse | .loop _ _ body orelse => targetsAll body ++ targetsAll orelse
  | _ => []

def Stmt.targetsAll : List Stmt → List String
  | [] => []
  | s :: ss => s.targets ++ targetsAll ss

end

def Fault.pos? : Fault → Option Pos
  | .rejected d => d.pos
  | .dangling _ => none

theorem Fault.pos?_locate (f : Fault) {p q : Pos} (h : (f.locate p).pos? = some q) :
    f.pos? = some q ∨ q = p := by
  cases f with
  | dangling label => cases h
  | rejected d =>
      simp only [locate, pos?, Diagnostic.locate] at h ⊢
      split at h
      case isTrue => exact .inl h
      case isFalse =>
        cases hd : d.pos with
        | some r =>
            rw [hd] at h
            exact .inl h
        | none =>
            rw [hd] at h
            cases h
            exact .inr rfl

def Fault.clash? : Fault → Option String
  | .rejected d => match d.problem with
    | .declaration x reason => if reason = "already declared" then some x else none
    | _ => none
  | .dangling _ => none

theorem Fault.clash?_locate (f : Fault) (p : Pos) : (f.locate p).clash? = f.clash? := by
  cases f with
  | rejected d => rw [locate, Diagnostic.locate]; split <;> rfl
  | dangling => rfl

theorem Diagnostic.clash?_functionTwice (name : String) (types : List Ty) :
    (Fault.rejected (functionTwice name types)).clash? = none := by
  rw [Fault.clash?, functionTwice, of]
  refine if_neg fun h => ?_
  have hhead := congrArg (List.head? ∘ String.toList) h
  simp only [Function.comp_apply, String.toList_append] at hhead
  cases hhead

/-- A script is refused for something else than a name that is declared already, and the place is
one of these if there is one. -/
structure Diagnostic.Within (ps : List Pos) (d : Diagnostic) : Prop where
  place : ∀ p, d.pos = some p → p ∈ ps
  clash : (Fault.rejected d).clash? = none

theorem Diagnostic.Within.of_none {ps : List Pos} {d : Diagnostic} (hp : d.pos = none)
    (hc : (Fault.rejected d).clash? = none) : d.Within ps := by
  refine ⟨fun p h => ?_, hc⟩
  rw [hp] at h
  cases h

structure Finds {α : Type} (ps : List Pos) (r : Except Diagnostic α) : Prop where
  of_error : ∀ {d}, r = .error d → d.Within ps

namespace Finds

variable {α β : Type} {ps : List Pos}

theorem ok (a : α) : Finds ps (.ok a) := by
  refine ⟨fun h => ?_⟩
  cases h

theorem error {d : Diagnostic} (hp : d.pos = none) (hc : (Fault.rejected d).clash? = none) :
    Finds ps (.error d : Except _ α) := by
  refine ⟨fun h => ?_⟩
  cases h
  exact .of_none hp hc

theorem bind {r : Except Diagnostic α} {f : α → Except Diagnostic β} (hr : Finds ps r)
    (hf : ∀ a, Finds ps (f a)) :
    Finds ps (r >>= f) := by
  refine ⟨fun h => ?_⟩
  cases r with
  | error e => cases h; exact hr.of_error rfl
  | ok a => exact (hf a).of_error h

theorem mapM {f : α → Except Diagnostic β} (hf : ∀ a, Finds ps (f a)) (xs : List α) :
    Finds ps (xs.mapM f) := by
  induction xs with
  | nil => exact ok _
  | cons x xs ih =>
      rw [List.mapM_cons]
      exact (hf x).bind fun _ => ih.bind fun _ => ok _

theorem typeOf (vs : Variables) (c : Catalog) (name : String) : Finds ps (vs.typeOf c name) := by
  rw [Variables.typeOf]
  split
  · exact ok _
  · split
    · exact ok _
    · exact error rfl rfl

theorem returnType (fs : Functions) (name : String) (types : List Ty) :
    Finds ps (fs.returnType name types) := by
  rw [Functions.returnType]
  split
  · exact ok _
  · exact error rfl rfl

theorem add (fs : Functions) (f : Function) : Finds ps (fs.add f) := by
  rw [Functions.add]
  split
  · exact error rfl (Diagnostic.clash?_functionTwice ..)
  · exact ok _

/-- A number that is out of range is the only fault that has its place from the beginning. -/
theorem literal? {e : Expr} (h : e.places ⊆ ps) : Finds ps e.literal? := by
  cases e with
  | int p n =>
      rw [Expr.literal?]
      split
      · exact ok _
      · refine ⟨fun {d} hd => ⟨fun q hq => ?_, ?_⟩⟩
        · cases hd
          obtain hnone | rfl := Fault.pos?_locate (.rejected (.intRange n.toInt)) hq
          · cases hnone
          · exact h (Expr.pos_mem_places (.int q n))
        · cases hd
          exact Fault.clash?_locate (.rejected (.intRange n.toInt)) p
  | _ => exact ok _

variable (c : Catalog)

theorem annotationType (typeName : Option String) : Finds ps (Lower.annotationType c typeName) := by
  rw [Lower.annotationType]
  split
  · exact ok _
  · split
    · exact ok _
    · exact error rfl rfl

theorem paramType (p : Param) : Finds ps (Lower.paramType c p) := by
  rw [Lower.paramType]
  split
  · exact error rfl rfl
  · refine (annotationType c _).bind fun ty => ?_
    split
    · exact error rfl rfl
    · exact ok _

theorem signature (params : List Param) (returns : Option String) :
    Finds ps (Lower.signature c params returns) :=
  (mapM (paramType c) params).bind fun _ => (annotationType c returns).bind fun _ => ok _

end Finds

namespace Lower

/-- A step that cannot fail and declares no variable. -/
def Harmless {α : Type} (x : Lower α) : Prop :=
  ∀ s, ∃ a t, x s = .ok a t ∧ t.vars.declared = s.vars.declared ∧
    s.emitter.counter ≤ t.emitter.counter

namespace Harmless

variable {α : Type}

theorem pure (a : α) : Harmless (Pure.pure a : Lower α) := fun s => ⟨a, s, rfl, rfl, le_rfl⟩

theorem get : Harmless (get : Lower Draft) := fun s => ⟨s, s, rfl, rfl, le_rfl⟩

theorem note (e : Entry) : Harmless (note e) := fun _ => ⟨(), _, rfl, rfl, le_rfl⟩

theorem emit (block : List Instr) : Harmless (emit block) := fun _ => ⟨(), _, rfl, rfl, le_rfl⟩

theorem addEvent (name : String) : Harmless (addEvent name) := fun _ => ⟨(), _, rfl, rfl, le_rfl⟩

theorem freshLabel (kind : String) : Harmless (freshLabel kind) :=
  fun _ => ⟨_, _, rfl, rfl, Nat.le_succ _⟩

theorem namedLabel (name : String) : Harmless (namedLabel name) := by
  intro s
  refine ⟨_, { s with emitter := (s.emitter.namedLabel name).2 }, rfl, rfl, ?_⟩
  obtain ⟨_, _, he⟩ | ⟨_, he⟩ := s.emitter.namedLabel_cases name <;> rw [he]

theorem markAll (names : List String) : Harmless (modify fun s =>
    { s with vars := names.foldl Variables.markExported s.vars } : Lower Unit) := by
  intro s
  refine ⟨(), _, rfl, ?_, le_rfl⟩
  dsimp only
  induction names generalizing s with
  | nil => rfl
  | cons x xs ih =>
      rw [List.foldl_cons, ih { s with vars := s.vars.markExported x },
        Variables.declared_markExported]

end Harmless

inductive Declines (vs : Variables) (x : String) : Fault → Prop
  | known (h : vs.contains x) : Declines vs x (.rejected (.alreadyDeclared x))
  | void : Declines vs x (.rejected (.voidVariable x))

theorem Declines.of_declare {x : String} {ty : Ty} {init : Init} {s t : Draft} {f : Fault}
    (h : declare x ty init s = .error f t) : Declines s.vars x f := by
  obtain h | ⟨_, _, hg, h⟩ := bind_eq_error.mp h
  · cases h
  obtain ⟨rfl, rfl⟩ := get_eq_ok.mp hg
  obtain h | ⟨_, _, _, h⟩ := bind_eq_error.mp h
  · rw [Variables.declare] at h
    split at h
    case isTrue hx =>
      cases h
      exact .known hx
    case isFalse =>
      split at h
      · cases h
        exact .void
      · cases h
  · cases h

theorem Declines.of_generate {cx : Context} {kind : String} {ty : Ty} {init : Init}
    {s t : Draft} {f : Fault} (h : generate cx kind ty init s = .error f t) :
    Declines s.vars (cx.scope.qualifier ++ Names.generated s.emitter.counter kind) f := by
  obtain h | ⟨x, u, hx, h⟩ := bind_eq_error.mp h
  · cases h
  obtain ⟨rfl, rfl⟩ := modifyGet_eq_ok.mp hx
  obtain h | ⟨_, _, _, h⟩ := bind_eq_error.mp h
  · have hd := Declines.of_declare h
    exact hd
  · cases h

theorem bindLabel_fault {l : Nat} {s t : Draft} {f : Fault} (h : bindLabel l s = .error f t) :
    f.pos? = none ∧ f.clash? = none := by
  rw [bindLabel, Emitter.bind] at h
  cases hl : s.emitter.labels[l]? with
  | none =>
      rw [hl] at h
      cases h
      exact ⟨rfl, rfl⟩
  | some label =>
      cases ha : label.addr <;> simp only [hl, ha, Option.isSome] at h <;> cases h
      exact ⟨rfl, rfl⟩

/-- A property that steps have if their parts have it. Refusals are at these places, and the names
that are not generated are such as the script may declare. -/
structure Rules (ps : List Pos) (own : String → Prop) (Q : {α : Type} → Lower α → Prop) : Prop where
  harmless : ∀ {α} {x : Lower α}, Harmless x → Q x
  bindLabel : ∀ l, Q (bindLabel l)
  reject : ∀ {α d}, d.Within ps → Q (reject d : Lower α)
  declare : ∀ {x ty init}, own x → Q (declare x ty init)
  generate : ∀ {cx kind ty init}, kind ∈ Names.temporaries ++ Names.constants →
    Q (generate cx kind ty init)
  located : ∀ {α p} {x : Lower α}, p ∈ ps → Q x → Q (located p x)
  bind : ∀ {α β} {x : Lower α} {f : α → Lower β}, Q x →
    (∀ {a s t}, x s = .ok a t → Q (f a)) → Q (x >>= f)

namespace Rules

variable {α β : Type} {ps : List Pos} {own : String → Prop} {Q : {α : Type} → Lower α → Prop}
  {cx : Context} (K : Rules ps own @Q)
include K

theorem seq {x : Lower α} {f : α → Lower β} (hx : Q x) (hf : ∀ a, Q (f a)) : Q (x >>= f) :=
  K.bind hx fun _ => hf _

theorem pure (a : α) : Q (Pure.pure a : Lower α) := K.harmless (.pure a)

theorem get : Q (get : Lower Draft) := K.harmless .get

theorem note (e : Entry) : Q (note e) := K.harmless (.note e)

theorem emit (block : List Instr) : Q (emit block) := K.harmless (.emit block)

theorem freshLabel (kind : String) : Q (freshLabel kind) := K.harmless (.freshLabel kind)

theorem namedLabel (name : String) : Q (namedLabel name) := K.harmless (.namedLabel name)

theorem refuse {d : Diagnostic} (hp : d.pos = none) (hc : (Fault.rejected d).clash? = none) :
    Q (Lower.reject d : Lower α) := K.reject (.of_none hp hc)

theorem refuse_bind {d : Diagnostic} (hp : d.pos = none) (hc : (Fault.rejected d).clash? = none)
    (f : α → Lower β) :
    Q ((Lower.reject d : Lower α) >>= f) :=
  K.bind (K.refuse hp hc) fun h => (reject_eq_ok.mp h).elim

theorem accept {r : Except Diagnostic α} (hr : Finds ps r) : Q (accept r) := by
  cases r with
  | ok a => exact K.pure a
  | error d => exact K.reject (hr.of_error rfl)

theorem accept_bind {r : Except Diagnostic α} {f : α → Lower β} (hr : Finds ps r)
    (hf : ∀ a, r = .ok a → Q (f a)) :
    Q (Lower.accept r >>= f) := K.bind (K.accept hr) fun h => hf _ (accept_eq_ok.mp h).1

theorem contains (name : String) : Q (contains name) := K.seq K.get fun _ => K.pure _

theorem resolve (name : String) : Q (resolve cx name) := K.seq K.get fun _ => K.pure _

theorem typeOf (x : String) : Q (typeOf cx x) := K.seq K.get fun _ => K.accept (.typeOf ..)

theorem typesOf (xs : List String) : Q (typesOf cx xs) := by
  induction xs with
  | nil => exact K.pure _
  | cons x xs ih =>
      have hx : Lower.typesOf cx (x :: xs) =
        (do return (← Lower.typeOf cx x) :: (← Lower.typesOf cx xs)) :=
        List.mapM_cons
      rw [hx]
      exact K.seq (K.typeOf x) fun _ => K.seq ih fun _ => K.pure _

theorem hostCall (m : Method) (operands : List String) : Q (hostCall cx m operands) := by
  refine K.seq (K.note _) fun _ => ?_
  split
  · exact K.seq (K.emit _) fun _ => K.pure _
  · exact K.seq (K.generate (by decide)) fun _ => K.seq (K.emit _) fun _ => K.pure _

theorem operator (member left : String) (rest : List String) :
    Q (operator cx member left rest) := by
  refine K.seq (K.typeOf _) fun ty => K.seq (K.typesOf _) fun types => ?_
  split
  · exact K.hostCall ..
  · exact K.refuse rfl rfl

theorem methodCall (receiver member : String) (args : List String) :
    Q (methodCall cx receiver member args) := by
  refine K.seq (K.typeOf _) fun owner => K.seq (K.typesOf _) fun types => ?_
  split
  · exact K.hostCall ..
  · exact K.refuse rfl rfl

theorem staticCall (owner member : String) (args : List String) :
    Q (staticCall cx owner member args) := by
  refine K.seq (K.typesOf _) fun types => ?_
  split
  · exact K.hostCall ..
  · split
    · exact K.refuse rfl rfl
    · exact K.refuse rfl rfl

theorem outcome (ret : Ty) (discard : Bool) : Q (outcome cx ret discard) := by
  rw [Lower.outcome]
  split
  · exact K.pure _
  · split
    · exact K.pure _
    · exact K.seq (K.generate (by decide)) fun _ => K.pure _

theorem userCall (name : String) (args : List String) (discard : Bool) :
    Q (userCall cx name args discard) := by
  refine K.seq (K.typesOf _) fun types => K.seq (K.accept (.returnType ..)) fun ret =>
    K.seq (K.note _) fun _ =>
    K.seq (K.namedLabel _) fun entry => K.seq (K.freshLabel _) fun back =>
      K.seq (K.generate (by decide)) fun const => K.seq (K.emit _) fun _ =>
        K.seq (K.bindLabel back) fun _ =>
        K.seq (K.outcome ..) fun result => K.seq (K.emit _) fun _ => ?_
  split <;> exact K.pure _

theorem cast (name : String) (args : List String) : Q (cast cx name args) := by
  rw [Lower.cast.eq_def]
  split
  · exact K.seq (K.generate (by decide)) fun _ => K.seq (K.emit _) fun _ => K.pure _
  · exact K.refuse rfl rfl

theorem plainCall (name : String) (args : List String) (discard : Bool) :
    Q (plainCall cx name args discard) := by
  rw [Lower.plainCall]
  split
  · split
    · exact K.staticCall ..
    · exact K.refuse rfl rfl
  · split
    · exact K.cast ..
    · exact K.userCall ..

theorem literal {e : Expr} (h : e.places ⊆ ps) : Q (literal cx e) := by
  refine K.seq (K.accept (.literal? h)) fun found => ?_
  split
  · exact K.seq (K.generate (by decide)) fun _ => K.pure _
  · exact K.refuse rfl rfl

theorem boolean (b : Bool) : Q (boolean cx b) := by
  rw [Lower.boolean]
  split
  · exact K.seq (K.generate (by decide)) fun _ => K.seq (K.generate (by decide)) fun _ =>
      K.seq (K.emit _) fun _ => K.pure _
  · exact K.refuse rfl rfl

theorem nameOperand (ident : String) : Q (nameOperand cx ident) := by
  refine K.seq (K.resolve _) fun x => K.seq (K.contains _) fun known => ?_
  split
  · exact K.pure _
  · split
    · exact K.pure _
    · exact K.refuse rfl rfl

theorem staticOwner? (e : Expr) : Q (staticOwner? cx e) := by
  rw [Lower.staticOwner?.eq_def]
  split
  · refine K.seq (K.resolve _) fun x => K.seq (K.contains _) fun known => ?_
    split <;> exact K.pure _
  · exact K.pure _

theorem operandOf {e : Expr} {step : Lower Operand} (h : e.places ⊆ ps) (hs : Q step) :
    Q (operandOf e step) :=
  K.seq (K.note _) fun _ => K.located (h e.pos_mem_places) hs

theorem valueOf {e : Expr} {step : Lower Operand} (h : e.places ⊆ ps) (hs : Q step) :
    Q (valueOf e step) := by
  refine K.seq (K.operandOf h hs) fun o => ?_
  have hp := h e.pos_mem_places
  split
  · exact K.pure _
  · exact K.located hp (K.refuse rfl rfl)
  · exact K.located hp (K.refuse rfl rfl)

theorem twoValues {left right : Expr} {x y : Lower Operand} {f : String → String → Lower Operand}
    (hl : left.places ⊆ ps) (hr : right.places ⊆ ps) (hx : Q x) (hy : Q y) (hf : ∀ a b, Q (f a b)) :
    Q (do
      let a ← Lower.valueOf left x
      let b ← Lower.valueOf right y
      f a b) :=
  K.seq (K.valueOf hl hx) fun a => K.seq (K.valueOf hr hy) fun b => hf a b

mutual

theorem lowerExpr (discard : Bool) : ∀ e : Expr, e.places ⊆ ps → Q (lowerExpr cx discard e)
  | .int p n, h | .float p n, h | .str p n, h => by rw [Lower.lowerExpr]; exact K.literal h
  | .null p, h => by rw [Lower.lowerExpr]; exact K.literal h
  | .bool p b, _ => by rw [Lower.lowerExpr]; exact K.boolean b
  | .name p ident, _ => by rw [Lower.lowerExpr]; exact K.nameOperand ident
  | .call p callee args, h => by
      simp only [Expr.places, List.cons_subset, List.append_subset] at h
      obtain ⟨_, hcallee, hargs⟩ := h
      cases callee with
      | member q owner name =>
          simp only [Expr.places, List.cons_subset] at hcallee
          rw [Lower.lowerExpr]
          refine K.seq (lowerValues args hargs) fun xs => K.seq (K.staticOwner? _) fun found => ?_
          split
          · exact K.staticCall ..
          · exact K.seq (K.valueOf hcallee.2 (lowerExpr false owner hcallee.2)) fun x =>
              K.methodCall ..
      | name q ident =>
          rw [Lower.lowerExpr]
          exact K.seq (lowerValues args hargs) fun xs => K.plainCall ..
      | _ =>
          simp only [Lower.lowerExpr]
          exact K.seq (lowerValues args hargs) fun xs => K.refuse rfl rfl
  | .subscript p container index, h => by
      simp only [Expr.places, List.cons_subset, List.append_subset] at h
      obtain ⟨_, hc, hi⟩ := h
      rw [Lower.lowerExpr]
      exact K.twoValues hc hi (lowerExpr false container hc) (lowerExpr false index hi) fun x i =>
        K.methodCall ..
  | .unary p op operand, h => by
      simp only [Expr.places, List.cons_subset] at h
      rw [Lower.lowerExpr]
      split
      · exact K.refuse rfl rfl
      · exact K.seq (K.valueOf h.2 (lowerExpr false operand h.2)) fun x => K.operator ..
  | .binary p left op right, h => by
      simp only [Expr.places, List.cons_subset, List.append_subset] at h
      obtain ⟨_, hl, hr⟩ := h
      rw [Lower.lowerExpr]
      split
      · exact K.refuse rfl rfl
      · exact K.twoValues hl hr (lowerExpr false left hl) (lowerExpr false right hr) fun x y =>
          K.operator ..
  | .compare p left [op] [right], h => by
      simp only [Expr.places, Expr.placesAll, List.cons_subset, List.append_subset] at h
      obtain ⟨_, hl, hr, _⟩ := h
      rw [Lower.lowerExpr]
      split
      · exact K.refuse rfl rfl
      · exact K.twoValues hl hr (lowerExpr false left hl) (lowerExpr false right hr) fun x y =>
          K.operator ..
  | .logic p op [left, right], h => by
      simp only [Expr.places, Expr.placesAll, List.cons_subset, List.append_subset] at h
      obtain ⟨_, hl, hr, _⟩ := h
      rw [Lower.lowerExpr]
      exact K.twoValues hl hr (lowerExpr false left hl) (lowerExpr false right hr) fun x y =>
        K.operator ..
  | .compare p left [] _, _ | .compare p left (_ :: _ :: _) _, _ | .compare p left [_] [], _
  | .compare p left [_] (_ :: _ :: _), _ | .logic p op [], _ | .logic p op [_], _
  | .logic p op (_ :: _ :: _ :: _), _ | .member p owner name, _ | .other p kind, _ =>
      by simp only [Lower.lowerExpr]; exact K.refuse rfl rfl

theorem lowerValues : ∀ es : List Expr, Expr.placesAll es ⊆ ps → Q (lowerValues cx es)
  | [], _ => by rw [Lower.lowerValues]; exact K.pure _
  | e :: es, h => by
      simp only [Expr.placesAll, List.append_subset] at h
      rw [Lower.lowerValues]
      exact K.seq (K.valueOf h.1 (lowerExpr false e h.1)) fun x =>
        K.seq (lowerValues es h.2) fun xs => K.pure _

end

variable {e : Expr}

theorem expr (h : e.places ⊆ ps) : Q (expr cx e) := K.operandOf h (K.lowerExpr false e h)

theorem value (h : e.places ⊆ ps) : Q (value cx e) := K.valueOf h (K.lowerExpr false e h)

theorem assignName {name : String} (h : e.places ⊆ ps)
    (ho : own name ∧ own (Names.qualify cx.scope.qualifier name)) :
    Q (assignName cx name e) := by
  refine K.seq (K.expr h) fun src => K.bind (K.resolve name) fun {dst s t} hr => ?_
  have hdst : own dst := by
    obtain ⟨rfl, -⟩ := resolve_eq_ok.mp hr
    rw [Variables.resolve]
    split
    · exact ho.2
    · exact ho.1
  split
  · refine K.seq (K.contains _) fun known => ?_
    split
    · exact K.refuse rfl rfl
    · exact K.declare hdst
  · exact K.declare hdst
  · refine K.seq (K.typeOf _) fun ty => K.seq K.get fun d => ?_
    split
    · exact K.seq (K.declare hdst) fun _ => K.emit _
    · exact K.emit _
    · exact K.seq (K.typeOf _) fun _ => K.refuse_bind rfl rfl _

theorem assign {target : Expr} (ht : target.places ⊆ ps) (h : e.places ⊆ ps)
    (ho : ∀ x ∈ target.ident?, own x ∧ own (Names.qualify cx.scope.qualifier x)) :
    Q (assign cx target e) := by
  have hp := ht target.pos_mem_places
  cases target with
  | name p name => exact K.assignName h (ho name rfl)
  | subscript p container index =>
      simp only [Expr.places, List.cons_subset, List.append_subset] at ht
      obtain ⟨_, hc, hi⟩ := ht
      exact K.seq (K.value hc) fun x => K.seq (K.value hi) fun i => K.seq (K.value h) fun y =>
        K.seq (K.located hp (K.methodCall ..)) fun _ => K.pure _
  | _ => exact K.located hp (K.refuse rfl rfl)

theorem dataInit {target : Expr} (h : e.places ⊆ ps) (ho : ∀ x ∈ target.ident?, own x) :
    Q (dataInit target e) := by
  cases target with
  | name p name =>
      refine K.seq (K.contains _) fun known => ?_
      split
      · exact K.pure _
      · refine K.seq (K.accept (.literal? h)) fun found => ?_
        split
        · exact K.pure _
        · exact K.seq (K.declare (ho name rfl)) fun _ => K.pure _
  | _ => exact K.pure _

theorem condition {test : Expr} (h : test.places ⊆ ps) : Q (condition cx test) := by
  refine K.seq (K.value h) fun x => K.seq (K.typeOf _) fun ty => ?_
  split
  · exact K.pure _
  · exact K.located (h test.pos_mem_places) (K.refuse rfl rfl)

theorem returnValue (ret : Ty) (h : e.places ⊆ ps) : Q (returnValue cx ret e) := by
  refine K.seq (K.emit _) fun _ => K.seq (K.value h) fun x => K.seq (K.typeOf _) fun ty => ?_
  split
  · exact K.emit _
  · exact K.located (h e.pos_mem_places) (K.refuse rfl rfl)

theorem lowerReturn {e : Option Expr} (h : ∀ v, e = some v → v.places ⊆ ps) :
    Q (lowerReturn cx e) := by
  rw [Lower.lowerReturn.eq_def]
  split
  · exact K.refuse rfl rfl
  · exact K.emit _
  · exact K.refuse rfl rfl
  · split
    · exact K.emit _
    · exact K.refuse rfl rfl
  · split
    · exact K.refuse rfl rfl
    · exact K.returnValue _ (h _ rfl)

theorem effects (h : e.places ⊆ ps) : Q (effects cx e) := by
  cases e with
  | call p callee args =>
      exact K.seq (K.located (h (Expr.pos_mem_places _)) (K.lowerExpr true _ h)) fun _ => K.pure _
  | _ => exact K.seq (K.expr h) fun _ => K.pure _

mutual

theorem lowerStmt : ∀ st : Stmt, st.places ⊆ ps →
    (∀ x ∈ st.targets, own x ∧ own (Names.qualify cx.scope.qualifier x)) → Q (lowerStmt cx st)
  | .assign p target e, h, ho => by
      simp only [Stmt.places, List.cons_subset, List.append_subset] at h
      rw [Lower.lowerStmt]
      exact K.assign h.2.1 h.2.2 fun x hx => ho x (Option.mem_toList.mpr hx)
  | .update p target op e, h, ho => by
      simp only [Stmt.places, List.cons_subset, List.append_subset] at h
      obtain ⟨_, ht, he⟩ := h
      rw [Lower.lowerStmt]
      refine K.assign ht ?_ fun x hx => ho x (Option.mem_toList.mpr hx)
      simp only [Expr.places, List.cons_subset, List.append_subset]
      exact ⟨ht target.pos_mem_places, ht, he⟩
  | .branch p test body orelse, h, ho => by
      simp only [Stmt.places, List.cons_subset, List.append_subset] at h
      simp only [Stmt.targets, List.forall_mem_append] at ho
      obtain ⟨_, ht, hb, hr⟩ := h
      rw [Lower.lowerStmt]
      exact K.seq (K.freshLabel _) fun _ => K.seq (K.freshLabel _) fun _ =>
        K.seq (K.condition ht) fun _ =>
        K.seq (K.emit _) fun _ => K.seq (block body hb ho.1) fun _ => K.seq (K.emit _) fun _ =>
          K.seq (K.bindLabel _) fun _ => K.seq (block orelse hr ho.2) fun _ => K.bindLabel _
  | .loop p test body orelse, h, ho => by
      simp only [Stmt.places, List.cons_subset, List.append_subset] at h
      simp only [Stmt.targets, List.forall_mem_append] at ho
      obtain ⟨_, ht, hb, _⟩ := h
      rw [Lower.lowerStmt]
      split
      · exact K.seq (K.freshLabel _) fun _ => K.seq (K.freshLabel _) fun _ =>
          K.seq (K.bindLabel _) fun _ =>
          K.seq (K.condition ht) fun _ => K.seq (K.emit _) fun _ =>
            K.seq (block body hb ho.1) fun _ =>
            K.seq (K.emit _) fun _ => K.bindLabel _
      · exact K.refuse rfl rfl
  | .ret p e, h, _ => by
      rw [Lower.lowerStmt]
      refine K.lowerReturn fun v hv => ?_
      subst hv
      simp only [Stmt.places, List.cons_subset] at h
      exact h.2
  | .eval p e, h, _ => by
      simp only [Stmt.places, List.cons_subset] at h
      rw [Lower.lowerStmt]
      exact K.effects h.2
  | .global p names, _, _ => by rw [Lower.lowerStmt]; exact K.harmless (.markAll names)
  | .imports .., _, _ | .importsFrom .., _, _ | .pass _, _, _ =>
      by rw [Lower.lowerStmt]; exact K.pure _
  | .define .., _, _ | .forLoop _, _, _ | .breakLoop _, _, _ | .continueLoop _, _, _
  | .other .., _, _ => by
      rw [Lower.lowerStmt]; exact K.refuse rfl rfl

theorem block : ∀ ss : List Stmt, Stmt.placesAll ss ⊆ ps →
    (∀ x ∈ Stmt.targetsAll ss, own x ∧ own (Names.qualify cx.scope.qualifier x)) → Q (block cx ss)
  | [], _, _ => by rw [Lower.block]; exact K.pure _
  | st :: ss, h, ho => by
      simp only [Stmt.placesAll, List.append_subset] at h
      simp only [Stmt.targetsAll, List.forall_mem_append] at ho
      rw [Lower.block]
      exact K.seq (K.located (h.1 st.pos_mem_places)
        (K.seq (K.note _) fun _ => lowerStmt st h.1 ho.1)) fun _ =>
        block ss h.2 ho.2

end

theorem stmt {st : Stmt} (h : st.places ⊆ ps)
    (ho : ∀ x ∈ st.targets, own x ∧ own (Names.qualify cx.scope.qualifier x)) : Q (stmt cx st) :=
  K.seq (K.note _) fun _ => K.lowerStmt st h ho

variable {c : Catalog} {fs : Functions} {name : String} {params : List Param}
  {returns : Option String} {body : List Stmt} {st : Stmt}

theorem event (h : Stmt.placesAll body ⊆ ps)
    (ho : ∀ x ∈ Stmt.targetsAll body, own x ∧ own (Names.qualify name x)) :
    Q (event c fs name params body) :=
  K.seq (K.emit _) fun _ => K.seq (K.emit _) fun _ => K.seq (K.emit _) fun _ =>
    K.seq (K.block body h ho) fun _ =>
    K.emit _

theorem function (h : Stmt.placesAll body ⊆ ps)
    (ho : ∀ types ret, signature c params returns = .ok (types, ret) →
      ∀ x ∈ Stmt.targetsAll body, own x ∧ own (Names.qualify (Names.functionId name types) x)) :
    Q (function c fs name params returns body) := by
  refine K.accept_bind (.signature ..) fun (types, ret) hsig => ?_
  dsimp only
  split
  · exact K.refuse rfl rfl
  · exact K.seq (K.namedLabel _) fun _ => K.seq (K.bindLabel _) fun _ => K.seq (K.emit _) fun _ =>
      K.seq (K.block body h (ho types ret hsig)) fun _ => K.emit _

theorem topLevel (h : st.places ⊆ ps)
    (ho : ∀ x ∈ st.targets, own x ∧ own (Names.qualify (st.scope c).qualifier x)) :
    Q (topLevel c fs st) := by
  cases st with
  | define p name params returns body =>
      simp only [Stmt.places, List.cons_subset] at h
      rw [Lower.topLevel]
      split
      case isTrue he =>
        rw [Stmt.scope, Stmt.function?, if_pos he] at ho
        exact K.event h.2 ho
      case isFalse he =>
        refine K.function h.2 fun types ret hsig => ?_
        rw [Stmt.scope, Stmt.function?, if_neg he, hsig] at ho
        exact ho
  | assign p target e =>
      have hplaces := h
      simp only [Stmt.places, List.cons_subset, List.append_subset] at h
      rw [Lower.topLevel]
      refine K.seq (K.dataInit h.2.2 fun x hx => (ho x (Option.mem_toList.mpr hx)).1) fun done => ?_
      split
      · exact K.pure _
      · exact K.stmt hplaces ho
  | _ => exact K.stmt h ho

theorem declareAll {vars : List (String × Ty)} (ho : ∀ v ∈ vars, own v.1) :
    Q (declareAll vars) := by
  induction vars with
  | nil => exact K.pure _
  | cons v vars ih =>
      rw [List.forall_mem_cons] at ho
      exact K.seq (K.declare ho.1) fun _ => ih ho.2

theorem declareSlots (event : String) {slots : List (Slot × Ty)}
    (ho : ∀ slot ∈ slots, own slot.1.name) :
    Q (declareSlots event slots) := by
  induction slots with
  | nil => exact K.pure _
  | cons slot slots ih =>
      rw [List.forall_mem_cons] at ho
      rw [Lower.declareSlots]
      split
      · exact K.refuse_bind rfl rfl _
      · refine K.seq (K.contains _) fun known => ?_
        split
        · exact K.seq (K.declare ho.1) fun _ => ih ho.2
        · exact ih ho.2

theorem declareEvent (hs : ∀ slots, c.event? name = some slots → ∀ slot ∈ slots, own slot.name)
    (hp : ∀ param ∈ params, own (Names.qualify name param.name)) :
    Q (declareEvent c name params returns) := by
  have hend (types : List Ty) : Q (do
      Lower.declareAll ((params.map fun param => Names.qualify name param.name).zip types)
      Lower.addEvent name
      Lower.note (.event name types)) := by
    refine K.seq (K.declareAll fun v hv => ?_) fun _ =>
      K.seq (K.harmless (.addEvent name)) fun _ => K.note _
    obtain ⟨param, hparam, hv⟩ := List.mem_map.mp (List.of_mem_zip hv).1
    exact hv ▸ hp param hparam
  refine K.accept_bind (.signature ..) fun (types, ret) _ => ?_
  dsimp only
  split
  · exact K.refuse_bind rfl rfl _
  · split
    case h_1 slots hev =>
      split
      · exact K.refuse_bind rfl rfl _
      · exact K.seq (K.declareSlots name fun slot h => hs slots hev _ (List.of_mem_zip h).1)
          fun _ => hend types
    case h_2 =>
      split
      · exact K.refuse_bind rfl rfl _
      · exact hend types

theorem declareFunction (hp : ∀ types ret, signature c params returns = .ok (types, ret) →
      ∀ param ∈ params, own (Names.qualify (Names.functionId name types) param.name)) :
    Q (declareFunction c fs name params returns) := by
  refine K.accept_bind (.signature ..) fun (types, ret) hsig => K.seq (K.accept (.add ..)) fun _ =>
    K.seq (K.declareAll fun v hv => ?_) fun _ => K.seq (K.note _) fun _ => K.pure _
  obtain ⟨param, hparam, hv⟩ := List.mem_map.mp (List.of_mem_zip hv).1
  exact hv ▸ hp types ret hsig param hparam

theorem definition (p : Pos) (body : List Stmt)
    (hs : ∀ v ∈ (Stmt.define p name params returns body).slots c, own v.1)
    (hp : ∀ x ∈ (Stmt.define p name params returns body).paramVars c, own x) : Q (do
      if Names.isEvent name then
        if (← MonadState.get).emitter.events.contains name then Lower.reject (.eventTwice name)
        Lower.declareEvent c name params returns
        return fs
      else Lower.declareFunction c fs name params returns) := by
  simp only [Stmt.paramVars, Stmt.params, List.forall_mem_map] at hp
  split
  case isTrue he =>
    rw [Stmt.slots, if_pos he, List.forall_mem_map] at hs
    rw [Stmt.scope, Stmt.function?, if_pos he] at hp
    have hdeclare : Q (Lower.declareEvent c name params returns) :=
      K.declareEvent (fun slots hev slot hslot => hs slot (by rw [hev]; exact hslot)) hp
    refine K.seq K.get fun d => ?_
    split
    · exact K.refuse_bind rfl rfl _
    · exact K.seq hdeclare fun _ => K.pure _
  case isFalse he =>
    refine K.declareFunction fun types ret hsig => ?_
    rw [Stmt.scope, Stmt.function?, if_neg he, hsig] at hp
    exact hp

theorem forIn {xs : List α} {f : α → β → Lower (ForInStep β)}
    (hf : ∀ x ∈ xs, ∀ b, Q (f x b)) (b : β) :
    Q (forIn xs b f) := by
  induction xs generalizing b with
  | nil => exact K.pure b
  | cons x xs ih =>
      rw [List.forall_mem_cons] at hf
      rw [List.forIn_cons]
      refine K.seq (hf.1 b) fun r => ?_
      split
      · exact K.pure _
      · exact ih hf.2 _

theorem declareReserved (ho : ∀ v ∈ c.reserved, own v.1) : Q (declareReserved c) := by
  rw [Catalog.reserved, List.forall_mem_cons, List.forall_mem_map] at ho
  refine K.seq (K.declare ho.1) fun _ => K.seq (K.forIn (fun v hv _ => ?_) _) fun _ => K.pure _
  dsimp only
  split
  case isTrue ht =>
    exact K.seq (K.declare (ho.2 v (List.mem_filter.mpr ⟨hv, ht⟩))) fun _ => K.pure _
  case isFalse => exact K.pure _

variable {ss : List Stmt}

theorem declareDefinitions (h : Stmt.placesAll ss ⊆ ps) (hs : ∀ st ∈ ss, ∀ v ∈ st.slots c, own v.1)
    (hp : ∀ st ∈ ss, ∀ x ∈ st.paramVars c, own x) : Q (declareDefinitions c fs ss) := by
  induction ss generalizing fs with
  | nil => exact K.pure _
  | cons st ss ih =>
      rw [Stmt.placesAll, List.append_subset] at h
      rw [List.forall_mem_cons] at hs hp
      have hrest (fs : Functions) : Q (Lower.declareDefinitions c fs ss) := ih h.2 hs.2 hp.2
      cases st with
      | define p name params returns body =>
          exact K.seq (K.located (h.1 (Stmt.pos_mem_places _)) (K.definition p body hs.1 hp.1))
            hrest
      | _ => exact hrest fs

theorem topLevelAll (h : Stmt.placesAll ss ⊆ ps)
    (ho : ∀ st ∈ ss, ∀ x ∈ st.targets, own x ∧ own (Names.qualify (st.scope c).qualifier x)) :
    Q (topLevelAll c fs ss) := by
  induction ss with
  | nil => exact K.pure _
  | cons st ss ih =>
      rw [Stmt.placesAll, List.append_subset] at h
      rw [List.forall_mem_cons] at ho
      exact K.seq (K.located (h.1 st.pos_mem_places) (K.topLevel h.1 ho.1)) fun _ => ih h.2 ho.2

end Rules
end Lower
end StackScript
