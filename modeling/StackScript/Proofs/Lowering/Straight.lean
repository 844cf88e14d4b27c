import StackScript.Proofs.Lowering.Labels

namespace StackScript

/-- Code without branches. A call goes to the label that the finished draft `F` shares for its
callee, with an argument for each parameter, and takes a result off the stack if the callee
has one. -/
inductive Straight (fs : Functions) (F : Draft) : List Instr → Prop
  | nil : Straight fs F []
  | append {xs ys} (hx : Straight fs F xs) (hy : Straight fs F ys) : Straight fs F (xs ++ ys)
  | assign (dst src) : Straight fs F (Block.assign dst src)
  | invoke (symbol operands) : Straight fs F (Block.invoke symbol operands)
  | call {f : Block.Frame} {g : Function} {result} (hg : g ∈ fs)
      (he : F.emitter.named.lookup (Names.functionId g.name g.types) = some f.entry)
      (hl : f.args.length = g.types.length) (hr : result = .none ↔ g.ret.isVoid)
      (ht : ∀ y, result = .into y → F.Typed y g.ret) :
      Straight fs F (Block.enter f ++ Block.leave result f.env f.returnSlot)

theorem Functions.find?_eq_some {fs : Functions} {name : String} {types : List Ty} {f : Function}
    (h : fs.find? name types = some f) : f ∈ fs ∧ f.name = name ∧ f.types = types := by
  have hp := List.find?_some h
  simp only [decide_eq_true_eq] at hp
  exact ⟨List.mem_of_find?_eq_some h, hp⟩

theorem Functions.returnType_eq_ok {fs : Functions} {name : String} {types : List Ty} {ret : Ty}
    (h : fs.returnType name types = .ok ret) :
    ∃ f ∈ fs, f.name = name ∧ f.types = types ∧ f.ret = ret := by
  rw [returnType] at h
  cases hf : fs.find? name types with
  | none => rw [hf] at h; cases h
  | some f =>
      rw [hf] at h
      cases h
      obtain ⟨hmem, hname, htypes⟩ := find?_eq_some hf
      exact ⟨f, hmem, hname, htypes, rfl⟩

namespace Draft

def Advances (fs : Functions) (s t : Draft) : Prop :=
  ∃ code, Emits s t code ∧ ∀ F, Moves t F → Straight fs F code

variable {fs : Functions}

instance : Closed (Advances fs) where
  still h := ⟨[], h.emits, fun _ _ => .nil⟩
  trans h k := by
    obtain ⟨xs, hx, sx⟩ := h
    obtain ⟨ys, hy, sy⟩ := k
    exact ⟨xs ++ ys, hx.trans hy, fun F hF => .append (sx F (hy.moves.trans hF)) (sy F hF)⟩

end Draft

def Block.Outcome.declares (ret : Ty) : Block.Outcome → List Variable
  | .into x => [⟨x, ret, .null⟩]
  | _ => []

/-- A relation that the lowering of expressions keeps to, since its steps with code do. -/
class Draft.ExprClosed (cx : Context) (R : Draft → Draft → Prop) : Prop extends Draft.Closed R where
  hostCall : ∀ {kind owner name types m}, cx.catalog.method? kind owner name types = some m →
    ∀ operands, Lower.Along R (Lower.hostCall cx m operands)
  cast : ∀ name args, Lower.Along R (Lower.cast cx name args)
  boolean : ∀ b, Lower.Along R (Lower.boolean cx b)
  userCall : ∀ name args discard, Lower.Along R (Lower.userCall cx name args discard)

theorem Expr.literal?_ne_label {e : Expr} {ty : Ty} {init : Init}
    (h : e.literal? = .ok (some (ty, init))) :
    ∀ id, init ≠ .label id := by
  rintro id rfl
  cases e with
  | int p n =>
      rw [literal?] at h
      split at h <;> cases h
  | _ => cases h

theorem Expr.literal?_settled {e : Expr} {ty : Ty} {init : Init}
    (h : e.literal? = .ok (some (ty, init))) (x : String) : Variable.Settled ⟨x, ty, init⟩ := by
  cases e with
  | int p n =>
      rw [literal?] at h
      split at h
      · cases h; trivial
      · cases h
  | float | str | null => cases h; trivial
  | _ => cases h

namespace Lower

open Draft

theorem staticMember?_eq_some {cx : Context} {owner member : String} {types : List Ty} {m : Method}
    (h : staticMember? cx owner member types = some m) :
    ∃ kind, kind ≠ .method ∧ cx.catalog.method? kind owner member types = some m := by
  obtain h | ⟨_, h⟩ := Option.or_eq_some_iff.mp h
  · exact ⟨.static, by simp, h⟩
  · exact ⟨.ctor, by simp, h⟩

namespace Along

variable {cx : Context} {R : Draft → Draft → Prop} [ExprClosed cx R]

theorem operator (member left : String) (rest : List String) :
    Along R (operator cx member left rest) := by
  refine .bind (typeOf _) fun ty => .bind (typesOf _) fun types => ?_
  split
  · exact ExprClosed.hostCall ‹_› _
  · exact reject rfl

theorem methodCall (receiver member : String) (args : List String) :
    Along R (methodCall cx receiver member args) := by
  refine .bind (typeOf _) fun owner => .bind (typesOf _) fun types => ?_
  split
  · exact ExprClosed.hostCall ‹_› _
  · exact reject rfl

theorem staticCall (owner member : String) (args : List String) :
    Along R (staticCall cx owner member args) := by
  refine .bind (typesOf _) fun types => ?_
  split
  case h_1 m hm =>
    obtain ⟨kind, _, hm⟩ := staticMember?_eq_some hm
    exact ExprClosed.hostCall hm _
  case h_2 =>
    refine reject ?_
    split <;> rfl

theorem plainCall (name : String) (args : List String) (discard : Bool) :
    Along R (plainCall cx name args discard) := by
  rw [Lower.plainCall]
  split
  · split
    · exact staticCall ..
    · exact reject rfl
  · split
    · exact ExprClosed.cast ..
    · exact ExprClosed.userCall ..

omit [ExprClosed cx R] in
theorem literal [Closed R] (e : Expr) : Along R (literal cx e) := by
  refine .accept_bind (Expr.checks_literal? e) fun found hfound => ?_
  split
  · exact .bind (generate (Expr.literal?_settled hfound)) fun _ => pure _
  · exact reject rfl

omit [ExprClosed cx R] in
theorem nameOperand [Closed R] (ident : String) : Along R (nameOperand cx ident) := by
  refine .bind (resolve _) fun x => .bind (contains _) fun known => ?_
  split
  · exact pure _
  · split
    · exact pure _
    · exact reject rfl

theorem staticOwner? (e : Expr) : Along R (staticOwner? cx e) := by
  rw [Lower.staticOwner?.eq_def]
  split
  · refine .bind (resolve _) fun x => .bind (contains _) fun known => ?_
    split <;> exact pure _
  · exact pure _

omit [ExprClosed cx R] in
theorem operandOf [Closed R] {e : Expr} {step : Lower Operand} (h : Along R step) :
    Along R (operandOf e step) := .bind (note _) fun _ => located h

omit [ExprClosed cx R] in
theorem valueOf [Closed R] {e : Expr} {step : Lower Operand} (h : Along R step) :
    Along R (valueOf e step) := by
  refine .bind (operandOf h) fun o => ?_
  split
  · exact pure _
  · exact located (reject rfl)
  · exact located (reject rfl)

mutual

theorem lowerExpr (discard : Bool) : ∀ e : Expr, Along R (lowerExpr cx discard e)
  | .int p n | .float p n | .str p n => by rw [Lower.lowerExpr]; exact literal _
  | .null p => by rw [Lower.lowerExpr]; exact literal _
  | .bool p b => by rw [Lower.lowerExpr]; exact ExprClosed.boolean _
  | .name p ident => by rw [Lower.lowerExpr]; exact nameOperand _
  | .call p callee args => by
      cases callee with
      | member q owner name =>
          rw [Lower.lowerExpr]
          refine .bind (lowerValues args) fun xs => .bind (staticOwner? _) fun found => ?_
          split
          · exact staticCall ..
          · exact .bind (valueOf (lowerExpr false owner)) fun x => methodCall ..
      | name q ident =>
          rw [Lower.lowerExpr]
          exact .bind (lowerValues args) fun xs => plainCall ..
      | _ =>
          simp only [Lower.lowerExpr]
          exact .bind (lowerValues args) fun xs => reject rfl
  | .subscript p container index => by
      rw [Lower.lowerExpr]
      exact .bind (valueOf (lowerExpr false container)) fun x =>
        .bind (valueOf (lowerExpr false index)) fun i => methodCall ..
  | .unary p op operand => by
      rw [Lower.lowerExpr]
      split
      · exact reject rfl
      · exact .bind (valueOf (lowerExpr false operand)) fun x => operator ..
  | .binary p left op right => by
      rw [Lower.lowerExpr]
      split
      · exact reject rfl
      · exact .bind (valueOf (lowerExpr false left)) fun x =>
          .bind (valueOf (lowerExpr false right)) fun y => operator ..
  | .compare p left [op] [right] => by
      rw [Lower.lowerExpr]
      split
      · exact reject rfl
      · exact .bind (valueOf (lowerExpr false left)) fun x =>
          .bind (valueOf (lowerExpr false right)) fun y => operator ..
  | .logic p op [left, right] => by
      rw [Lower.lowerExpr]
      exact .bind (valueOf (lowerExpr false left)) fun x =>
        .bind (valueOf (lowerExpr false right)) fun y => operator ..
  | .compare p left [] _ | .compare p left (_ :: _ :: _) _ | .compare p left [_] []
  | .compare p left [_] (_ :: _ :: _) | .logic p op [] | .logic p op [_]
  | .logic p op (_ :: _ :: _ :: _) | .member p owner name | .other p kind => by
      simp only [Lower.lowerExpr]
      exact reject rfl

theorem lowerValues : ∀ es : List Expr, Along R (lowerValues cx es)
  | [] => by rw [Lower.lowerValues]; exact pure _
  | e :: es => by
      rw [Lower.lowerValues]
      exact .bind (valueOf (lowerExpr false e)) fun x => .bind (lowerValues es) fun xs => pure _

end

theorem expr (e : Expr) : Along R (expr cx e) := operandOf (lowerExpr false e)

theorem value (e : Expr) : Along R (value cx e) := valueOf (lowerExpr false e)

end Along

/-- A call that is lowered from `s` to `t`: the return constant `k` is there before the code that
enters the callee, and its label `back` is bound behind that code. -/
structure Site (cx : Context) (g : Function) (k : String) (args : List String) (entry back : Nat)
    (r : Block.Outcome) (s s₁ s₂ t : Draft) : Prop where
  callee : g ∈ cx.functions
  types : List.Forall₂ (fun x ty => s.vars.typeOf cx.catalog x = .ok ty) args g.types
  outcome : r = .none ↔ g.ret.isVoid
  begins : Emits s s₁ []
  new : s.vars.contains k = false
  const : s₁.vars.declared = s.vars.declared ++ [⟨k, .uint32, .label back⟩]
  named : s₁.emitter.named.lookup (Names.functionId g.name g.types) = some entry
  enter : Emits s₁ s₂ (Block.enter ⟨Names.returnAddress, cx.scope.env, k, args, entry⟩)
  bound : s₂.Bound back s₂.emitter.pc
  vars : s₂.vars = s₁.vars
  leave : Emits s₂ t (Block.leave r cx.scope.env Names.returnAddress)
  result : t.vars.declared = s₂.vars.declared ++ r.declares g.ret
  fresh : ∀ x, r = .into x → s₂.vars.contains x = false

section

variable {cx : Context} {g : Function} {k : String} {args : List String} {entry back : Nat}
  {r : Block.Outcome} {s s₁ s₂ t : Draft} (S : Site cx g k args entry back r s s₁ s₂ t)
include S

theorem Site.arity : args.length = g.types.length := S.types.length_eq

theorem Site.emits : Emits s t (Block.enter ⟨Names.returnAddress, cx.scope.env, k, args, entry⟩ ++
    Block.leave r cx.scope.env Names.returnAddress) :=
  S.begins.skip (S.enter.trans S.leave)

theorem Site.typed_const : s₁.Typed k .uint32 := typed_of_new S.new S.const

theorem Site.typed_result {y : String} (hr : r = .into y) : t.Typed y g.ret := by
  have hresult := S.result
  rw [hr] at hresult
  exact typed_of_new (S.fresh y hr) hresult

end

namespace Along

section

variable {cx : Context} {R : Draft → Draft → Prop} [Closed R]
  (hi : ∀ symbol operands, Along R (emit (Block.invoke symbol operands)))
include hi

theorem hostCall (m : Method) (operands : List String) : Along R (hostCall cx m operands) := by
  refine .bind (note _) fun _ => ?_
  split
  · exact .bind (hi ..) fun _ => pure _
  · exact .bind (temp ..) fun _ => .bind (hi ..) fun _ => pure _

theorem boolean (b : Bool) : Along R (boolean cx b) := by
  rw [Lower.boolean]
  split
  · exact .bind (generate fun _ => trivial) fun _ => .bind (temp ..) fun _ =>
      .bind (hi ..) fun _ => pure _
  · exact reject rfl

end

theorem cast {cx : Context} {R : Draft → Draft → Prop} [Closed R]
    (ha : ∀ dst src, Along R (emit (Block.assign dst src))) (name : String) (args : List String) :
    Along R (cast cx name args) := by
  rw [Lower.cast.eq_def]
  split
  · exact .bind (temp ..) fun _ => .bind (ha ..) fun _ => pure _
  · exact reject rfl

end Along

/-- Only a result that is wanted gets a variable. -/
theorem outcome_cases {cx : Context} {ret : Ty} {discard : Bool} {r : Block.Outcome} {s t : Draft}
    (h : outcome cx ret discard s = .ok r t) :
    (ret.isVoid ∧ r = .none ∧ s = t) ∨ (ret.isVoid = false ∧ discard ∧ r = .discard ∧ s = t) ∨
      ret.isVoid = false ∧ discard = false ∧ ∃ x, r = .into x ∧
      temp cx "ret_value" ret s = .ok x t := by
  rw [outcome] at h
  split at h
  case isTrue hv =>
    obtain ⟨rfl, rfl⟩ := pure_eq_ok.mp h
    exact .inl ⟨hv, rfl, rfl⟩
  case isFalse hv =>
    rw [Bool.not_eq_true] at hv
    split at h
    case isTrue hd =>
      obtain ⟨rfl, rfl⟩ := pure_eq_ok.mp h
      exact .inr (.inl ⟨hv, hd, rfl, rfl⟩)
    case isFalse hd =>
      obtain ⟨x, u, hx, hp⟩ := bind_eq_ok.mp h
      obtain ⟨rfl, rfl⟩ := pure_eq_ok.mp hp
      exact .inr (.inr ⟨hv, by simpa using hd, x, rfl, hx⟩)

theorem outcome_eq_ok {cx : Context} {ret : Ty} {discard : Bool} {r : Block.Outcome} {s t : Draft}
    (h : outcome cx ret discard s = .ok r t) :
    Emits s t [] ∧ (r = .none ↔ ret.isVoid) ∧ t.vars.declared = s.vars.declared ++ r.declares ret ∧
      ∀ x, r = .into x → s.vars.contains x = false := by
  obtain ⟨hv, rfl, rfl⟩ | ⟨hv, _, rfl, rfl⟩ | ⟨hv, _, x, rfl, hx⟩ := outcome_cases h
  · exact ⟨.refl s, by simp [hv], by simp [Block.Outcome.declares], by simp⟩
  · exact ⟨.refl s, by simp [hv], by simp [Block.Outcome.declares], by simp⟩
  · obtain ⟨_, hnew, hu⟩ := generate_eq_ok hx
    refine ⟨generate_emits hx, by simp [hv], by rw [hu, Block.Outcome.declares], fun y hy => ?_⟩
    cases hy
    exact hnew

theorem hostCall_steps {cx : Context} {m : Method} {xs : List String} {o : Operand} {s t : Draft}
    (h : hostCall cx m xs s = .ok o t) :
    ∃ u, note (.hostCall m.symbol) s = .ok () u ∧
      (m.ret.isVoid ∧ o = .nothing ∧ emit (Block.invoke m.symbol xs) u = .ok () t ∨
        m.ret.isVoid = false ∧ ∃ x v, o = .var x ∧
          generate cx "extern" m.ret .null u = .ok x v ∧
          emit (Block.invoke m.symbol (xs ++ [x])) v = .ok () t) := by
  obtain ⟨_, u, hn, h⟩ := bind_eq_ok.mp h
  refine ⟨u, hn, ?_⟩
  split at h
  case isTrue hv =>
    obtain ⟨_, _, he, hp⟩ := bind_eq_ok.mp h
    obtain ⟨rfl, rfl⟩ := pure_eq_ok.mp hp
    exact .inl ⟨hv, rfl, he⟩
  case isFalse hv =>
    simp only [bind_eq_ok, pure_eq_ok] at h
    obtain ⟨x, v, hx, _, _, he, rfl, rfl⟩ := h
    exact .inr ⟨by simpa using hv, x, v, rfl, hx, he⟩

theorem cast_steps {cx : Context} {name x : String} {o : Operand} {s t : Draft}
    (h : cast cx name [x] s = .ok o t) :
    ∃ y u, o = .var y ∧ generate cx "cast" (.named name) .null s = .ok y u ∧
      emit (Block.assign y x) u = .ok () t := by
  simp only [Lower.cast, bind_eq_ok, pure_eq_ok] at h
  obtain ⟨y, u, hy, _, _, he, rfl, rfl⟩ := h
  exact ⟨y, u, rfl, hy, he⟩

theorem userCall_steps {cx : Context} {name : String} {args : List String} {discard : Bool}
    {o : Operand} {s t : Draft} (h : userCall cx name args discard s = .ok o t) :
    ∃ g k entry back r u₁ s₁ u₂ s₂ u₃, Site cx g k args entry back r s s₁ s₂ t ∧ g.name = name ∧
      o = (match r with | .into x => .var x | _ => .nothing) ∧ Quiet s u₁ ∧
      generate cx "const_ret_addr" .uint32 (.label back) u₁ = .ok k s₁ ∧
      emit (Block.enter ⟨Names.returnAddress, cx.scope.env, k, args, entry⟩) s₁ = .ok () u₂ ∧
      Quiet u₂ s₂ ∧ outcome cx g.ret discard s₂ = .ok r u₃ ∧
      emit (Block.leave r cx.scope.env Names.returnAddress) u₃ = .ok () t := by
  simp only [Lower.userCall, bind_eq_ok, accept_eq_ok, typesOf_eq_ok, pure_eq_ok] at h
  obtain ⟨types, _, ⟨htypes, rfl⟩, ret, _, ⟨hret, rfl⟩, _, v₁, hnote, entry, v₂, hentry,
    back, u₁, hback, k, s₁, hk, _, u₂, henter, _, s₂, hbind, r, u₃, hr, _, _, hleave, ho, rfl⟩ := h
  obtain ⟨g, hg, rfl, rfl, rfl⟩ := Functions.returnType_eq_ok hret
  have qs : Quiet s u₁ :=
    (note_quiet hnote).trans ((namedLabel_quiet hentry).trans (freshLabel_quiet hback))
  have qb := bindLabel_quiet hbind
  have ek := generate_emits hk
  have hnamed := (namedLabel_emits hentry).2
  obtain ⟨_, hknew, hkvars⟩ := generate_eq_ok hk
  obtain ⟨er, hnone, hrvars, hrnew⟩ := outcome_eq_ok hr
  refine ⟨g, k, entry, back, r, u₁, s₁, u₂, s₂, u₃,
    ⟨hg, htypes, hnone, qs.emits.skip ek, qs.emits.moves.new hknew, ?_,
      (Moves.grows ((freshLabel_emits hback).1.skip ek).moves).named hnamed,
      (emit_emits henter).still qb.emits, ?_,
    by rw [bindLabel_vars hbind, emit_vars henter], er.skip (emit_emits hleave), ?_, hrnew⟩, rfl,
    ho.symm, qs, hk, henter, qb, hr, hleave⟩
  · rw [hkvars]
    exact congrArg (· ++ _) qs.declared
  · rw [qb.emits.silent]
    exact (bindLabel_emits hbind).2.1
  · rw [emit_vars hleave, hrvars]

theorem userCall_eq_ok {cx : Context} {name : String} {args : List String} {discard : Bool}
    {o : Operand} {s t : Draft} (h : userCall cx name args discard s = .ok o t) :
    ∃ g k entry back r s₁ s₂, Site cx g k args entry back r s s₁ s₂ t ∧ g.name = name ∧
      o = (match r with | .into x => .var x | _ => .nothing) := by
  obtain ⟨g, k, entry, back, r, _, s₁, _, s₂, _, S, hname, ho, _⟩ := userCall_steps h
  exact ⟨g, k, entry, back, r, s₁, s₂, S, hname, ho⟩

theorem Refuses.userCall {cx : Context} (name : String) (args : List String) (discard : Bool) :
    Refuses (userCall cx name args discard) := by
  refine (typesOf _).bind fun types => (accept (Functions.checks_returnType ..)).bind fun ret =>
    (modify _).bind fun _ => (modifyGet _).bind fun entry => ⟨fun {s f t} h => ?_⟩
  have hend (r : Block.Outcome) : Refuses (do
      Lower.emit (Block.leave r cx.scope.env Names.returnAddress)
      return match r with
        | .into x => Operand.var x
        | _ => .nothing) := (modify _).bind fun _ => pure _
  obtain h | ⟨back, s₁, hback, h⟩ := bind_eq_error.mp h
  · exact (modifyGet _).of_error h
  obtain h | ⟨k, s₂, hk, h⟩ := bind_eq_error.mp h
  · exact (generate ..).of_error h
  obtain h | ⟨_, s₃, henter, h⟩ := bind_eq_error.mp h
  · exact (modify _).of_error h
  obtain h | ⟨_, s₄, _, h⟩ := bind_eq_error.mp h
  · -- the label was made just before, and nothing was bound in between
    have hm := (generate_shelters hk).trans (emit_shelters henter)
    exact absurd h (bindLabel_ne_error ((freshLabel_open hback).shelters hm))
  obtain h | ⟨r, s₅, _, h⟩ := bind_eq_error.mp h
  · exact (Along.outcome (R := Still) ..).of_error h
  · exact (hend r).of_error h

namespace Along

variable {cx : Context}

theorem userCall (name : String) (args : List String) (discard : Bool) :
    Along (Advances cx.functions) (userCall cx name args discard) := by
  refine ⟨.userCall .., fun {s o t} h => ?_⟩
  obtain ⟨g, k, entry, back, r, s₁, s₂, S, _⟩ := userCall_eq_ok h
  refine ⟨_, S.emits, fun F hF => .call S.callee ?_ S.arity S.outcome fun y hr => ?_⟩
  · exact (Moves.grows ((S.enter.trans S.leave).moves.trans hF)).named S.named
  · exact (S.typed_result hr).moves hF

theorem userCall_shelters (name : String) (args : List String) (discard : Bool) :
    Along Shelters (Lower.userCall cx name args discard) := by
  refine ⟨.userCall .., fun {s o t} h => ?_⟩
  simp only [Lower.userCall, bind_eq_ok, accept_eq_ok, typesOf_eq_ok, pure_eq_ok] at h
  obtain ⟨types, _, ⟨-, rfl⟩, ret, _, ⟨-, rfl⟩, _, v₁, hnote, entry, v₂, hentry, back, u₁, hback,
    k, s₁, hk, _, u₂, henter, _, s₂, hbind, r, u₃, hr, _, _, hleave, -, rfl⟩ := h
  have hnoted : Shelters s v₁ := (Along.note _).of_ok hnote
  have hstart := hnoted.trans (namedLabel_shelters hentry)
  have hto := (generate_shelters hk).trans (Lower.emit_shelters henter)
  have hback' : Shelters v₂ u₁ := (Along.freshLabel _).of_ok hback
  have hsite : Shelters v₂ s₂ := by
    refine bindLabel_shelters (hback'.trans hto) (freshLabel_emits hback).2.1.ge
      (fun hs => ?_) hbind
    exact freshLabel_private hback hs (hto.moves.trans (bindLabel_emits hbind).1.moves)
  have hend : Shelters s₂ u₃ := (Along.outcome ..).of_ok hr
  exact hstart.trans (hsite.trans (hend.trans (Lower.emit_shelters hleave)))

end Along
end Lower

theorem Lower.Along.emit {fs : Functions} {block : List Instr} (hb : ∀ F, Straight fs F block) :
    Along (Draft.Advances fs) (emit block) :=
  ⟨.modify _, fun h => ⟨block, emit_emits h, fun F _ => hb F⟩⟩

instance (cx : Context) : Draft.ExprClosed cx (Draft.Advances cx.functions) where
  hostCall _ := .hostCall (fun _ _ => .emit fun _ => .invoke ..) _
  cast := .cast fun _ _ => .emit fun _ => .assign ..
  boolean := .boolean fun _ _ => .emit fun _ => .invoke ..
  userCall := .userCall

end StackScript
