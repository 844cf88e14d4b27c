import StackScript.Proofs.Calls.Bodies
import StackScript.Proofs.Lowering.Operations
import StackScript.Proofs.Meaning.Event

namespace StackScript

open Draft Machine

def Lower.result? {α : Type} (x : Lower α) (s : Draft) : Option (α × Draft) :=
  match x s with
  | .ok a t => some (a, t)
  | .error _ _ => none

theorem Lower.result?_of_ok {α : Type} {x : Lower α} {a : α} {s t : Draft} (h : x s = .ok a t) :
    x.result? s = some (a, t) := by
  rw [result?, h]

namespace Module

variable {c : Catalog} {m : Module} {p : Program} {fs : Functions} {d : Nat → Draft} {D H : Type}
  {E : Host D H} {scope : Scope} {s t u v : Draft} {o : Operand} {zs : List String}

theorem map_value_cell (σ : Store D) (xs : List String) :
    (xs.map (cell σ)).map Cell.value = xs.map σ := by
  simp [cell]

def Enters (c : Catalog) (m : Module) (g : Function) (a : Nat) : Prop :=
  ∃ k st s t, m.Spans c k st s t ∧ st.function? c = some g ∧ s.emitter.pc = a

/-- The machine is at an operation, and these are the values that it takes, with `st` beneath all
that is pushed for it. If a host operation has a result, then the variable for it lies on top; a
caller keeps something beneath the arguments of a function. -/
inductive Receives (c : Catalog) (m : Module) (E : Host D H) (code : List Instr)
    (st : List (Cell D)) (vs : List (Value D)) : State D H → Prop
  | host {a σ h symbol} (top cells : List (Cell D))
      (hi : Code.fetch code a = some (.invoke symbol (cells.length + top.length)))
      (ht : top.length = if E.answers symbol then 1 else 0) (hv : cells.map Cell.value = vs) :
      Receives c m E code st vs ⟨a, σ, top ++ (cells.reverse ++ st), h⟩
  | user {a σ h g b} (kept cells : List (Cell D)) (hg : m.Enters c g b)
      (hi : Code.fetch code a = some (.jump (.addr b))) (hn : cells.length = g.params.length)
      (hv : cells.map Cell.value = vs) :
      Receives c m E code st vs ⟨a, σ, cells.reverse ++ (kept ++ st), h⟩
  | cast {a σ h} {dst src : Cell D} (hi : Code.fetch code a = some .copy) (hv : [src.value] = vs) :
      Receives c m E code st vs ⟨a, σ, dst :: src :: st, h⟩

/-- The operation that is lowered from draft `t` to draft `v` takes these values: its code begins
with pushes, behind which the operation stands. -/
def Performs (c : Catalog) (m : Module) (E : Host D H) (code : List Instr) (t v : Draft)
    (σ : Store D) (st : List (Cell D)) (h : H) (vs : List (Value D)) : Prop :=
  ∃ w, Pushes E code ⟨t.emitter.pc, σ, st, h⟩ w ∧ t.emitter.pc ≤ w.pc ∧ w.pc < v.emitter.pc ∧
    m.Receives c E code st vs w

theorem performs_of_emits {ys : List String} {i : Instr} {rest : List Instr} {vs : List (Value D)}
    {σ : Store D} {st : List (Cell D)} {h : H}
    (he : Emits t v (Block.pushAll ys ++ i :: rest)) (hw : i.width ≠ 0)
    (hat : Code.At p.code t.emitter.pc (Block.pushAll ys))
    (hr : m.Receives c E p.code st vs
      ⟨t.emitter.pc + Code.size (Block.pushAll ys), σ, (ys.map (cell σ)).reverse ++ st, h⟩) :
    m.Performs c E p.code t v σ st h vs := by
  refine ⟨_, pushes_pushAll ys hat, Nat.le_add_right .., ?_, hr⟩
  rw [he.pc, Code.size_append, Code.size_cons]
  dsimp only
  omega

theorem Layout.performs (L : Layout c m p fs d) (hE : E.Agrees c)
    (ht : Lower.Takes ⟨c, fs, scope⟩ zs o t v) (hs : t.Sized) (hv : Moves v (d m.body.length))
    (σ : Store D) (st : List (Cell D)) (h : H) :
    m.Performs c E p.code t v σ st h (zs.map σ) := by
  cases ht with
  | @host _ _ _ _ method _ _ _ _ hm hcall =>
      have ha : E.answers method.symbol = !method.ret.isVoid := hE hm
      obtain ⟨t₀, hn, ⟨hvoid, -, he⟩ | ⟨hvoid, r, t₁, -, hr, he⟩⟩ := Lower.hostCall_steps hcall
      · have e := (Lower.note_emits hn).skip (Lower.emit_emits he)
        have hat := (e.has hs hv L.linked).at_of_noTarget Block.target_invoke
        have hi := hat.right.fetch (by simp [Instr.width])
        rw [← List.length_map (cell σ)] at hi
        refine performs_of_emits e (by simp [Instr.width]) hat.left ?_
        exact .host [] _ hi (by simp [ha, hvoid]) (map_value_cell σ zs)
      · have e := (Lower.note_emits hn).skip ((Lower.generate_emits hr).skip (Lower.emit_emits he))
        have hat := (e.has hs hv L.linked).at_of_noTarget Block.target_invoke
        have hi := hat.right.fetch (by simp [Instr.width])
        rw [List.length_append, ← List.length_map (cell σ)] at hi
        refine performs_of_emits e (by simp [Instr.width]) hat.left ?_
        rw [List.map_append, List.reverse_append, List.append_assoc]
        exact .host [cell σ r] _ hi (by simp [ha, hvoid]) (map_value_cell σ zs)
  | user hcall =>
      obtain ⟨g, k, entry, back, r, s₁, s₂, C, _⟩ := Lower.userCall_eq_ok hcall
      have hF := (C.enter.trans C.leave).moves.trans hv
      obtain ⟨j, stmt, hj, hg⟩ := L.exists_define C.callee
      have hb := (L.entry_bound hj hg ((Moves.grows hF).named C.named)).1
      have hent : m.Enters c g (d j).emitter.pc :=
        ⟨j, stmt, _, _, L.spans_iff.mpr ⟨hj, rfl, rfl⟩, hg, rfl⟩
      have e := C.emits
      rw [Block.enter_eq_single, List.append_assoc] at e
      have hcode := (e.has hs hv L.linked)
      have hjump : Code.At p.code _ [.jump (.addr (d j).emitter.pc)] :=
        hcode.right.left.goto (by rw [L.labels]; exact hb)
      refine performs_of_emits e (by simp [Instr.width])
        (hcode.left.at_of_noTarget Block.target_pushAll) ?_
      -- the caller's own cells lie between the arguments and the stack that it has found
      have hstack (saved : List String) : ((saved ++ k :: zs).map (cell σ)).reverse ++ st =
          (zs.map (cell σ)).reverse ++ ((cell σ k :: (saved.map (cell σ)).reverse) ++ st) := by
        simp
      rw [hstack]
      refine .user _ _ hent (hjump.fetch (by simp [Instr.width])) ?_ (map_value_cell σ zs)
      rw [List.length_map, C.arity, (L.params C.callee le_rfl).length_eq]
  | @cast _ z _ _ _ hcast =>
      obtain ⟨r, t₁, -, hr, he⟩ := Lower.cast_steps hcast
      have e : Emits t _ (Block.pushAll [z, r] ++ [.copy]) :=
        (Lower.generate_emits hr).skip (Lower.emit_emits he)
      have hat := (e.has hs hv L.linked).at_of_noTarget Block.target_assign
      exact performs_of_emits e (by decide) hat.left (.cast (hat.right.fetch (by decide)) rfl)

theorem MayCall.mem {F : Draft} {code : List Instr} {g : Function} (h : MayCall c m fs F code g) :
    g ∈ fs := by
  have hmem {code : List Instr} (hg : g ∈ F.callees fs code) : g ∈ fs := by
    obtain ⟨i, _, hi⟩ := List.mem_filterMap.mp hg
    split at hi
    · exact List.mem_of_find?_eq_some hi
    · cases hi
  cases h with
  | direct h => exact hmem h
  | through _ h => exact hmem h

/-- An operand survives the calls that are made before the operation takes it. It may be a parameter
of the function around it, whatever is called, since a caller saves these. Any other variable is
safe if none of the functions that may be called stores into it. All expressions with operands are
lowered this way, by `Lower.takes_of_lowerExpr`. -/
theorem compile_operand_survives {F : Draft} {e : Expr} {es : List Expr} {x : String}
    {ys : List String} {i : Nat} (hc : m.compile c = .ok p)
    (hF : m.lowered c m.body.length = some (fs, F)) (hE : E.Agrees c) (hseal : F.Seals E.answers)
    (hs : Moves .empty s) (hx : Lower.value ⟨c, fs, scope⟩ e s = .ok x u)
    (hys : Lower.lowerValues ⟨c, fs, scope⟩ es u = .ok ys t)
    (hz : Lower.Takes ⟨c, fs, scope⟩ zs o t v) (hi : zs[i]? = some x) (hv : Moves v F)
    (hret : ∀ g, MayCall c m fs F (t.code.drop u.code.length) g → m.Returns c g)
    (hkeep : x ∈ Names.returnAddress :: scope.env ∨
      ∀ g, MayCall c m fs F (t.code.drop u.code.length) g →
        Code.stores E.answers x (m.codeOf c g) = false)
    {σ σ' : Store D} {st : List (Cell D)} {h h' : H} (hσ : F.Anchors σ)
    (ha : Arrives E p.code ⟨u.emitter.pc, σ, st, h⟩ ⟨t.emitter.pc, σ', st, h'⟩) :
    F.Anchors σ' ∧ σ' x = σ x ∧ (zs.map σ')[i]? = some (σ x) ∧
      m.Performs c E p.code t v σ' st h' (zs.map σ') := by
  obtain ⟨fs', d, L⟩ := layout_of_compile hc
  obtain ⟨rfl, rfl⟩ : fs = fs' ∧ F = d m.body.length := by simpa [hF] using L.lowered _ le_rfl
  let S : Stage D H :=
    ⟨E, c, m, p, fs, d, L, hE, hseal, _, MayCall.mem, .through, fun {g} => hret g⟩
  have hys : Lower.lowerValues (S.context scope) es u = .ok ys t := hys
  have hcross : S.Crosses True scope u t := (Lower.Along.lowerValues es).of_ok hys
  obtain ⟨code, dests, e', hdests, hrun⟩ := hcross
  have hcode : t.code.drop u.code.length = code := by rw [e'.code, List.drop_left]
  have hu : Moves .empty u := hs.trans (Lower.value_moves hx)
  have hF' : Moves t S.draft := hz.moves.trans hv
  -- until it is there, the run is in the code of the later operands or has more on the stack
  let I (w : State D H) : Prop :=
    (u.emitter.pc ≤ w.pc ∧ w.pc < t.emitter.pc ∧ st <:+ w.stack) ∨ st.length < w.stack.length
  obtain ⟨n, hn, hfirst⟩ := ha
  have hr : S.Ready code u t n I σ st :=
    { sized := Moves.sized hu rfl, moves := hF', calls := fun g hg => .direct (hcode ▸ hg),
      comes := fun k _ g hg => Stage.comes k hg,
      room := ⟨fun h₁ h₂ h₃ => .inl ⟨h₁, h₂, h₃⟩, .inr⟩, anchors := hσ }
  have hgoal := (hrun hr).goal_of_runs hn (by simp [I]) fun k hk w hw hg =>
    hfirst k hk w hw ⟨hg.pc, hg.stack⟩
  -- the later operands store into new variables only, and `x` is known by then
  have hx' : σ' x = σ x := by
    refine hgoal.store x ⟨fun hm => ?_, hkeep.imp_right fun hk ⟨g, hg, hst⟩ => ?_⟩
    · exact Bool.false_ne_true (((hdests x hm).2 trivial).symm.trans (Lower.value_contains hx))
    · exact Bool.false_ne_true ((hk g hg).symm.trans hst)
  exact ⟨hr.keeps e' (fun y hy => (hdests y hy).1) hgoal.store, hx',
    by rw [List.getElem?_map, hi, Option.map_some, hx'],
    L.performs hE hz (Moves.sized (hu.trans e'.moves) rfl) hv σ' st h'⟩

def launched (p : Program) : Store Int := fun x =>
  match p.vars.find? (·.name = x) with
  | some ⟨_, _, .addr a⟩ => .addr a
  | some w => digits w.init
  | none => .datum 0

def param : Expr := .name .unknown "n"

def next : Expr := Build.call (.name .unknown "f") [Build.binary param .add (.int .unknown 1)]

def below : Expr := Build.compare param .lt (.int .unknown 3)

def choice (e : Expr) : Stmt :=
  .branch .unknown below [.ret e.pos (some e)] [.ret .unknown (some param)]

def summing (e : Expr) : Module :=
  ⟨[Build.define "f" [("n", "SystemInt32")] (some "SystemInt32") [choice e],
    Build.define "_start" [] none [Build.eval (Build.call (.name .unknown "f") [.int .unknown 1])]]⟩

def summingFunction : Function := ⟨"f", [.int32], .int32, ["f__SystemInt32__n"]⟩

def summingContext : Context :=
  ⟨arithmetic, [summingFunction], .function "f__SystemInt32" .int32 ["f__SystemInt32__n"]⟩

def summingHead (e : Expr) : Lower Unit := do
  Lower.bindLabel (← Lower.namedLabel "f__SystemInt32")
  Lower.emit (Block.popIntoAll ["f__SystemInt32__n"])
  Lower.note (.statement .unknown (choice e).describe)
  let _ ← Lower.branchHead summingContext below
  Lower.note (.statement e.pos (Stmt.ret e.pos (some e)).describe)
  Lower.emit (Block.popInto Names.returnAddress)
  Lower.note (.expression e.pos e.describe)

theorem summing_lowered {e : Expr} {p : Program} (hc : (summing e).compile arithmetic = .ok p) :
    ∃ d s x v, (summing e).Layout arithmetic p [summingFunction] d ∧
    summingHead e (d 0) = .ok () s ∧
      Lower.lowerExpr summingContext false e s = .ok (.var x) v ∧ Moves (d 0) s ∧
      Moves v (d 2) := by
  obtain ⟨fs, d, L⟩ := layout_of_compile hc
  obtain rfl : fs = [summingFunction] := L.functions
  have hk : (summing e).body[0]? =
    some (.define .unknown "f" [⟨"n", some "SystemInt32"⟩] (some "SystemInt32") [choice e]) := rfl
  have htop :=
    topLevel_of_lowered (L.lowered 0 (Nat.zero_le 2)) (L.lowered 1 (show 1 ≤ 2 by omega)) hk
  rw [Lower.topLevel, if_neg (by decide)] at htop
  obtain ⟨l, u₁, u₂, s₁, s₂, hl, hb, hp, hbody, hr⟩ :=
    Lower.function_eq_ok (p := .unknown) (f := summingFunction) rfl rfl htop
  have hbody : Lower.block summingContext [choice e] s₁ = .ok () s₂ := hbody
  simp only [choice, Lower.block, Lower.noted, Lower.lowerStmt_branch, Lower.bind_eq_ok,
    Lower.located_eq_ok, Lower.pure_eq_ok] at hbody
  obtain ⟨_, _,
    ⟨_, s₃, hn, labels, s₄, hh, _, _, ⟨_, s₇, ⟨_, s₅, hn', hret⟩, _, rfl⟩, _, s₈, ht, _, _,
      ⟨_, s₉, hother, _, rfl⟩, he⟩, _, rfl⟩ := hbody
  have hret : Lower.returnValue summingContext .int32 e s₅ = .ok () s₇ := hret
  simp only [Lower.returnValue, Lower.bind_eq_ok, Lower.typeOf_eq_ok] at hret
  obtain ⟨_, s₆, hpop, x, v, hx, ty, _, ⟨_, rfl⟩, hret⟩ := hret
  obtain ⟨s, hnote, hx⟩ := Lower.value_eq_ok hx
  have hhead : summingHead e (d 0) = .ok () s := by
    simp only [summingHead, Lower.bind_eq_ok]
    exact ⟨l, u₁, hl, (), u₂, hb, (), s₁, hp, (), s₃, hn, labels, s₄, hh, (), s₅, hn', (), s₆,
      hpop, hnote⟩
  refine ⟨d, s, x, v, L, hhead, hx, ?_, ?_⟩
  · have hentry := (Lower.namedLabel_emits hl).1.moves.trans (Lower.bindLabel_emits hb).1.moves
    have htest := (Lower.note_emits hn).moves.trans (Lower.branchHead_shelters hh).1.moves
    have hpop := (Lower.note_emits hn').moves.trans (Lower.emit_emits hpop).moves
    have hsum := hpop.trans (Lower.note_emits hnote).moves
    exact hentry.trans ((Lower.emit_emits hp).moves.trans (htest.trans hsum))
  · have hexit : Moves v s₇ := by
      split at hret
      · exact (Lower.emit_emits hret).moves
      · exact (Lower.reject_eq_ok.mp (Lower.located_eq_ok.mp hret)).elim
    obtain ⟨_, eo, _⟩ := Lower.ret_emits (Lower.bind_eq_ok.mpr hother)
    have helse :=
      (Lower.branchTurn_emits ht).1.moves.trans (eo.moves.trans (Lower.bindLabel_emits he).1.moves)
    have hdone := (Lower.emit_emits hr).moves.trans (L.moves (j := 1) (k := 2) (by decide) le_rfl)
    exact hexit.trans (helse.trans hdone)

/-- A sum inside the function, with a run from the event to the end of its first operand and on to
the end of its second. -/
structure Passage (left right : Expr) where
  (p : Program) (F s₀ s u t v : Draft) (x y : String) (o : Operand)
  (σ σ' : Store Int) (st : List (Cell Int)) (h h' : Nat)
  compiled : (summing (Build.binary left .add right)).compile arithmetic = .ok p
  starts : (summing (Build.binary left .add right)).lowered arithmetic 1 =
    some ([summingFunction], s₀)
  lowered : (summing (Build.binary left .add right)).lowered arithmetic 2 =
    some ([summingFunction], F)
  begins : Moves .empty s
  left : Lower.value summingContext left s = .ok x u
  right : Lower.value summingContext right u = .ok y t
  takes : Lower.Takes summingContext [x, y] o t v
  ends : Moves v F
  seals : F.Seals calculator.answers
  anchors : F.Anchors σ
  first : Reaches calculator p.code ⟨s₀.emitter.pc, launched p, [], 0⟩ ⟨u.emitter.pc, σ, st, h⟩
  second : Arrives calculator p.code ⟨u.emitter.pc, σ, st, h⟩ ⟨t.emitter.pc, σ', st, h'⟩

abbrev Passage.module {left right : Expr} (_ : Passage left right) : Module :=
  summing (Build.binary left .add right)

/-- The same by running the machine: the first operand, its value at once and later, and the value
of the second. -/
def passage? (left right : Expr) (n k : Nat) :
    Option (String × Value Int × Value Int × Value Int) := do
  let e := Build.binary left .add right
  let p ← ((summing e).compile arithmetic).toOption
  let (_, s₀) ← (summing e).lowered arithmetic 0
  let (_, s₁) ← (summing e).lowered arithmetic 1
  let (_, F) ← (summing e).lowered arithmetic 2
  let (_, s) ← (summingHead e).result? s₀
  let (x, u) ← (Lower.value summingContext left).result? s
  let (y, t) ← (Lower.value summingContext right).result? u
  let before ← firstAt calculator p.code u.emitter.pc 1 n ⟨s₁.emitter.pc, launched p, [], 0⟩
  let after ← firstAt calculator p.code t.emitter.pc 1 k before
  if after.stack = before.stack ∧ F.Seals calculator.answers ∧ F.Anchors before.store then
    some (x, before.store x, after.store x, after.store y)
  else none

theorem exists_passage {left right : Expr} {n k : Nat} {x : String} {a b c : Value Int}
    (h : passage? left right n k = some (x, a, b, c)) :
    ∃ P : Passage left right, P.x = x ∧ P.σ x = a ∧ P.σ' x = b ∧ P.σ' P.y = c := by
  rw [passage?] at h
  cases hc : (summing (Build.binary left .add right)).compile arithmetic with
  | error f => simp only [hc, Except.toOption] at h; cases h
  | ok p =>
      obtain ⟨d, s, z, v, L, hhead, hz, hs, hv⟩ := summing_lowered hc
      obtain ⟨x', u, y, t, hx, hy, ht⟩ := Lower.binary_eq_ok hz
      have hlen : (summing (Build.binary left .add right)).body.length = 2 := rfl
      have h₁ := L.lowered 1 (by omega)
      have h₂ := L.lowered 2 (by omega)
      simp only [hc, Except.toOption, L.lowered 0 (by omega), h₁, h₂, Lower.result?_of_ok hhead,
        Lower.result?_of_ok hx, Lower.result?_of_ok hy, Option.bind_eq_bind, Option.bind_some,
        Option.bind_eq_some_iff, Option.ite_none_right_eq_some] at h
      obtain ⟨⟨_, σ, st, i⟩, hw, ⟨_, σ', _, i'⟩, hw', ⟨rfl, hseal, hanchor⟩, hres⟩ := h
      cases hres
      obtain ⟨rfl, _, hrun, _⟩ := runs_of_firstAt hw
      obtain ⟨rfl, _⟩ := runs_of_firstAt hw'
      have hs := (L.moves_empty (Nat.zero_le 2)).trans hs
      exact ⟨⟨p, _, _, s, u, t, v, x, y, _, σ, σ', _, i, i', hc, h₁, h₂, hs, hx, hy, ht, hv, hseal,
        hanchor, ⟨n, hrun⟩, arrives_of_firstAt hw'⟩, rfl, rfl, rfl, rfl⟩

theorem passage_param : passage? param next 17 58 = some
    ("f__SystemInt32__n", .datum 1, .datum 1, .datum 5) := by
  decide +kernel

theorem passage_next : (passage? next next 102 85).map Prod.snd = some
    (.datum 6, .datum 3, .datum 6) := by
  decide +kernel

theorem summing_returns (e : Expr) {g : Function} (hg : g ∈ [summingFunction]) :
    (summing e).Returns arithmetic g := by
  obtain rfl := List.mem_singleton.mp hg
  intro st hst hf
  obtain rfl | hst := List.mem_cons.mp hst
  · exact .inr rfl
  · obtain rfl := List.mem_singleton.mp hst
    cases hf

/-- The parameter is 1 for the sum, though the callee has had it at 2 and at 3 in between. -/
theorem summing_operand_survives :
    ∃ P : Passage param next, P.σ P.x = .datum 1 ∧ P.σ' P.x = .datum 1 ∧ P.F.Anchors P.σ' ∧
    P.module.Performs arithmetic calculator P.p.code P.t P.v P.σ' P.st P.h'
      [.datum 1, .datum 5] := by
  obtain ⟨P, hx, hone, -, hfive⟩ := exists_passage passage_param
  refine ⟨P, by rw [hx, hone], ?_⟩
  obtain ⟨hanchors, hsame, -, hperforms⟩ := compile_operand_survives (i := 0) P.compiled P.lowered
    calculator_agrees P.seals P.begins P.left (Lower.lowerValues_singleton P.right)
    P.takes rfl P.ends
    (fun g hg => summing_returns _ hg.mem) (.inl (by rw [hx]; decide)) P.anchors P.second
  rw [hx, hone] at hsame
  refine ⟨by rw [hx, hsame], hanchors, ?_⟩
  simpa [hx, hsame, hfive] using hperforms

/-- The first of two calls gives 6, but the sum takes a 3 for it: the second call has computed a sum
of its own, with the same variable for its first operand. -/
theorem summing_operand_lost : ∃ P : Passage next next, P.σ P.x = .datum 6 ∧
    P.module.Performs arithmetic calculator P.p.code P.t P.v P.σ' P.st P.h' [.datum 3, .datum 6] :=
    by
  obtain ⟨x, hp⟩ : ∃ x, passage? next next 102 85 = some (x, .datum 6, .datum 3, .datum 6) := by
    simpa using passage_next
  obtain ⟨P, hx, hsix, hthree, hright⟩ := exists_passage hp
  obtain ⟨fs, d, L⟩ := layout_of_compile P.compiled
  obtain ⟨rfl, hF⟩ : [summingFunction] = fs ∧ P.F = d 2 := by
    simpa [P.lowered] using L.lowered 2 le_rfl
  have hoperands := (Lower.value_moves P.left).trans (Lower.value_moves P.right)
  have hs : P.t.Sized := Moves.sized (P.begins.trans hoperands) rfl
  have hperforms := L.performs calculator_agrees P.takes hs (hF ▸ P.ends) P.σ' P.st P.h'
  refine ⟨P, by rw [hx, hsix], ?_⟩
  simpa [hx, hthree, hright] using hperforms

end Module
end StackScript
