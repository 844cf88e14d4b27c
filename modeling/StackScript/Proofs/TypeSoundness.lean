import StackScript.Proofs.Meaning.Event
import StackScript.Proofs.Purpose.Trace

namespace StackScript

open Draft Code

theorem Instr.eq_of_resolve {labels : List Label} {i j : Instr} (h : i.resolve labels = .ok j)
    (hj : j.target? = none) :
    i = j := by
  obtain rfl | ⟨id, a, -, ⟨-, rfl⟩ | ⟨-, rfl⟩⟩ := Instr.resolve_cases h
  · rfl
  · cases hj
  · cases hj

theorem Linked.complete {labels : List Label} {xs ys : List Instr} (h : Linked labels xs ys)
    (hx : Complete xs) :
    Complete ys := by
  intro x hy
  obtain ⟨front, rfl⟩ := List.getLast?_eq_some_iff.mp hy
  obtain ⟨us, vs, rfl, -, hv⟩ := h.split_right
  obtain ⟨i, ws, hi, hw, rfl⟩ := List.forall₂_cons_right_iff.mp hv
  cases hw
  rw [Instr.eq_of_resolve hi rfl] at hx
  exact hx x List.getLast?_concat

theorem Member.operands_parse {f : Member} (hk : f.kind = .static)
    (ha : f.args.map Ty.named = [.string]) (hr : f.toMethod.ret = .boolean) :
    f.operands = [.string, .boolean] := by
  rw [operands, inputs, if_neg (by simp [hk]), ha, hr]
  rfl

/-- The type of what a cell of the stack holds. -/
def Source.Typed (F : Draft) : Source → Ty → Prop
  | .pushed x, ty => F.Typed x ty
  | .address _, ty | .back, ty => ty = .uint32
  | .argument f i, ty => f.types[i]? = some ty
  | .result g, ty => g.ret = ty

theorem Code.Copied.of_single {fs : Functions} {F : Draft} {S : List Source} {before : List Instr}
    {y : String} (h : Copied fs F S (before ++ [.push y])) (hb : Complete before) :
    ∃ src dst rest, S = .pushed dst :: src :: rest ∧ src.Feeds fs F dst := by
  cases h with
  | @moved front src dst _ hp =>
      obtain ⟨rfl, -⟩ :=
        List.append_inj' (hp.trans (List.append_assoc front [.push src] _).symm) rfl
      exact absurd List.getLast?_concat (hb src)
  | stored hS hf => exact ⟨_, _, _, hS, hf⟩

namespace Module

variable {c : Catalog} {m : Module} {p : Program} {fs : Functions} {d : Nat → Draft}

/-- What a copy that ends at address `a` does: it takes a value off the stack and writes it to a
variable. Only a conversion and the slots of an event may change the type. -/
inductive Copies (c : Catalog) (m : Module) (fs : Functions) (F : Draft) (a : Nat) :
    Source → String → Prop
  | same {src dst ty} (hs : src.Typed F ty) (hd : F.Typed dst ty) : Copies c m fs F a src dst
  | cast {k st discard q q' name es s t src dst}
      (h : m.Lowers c fs k st discard (.call q (.name q' name) es) (.var dst) s t)
      (hn : c.isType name) (hd : F.Typed dst (.named name)) (ht : t.emitter.pc = a) :
      Copies c m fs F a (.pushed src) dst
  | slot {k q name params returns body s t} {slot : Slot} {param : Param}
      (h : m.Spans c k (.define q name params returns body) s t) (he : Names.isEvent name)
      (hp : (slot, param) ∈ ((c.event? name).getD []).zip params) (hs : s.emitter.pc < a)
      (ht : a ≤ t.emitter.pc) :
      Copies c m fs F a (.pushed slot.name) (Names.qualify name param.name)

/-- The code keeps to the types that the variables have in the finished draft `F`, with `S` on the
stack at each address. -/
structure WellTyped (c : Catalog) (m : Module) (p : Program) (fs : Functions) (F : Draft)
    (S : Nat → List Source) : Prop where
  host : ∀ {front symbol n rest}, p.code = front ++ .invoke symbol n :: rest →
    ∃ f ∈ c.members, ∃ before xs, f.symbol = symbol ∧ xs.length = n ∧
      front = before ++ xs.map .push ∧ Complete before ∧ List.Forall₂ F.Typed xs f.operands
  tests : ∀ {front t rest}, p.code = front ++ .jumpIfFalse t :: rest →
    ∃ before x, front = before ++ [.push x] ∧ F.Typed x .boolean
  copies : ∀ {front rest}, p.code = front ++ .copy :: rest →
    ∃ before dst src below, front = before ++ [.push dst] ∧
      S (size front) = .pushed dst :: src :: below ∧
      m.Copies c fs F (size (front ++ [.copy])) src dst
  assignments : ∀ {k st x q name e s t}, m.Runs c fs k st x s t →
    x.assignment? = some (.name q name, e) →
    ∃ s₀ o s₁, Emits s s₀ [] ∧ Lower.expr ⟨c, fs, st.scope c⟩ e s₀ = .ok o s₁ ∧
      ((∃ src dst ty, o = .var src ∧ Emits s₁ t [.push src, .push dst, .copy] ∧ F.Typed src ty ∧
          F.Typed dst ty) ∨
        (∃ ty, o = .type ty) ∧ Emits s₁ t [])
  calls : ∀ {k st discard q q' name es o s t},
    m.Lowers c fs k st discard (.call q (.name q' name) es) o s t → name ≠ "instantiate" →
    c.isType name = false →
    ∃ g ∈ fs, ∃ args u x entry, ∃ r : Block.Outcome, g.name = name ∧
      Lower.lowerValues ⟨c, fs, st.scope c⟩ es s = .ok args u ∧
      Emits u t ((Names.returnAddress :: (st.scope c).env ++ x :: args).map .push ++
        .jump (.label entry) ::
        (r.taken ++ (st.scope c).env.reverse.flatMap (fun y => [.push y, .copy]) ++
          [.push Names.returnAddress, .copy])) ∧
      F.callee fs entry = some g ∧ List.Forall₂ F.Typed args g.types ∧ F.Typed x .uint32 ∧
      (∀ y, r = .into y → F.Typed y g.ret) ∧ ∀ y, o = .var y → r = .into y
  /-- Where a call jumps, its arguments are on top of the address to come back to. -/
  jumps : ∀ {a l g}, Code.fetch F.code a = some (.jump (.label l)) → F.callee fs l = some g →
    ∃ args x below, S a = (args.map Source.pushed).reverse ++ .pushed x :: below ∧
      List.Forall₂ F.Typed args g.types ∧ F.Typed x .uint32
  /-- A function begins by taking its arguments off the stack. -/
  entries : ∀ {k st s t f}, m.Spans c k st s t → st.function? c = some f →
    Code.At p.code s.emitter.pc (f.params.reverse.flatMap fun y => [.push y, .copy]) ∧
      List.Forall₂ F.Typed f.params f.types
  returns : ∀ {k st f q e s t}, m.Runs c fs k st (.ret q (some e)) s t → st.function? c = some f →
    ∃ s₁ x s₂, Lower.value ⟨c, fs, st.scope c⟩ e s₁ = .ok x s₂ ∧ F.Typed x f.ret ∧
      Emits s₂ t [.push x, .jumpIndirect Names.returnAddress]
  /-- Where a function comes back, there is nothing on the stack but a result of its type. -/
  exits : ∀ {k st s t f a x}, m.Spans c k st s t → st.function? c = some f →
    s.emitter.pc ≤ a → a < t.emitter.pc → Code.fetch F.code a = some (.jumpIndirect x) →
    S a = [] ∨ ∃ y, S a = [.pushed y] ∧ F.Typed y f.ret

namespace Layout

variable (L : Layout c m p fs d)
include L

theorem split_code {front rest : List Instr} {i : Instr} (h : p.code = front ++ i :: rest) :
    ∃ front₀ i₀ rest₀, (d m.body.length).code = front₀ ++ i₀ :: rest₀ ∧
      Linked p.labels front₀ front ∧ i₀.resolve p.labels = .ok i := by
  have hl := L.linked
  rw [h] at hl
  obtain ⟨front₀, vs, hcode, hfront, hv⟩ := hl.split_right
  obtain ⟨i₀, rest₀, hres, -, rfl⟩ := List.forall₂_cons_right_iff.mp hv
  exact ⟨front₀, i₀, rest₀, hcode, hfront, hres⟩

theorem purpose_at {front rest : List Instr} {i : Instr} (h : p.code = front ++ i :: rest)
    (hi : ∀ x, i ≠ .push x) :
    ∃ k st before before₀ xs i₀, m.body[k]? = some st ∧ front = before ++ xs.map .push ∧
      Complete before ∧ i₀.resolve p.labels = .ok i ∧
      m.Purpose c fs (d m.body.length) k st before₀ xs i₀ := by
  obtain ⟨front₀, i₀, rest₀, hcode, hfront, hres⟩ := L.split_code h
  have hpush (x : String) : i₀ ≠ .push x := by
    rintro rfl
    cases hres
    exact hi x rfl
  obtain ⟨k, st, pre, xs, post, hk, rfl, -, hcomplete, hp⟩ := L.purpose hcode hpush
  rw [← List.append_assoc] at hfront
  obtain ⟨before, ys, rfl, hb, hy⟩ := hfront.split
  rw [hy.eq_of_noTarget Block.target_pushAll]
  exact ⟨k, st, before, _, xs, i₀, hk, rfl, hb.complete hcomplete, hres, hp⟩

/-- What is pushed for an instruction is on top of the stack. -/
theorem contents_purpose {front rest : List Instr} {i : Instr}
    (h : (d m.body.length).code = front ++ i :: rest) (hi : ∀ x, i ≠ .push x) (hw : i.width ≠ 0) :
    ∃ k st before xs S, m.body[k]? = some st ∧ (d k).emitter.pc ≤ size front ∧
      size front < (d (k + 1)).emitter.pc ∧ front = before ++ Block.pushAll xs ∧ Complete before ∧
      m.Purpose c fs (d m.body.length) k st before xs i ∧
      contents c m fs d (size front) = (xs.map Source.pushed).reverse ++ S ∧
      (i = .copy → Copied fs (d m.body.length) (contents c m fs d (size front)) front) := by
  obtain ⟨k, st, pre, xs, post, hk, rfl, e, hcomplete, hp⟩ := L.purpose h hi
  have hsize : size ((d k).code ++ (pre ++ Block.pushAll xs)) =
      (d k).emitter.pc + size (pre ++ Block.pushAll xs) := by
    rw [size_append, L.size_code (List.getElem?_eq_some_iff.mp hk).1.le]
  have hlt : size ((d k).code ++ (pre ++ Block.pushAll xs)) <
      (d k).emitter.pc + size (pre ++ Block.pushAll xs ++ i :: post) := by
    rw [hsize, size_append (pre ++ Block.pushAll xs), size_cons]
    omega
  have hstack : contents c m fs d (size ((d k).code ++ (pre ++ Block.pushAll xs))) =
      stack ((d m.body.length).callee fs) (st.arrival c) (pre ++ Block.pushAll xs) := by
    rw [L.contents_eq hk e (by rw [hsize]; omega) hlt, hsize, Nat.add_sub_cancel_left, stackAt_size]
  have hpushes : Climbs fs (d m.body.length) (fun _ => False) [] _ (Block.pushAll xs) _ :=
    climbs_pushAll (stack ((d m.body.length).callee fs) (st.arrival c) pre) xs
  refine ⟨k, st, _, xs, _, hk, by rw [hsize]; omega, by rwa [e.pc],
    (List.append_assoc ..).symm, hcomplete, hp, by rw [hstack, stack_append, hpushes.stack], ?_⟩
  rintro rfl
  obtain ⟨code, e', hr, -⟩ := L.region hk
  obtain rfl : code = _ := List.append_cancel_left (e'.code.symm.trans e.code)
  rw [hstack]
  exact hr.served.append _

/-- What goes into a variable without being pushed for it has the type of this variable. -/
theorem typed_of_feeds {src : Source} {dst : String} (h : src.Feeds fs (d m.body.length) dst)
    (hd : (d m.body.length).vars.contains dst) :
    ∃ ty, src.Typed (d m.body.length) ty ∧ (d m.body.length).Typed dst ty := by
  cases src with
  | pushed x =>
      obtain rfl : x = dst := h
      obtain ⟨ty, hty⟩ := exists_type hd
      exact ⟨ty, hty, hty⟩
  | address | back =>
      obtain rfl : dst = Names.returnAddress := h
      exact ⟨.uint32, rfl, L.returnAddress_typed le_rfl⟩
  | argument f i =>
      obtain ⟨hf, hi⟩ := h
      obtain ⟨hlen, htyped⟩ := List.forall₂_iff_get.mp (L.params hf le_rfl)
      obtain ⟨hlt, rfl⟩ := List.getElem?_eq_some_iff.mp hi
      exact ⟨_, List.getElem?_eq_getElem (hlen ▸ hlt), htyped i hlt (hlen ▸ hlt)⟩
  | result g => exact ⟨g.ret, rfl, h⟩

theorem copies_at {front rest : List Instr} (h : (d m.body.length).code = front ++ .copy :: rest) :
    ∃ before dst src below, front = before ++ [.push dst] ∧
      contents c m fs d (size front) = .pushed dst :: src :: below ∧
      m.Copies c fs (d m.body.length) (size (front ++ [.copy])) src dst := by
  obtain ⟨k, st, before, xs, S, hk, hlo, hhi, rfl, hcomplete, hp, hS, hcopied⟩ :=
    L.contents_purpose h (by simp) (by decide)
  -- one variable is pushed: the value has been on the stack before
  have hstored {y : String} (hx : xs = [y]) :
      ∃ before' dst src below, before ++ Block.pushAll xs = before' ++ [.push dst] ∧
        contents c m fs d (size (before ++ Block.pushAll xs)) = .pushed dst :: src :: below ∧
        m.Copies c fs (d m.body.length) (size (before ++ Block.pushAll xs ++ [.copy])) src dst := by
    subst hx
    obtain ⟨src, dst, below, hstack, hfeeds⟩ := (hcopied rfl).of_single hcomplete
    obtain ⟨hdst, -⟩ := List.cons.inj (hS.symm.trans hstack)
    cases hdst
    have hy : .push y ∈ (d m.body.length).code := by simp [h, Block.pushAll]
    obtain ⟨ty, hs, hd⟩ := L.typed_of_feeds hfeeds (L.grounded (L.trace le_rfl) y (.inl hy))
    exact ⟨before, y, src, below, rfl, hstack, .same hs hd⟩
  have hpair (src dst : String) :
      before ++ Block.pushAll [src, dst] = (before ++ [.push src]) ++ [.push dst] := by
    simp [Block.pushAll]
  cases hp with
  | assign _ _ hd hs => exact ⟨_, _, _, S, hpair _ _, hS, .same hs hd⟩
  | @cast discard q q' name es s t dst src hl hn hd ht =>
      have hm : Moves s t := (Lower.Along.lowerExpr _ _).of_ok hl.runs
      have hpc : size t.code = t.emitter.pc :=
        Moves.sized ((L.moves_during hl.during).1.trans hm) rfl
      refine ⟨_, _, _, S, hpair _ _, hS, .cast hl hn hd ?_⟩
      rw [← hpc, ht, List.append_assoc]
      rfl
  | @slot q name params returns body slot param hst he hs =>
      subst hst
      refine ⟨_, _, _, S, hpair _ _, hS, .slot (L.spans_iff.mpr ⟨hk, rfl, rfl⟩) he hs ?_ ?_⟩
      · exact Nat.lt_of_le_of_lt hlo (by simp [Instr.width])
      · rw [size_append]
        exact hhi
  | result | restore | receive | origin => exact hstored rfl

theorem copies_linked {front rest : List Instr} (h : p.code = front ++ .copy :: rest) :
    ∃ before dst src below, front = before ++ [.push dst] ∧
      contents c m fs d (size front) = .pushed dst :: src :: below ∧
      m.Copies c fs (d m.body.length) (size (front ++ [.copy])) src dst := by
  obtain ⟨front₀, i₀, rest₀, hcode, hfront, hres⟩ := L.split_code h
  obtain rfl := Instr.eq_of_resolve hres rfl
  obtain ⟨before₀, dst, src, below, rfl, hS, hcopies⟩ := L.copies_at hcode
  have hsize := hfront.size_eq
  obtain ⟨before, ys, rfl, -, hy⟩ := hfront.split
  have hend : size ((before ++ ys) ++ [.copy]) = size ((before₀ ++ [.push dst]) ++ [.copy]) := by
    rw [size_append, hsize, ← size_append]
  refine ⟨before, dst, src, below, ?_, by rw [hsize, hS], by rwa [hend]⟩
  rw [hy.eq_of_noTarget (by simp [Instr.target?])]

theorem stack_of_jump {a l : Nat} {g : Function}
    (hf : fetch (d m.body.length).code a = some (.jump (.label l)))
    (hg : (d m.body.length).callee fs l = some g) :
    ∃ args x below, contents c m fs d a = (args.map Source.pushed).reverse ++ .pushed x :: below ∧
      List.Forall₂ (d m.body.length).Typed args g.types ∧ (d m.body.length).Typed x .uint32 := by
  obtain ⟨front, rest, hcode, rfl, hw⟩ := exists_split_of_fetch hf
  obtain ⟨k, st, before, xs, S, -, -, -, -, -, hp, hS, -⟩ := L.contents_purpose hcode (by simp) hw
  cases hp with
  | goto hl =>
      rw [hl.callee] at hg
      cases hg
  | @enter g' x args entry r u v h hu =>
      obtain ⟨hg', hentry, -, -⟩ := L.of_calls h
      obtain rfl : g' = g := Option.some.inj ((L.entered _ hg' _ hentry).symm.trans hg)
      obtain ⟨_, _, _, es, _, s, t, _, w, hlow, hargs, C⟩ := h
      have hF := (L.moves_during hlow.during).2
      have htyped := C.typed_args (Lower.lowerValues_contains hargs)
      simp only [List.map_append, List.map_cons, List.reverse_append, List.reverse_cons,
        List.append_assoc, List.singleton_append] at hS
      exact ⟨args, x, _, hS, htyped.imp fun _ _ hx => hx.moves (C.emits.moves.trans hF),
        C.typed_const.moves ((C.enter.trans C.leave).moves.trans hF)⟩

theorem params_taken {k : Nat} {st : Stmt} {f : Function} (hk : m.body[k]? = some st)
    (hf : st.function? c = some f) :
    Code.At p.code (d k).emitter.pc (Block.popIntoAll f.params) := by
  have hlt := (List.getElem?_eq_some_iff.mp hk).1
  obtain ⟨code, e, hp⟩ := L.placed hk
  have hhas := e.has (L.size_code hlt.le) (L.moves hlt le_rfl) L.linked
  cases hp with
  | event he =>
      rw [Stmt.function?, if_pos he] at hf
      cases hf
  | function hg =>
      obtain rfl := Option.some.inj (hg.symm.trans hf)
      exact hhas.left.at_of_noTarget Block.target_popIntoAll
  | loose hd =>
      cases st with
      | define q name params returns body => exact absurd rfl (hd q name params returns body)
      | _ => cases hf

theorem stack_of_exit {k a : Nat} {st : Stmt} {f : Function} {x : String}
    (hk : m.body[k]? = some st) (hf : st.function? c = some f) (ha : (d k).emitter.pc ≤ a)
    (hb : a < (d (k + 1)).emitter.pc)
    (hx : fetch (d m.body.length).code a = some (.jumpIndirect x)) :
    contents c m fs d a = [] ∨
      ∃ y, contents c m fs d a = [.pushed y] ∧ (d m.body.length).Typed y f.ret := by
  obtain ⟨code, e, hr, hat⟩ := L.region hk
  rw [e.pc] at hb
  rw [L.contents_eq hk e ha hb]
  have hexit := hr.exit hat ha hb hx rfl
  rw [Stmt.place_of_function? hf, Place.Ends] at hexit
  split at hexit
  case isTrue => exact .inl hexit
  case isFalse =>
    split at hexit
    case isTrue => exact .inl hexit
    case isFalse => exact .inr hexit

theorem wellTyped (hr : c.ReadsTruth) :
    WellTyped c m p fs (d m.body.length) (contents c m fs d) where
  host {front symbol n rest} h := by
    obtain ⟨k, st, before, before₀, xs, i₀, -, hfront, hcomplete, hres, hp⟩ :=
      L.purpose_at h (by simp)
    obtain rfl := Instr.eq_of_resolve hres rfl
    cases hp with
    | @invoke f xs hf hx => exact ⟨f, hf, before, xs, rfl, rfl, hfront, hcomplete, hx⟩
    | @truth f text x hf ht hx =>
        obtain ⟨g, hg, rfl, hkind, -, -, hargs⟩ := Catalog.method?_eq_some hf
        refine ⟨g, hg, before, _, rfl, rfl, hfront, hcomplete, ?_⟩
        rw [Member.operands_parse hkind hargs (hr hf)]
        exact .cons ht (.cons hx .nil)
  tests {front t rest} h := by
    obtain ⟨k, st, before, before₀, xs, i₀, -, hfront, -, hres, hp⟩ := L.purpose_at h (by simp)
    obtain rfl | ⟨id, a, -, ⟨-, hi⟩ | ⟨rfl, -⟩⟩ := Instr.resolve_cases hres
    · cases hp with
      | test hx => exact ⟨before, _, hfront, hx⟩
    · cases hi
    · cases hp with
      | test hx => exact ⟨before, _, hfront, hx⟩
  copies h := L.copies_linked h
  assignments {k st x q name e s t} h hx := by
    obtain ⟨hl, -⟩ := Stmt.assignment?_eq_some hx
    have hrun := h.runs
    rw [Lower.stmt, Lower.noted, hl] at hrun
    obtain ⟨_, s₀, hn, hrun⟩ := Lower.bind_eq_ok.mp hrun
    have hF := (L.moves_during h.during).2
    obtain ⟨o, s₁, ho, ⟨src, dst, ty, rfl, -, hsrc, em, hdst⟩ | ⟨hty, hstill⟩⟩ :=
      Lower.assignName_eq_ok hrun
    · exact ⟨s₀, _, s₁, Lower.note_emits hn, ho,
        .inl ⟨src, dst, ty, rfl, em, hsrc.moves (em.moves.trans hF), hdst.moves hF⟩⟩
    · exact ⟨s₀, o, s₁, Lower.note_emits hn, ho, .inr ⟨hty, hstill.emits⟩⟩
  calls {k st discard q q' name es o s t} h hn ht := by
    obtain ⟨g, x, args, entry, back, r, u, w, v, hname, hargs, S, ho⟩ := h.site hn ht
    have hF := (L.moves_during h.during).2
    have hw := (S.enter.trans S.leave).moves.trans hF
    refine ⟨g, S.callee, args, u, x, entry, r, hname, hargs, ?_, ?_, ?_, S.typed_const.moves hw,
      fun y hy => (S.typed_result hy).moves hF, ho⟩
    · have e := S.emits
      rw [Block.enter_eq_single, List.append_assoc, Block.leave, Block.collect_eq] at e
      exact e
    · exact L.entered g S.callee entry ((Moves.grows hw).named S.named)
    · have htyped := S.typed_args (Lower.lowerValues_contains hargs)
      exact htyped.imp fun _ _ hx => hx.moves (S.emits.moves.trans hF)
  jumps hf hg := L.stack_of_jump hf hg
  entries {k st s t f} hs hf := by
    obtain ⟨hk, rfl, rfl⟩ := L.spans_iff.mp hs
    exact ⟨L.params_taken hk hf, L.params (L.mem_functions hk hf) le_rfl⟩
  returns {k st f q e s t} h hf := by
    obtain ⟨s₀, -, hv⟩ := h.returnValue (Stmt.place_of_function? hf)
    obtain ⟨s₁, x, s₂, -, hx, hty, ee⟩ := Lower.returnValue_eq_ok hv
    exact ⟨s₁, x, s₂, hx, hty.moves (ee.moves.trans (L.moves_during h.during).2), ee⟩
  exits {k st s t f a x} hs hf ha hb hx := by
    obtain ⟨hk, rfl, rfl⟩ := L.spans_iff.mp hs
    exact L.stack_of_exit hk hf ha hb hx

end Layout

/-- The code of a compiled module keeps to the types of its variables, if truth values are read
as such. -/
theorem compile_wellTyped (hc : m.compile c = .ok p) (hr : c.ReadsTruth) :
    ∃ fs F S, m.lowered c m.body.length = some (fs, F) ∧
      List.Forall₂ (Variable.Becomes c p.labels) F.vars.declared p.vars ∧ m.Tracked c fs F S ∧
      m.WellTyped c p fs F S := by
  obtain ⟨fs, d, L⟩ := layout_of_compile hc
  exact ⟨fs, d m.body.length, _, L.lowered _ le_rfl, L.vars, L.tracked, L.wellTyped hr⟩

def conversions : Module :=
  ⟨[Build.define "f" [("n", "SystemInt32")] (some "SystemUInt32")
      [Build.assign (.name .unknown "m")
        (Build.call (.name .unknown "SystemUInt32") [.name .unknown "n"]),
        Build.ret (some (.name .unknown "m"))],
    Build.define "_start" [] none
      [Build.loop (.bool .unknown true)
        [Build.assign (.name .unknown "x")
          (Build.call (.name .unknown "f")
            [Build.binary (.int .unknown 1) .add (.int .unknown 2)])]]]⟩

theorem conversions_wellTyped : ∃ p fs F S, conversions.compile arithmetic = .ok p ∧
    arithmetic.ReadsTruth ∧ conversions.lowered arithmetic 2 = some (fs, F) ∧
    conversions.Tracked arithmetic fs F S ∧ conversions.WellTyped arithmetic p fs F S := by
  have hok : (conversions.compile arithmetic).isOk := by decide +kernel
  cases hc : conversions.compile arithmetic with
  | error e => rw [hc] at hok; cases hok
  | ok p =>
      obtain ⟨fs, F, S, hF, -, hS, hw⟩ := compile_wellTyped hc arithmetic_readsTruth
      exact ⟨p, fs, F, S, rfl, arithmetic_readsTruth, hF, hS, hw⟩

end Module
end StackScript
