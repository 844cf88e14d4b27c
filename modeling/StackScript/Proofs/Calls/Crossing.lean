import StackScript.Proofs.Calls.Stores
import StackScript.Proofs.Calls.Until
import StackScript.Proofs.Meaning.Scene

namespace StackScript

open Draft Machine Lower

/-- A compiled module on a host, and a set of its functions that has all that they call. -/
structure Stage (D H : Type) where
  host : Host D H
  catalog : Catalog
  script : Module
  program : Program
  functions : Functions
  drafts : Nat → Draft
  layout : script.Layout catalog program functions drafts
  agrees : host.Agrees catalog
  seals : (drafts script.body.length).Seals host.answers
  calls : Function → Prop
  known : ∀ {g}, calls g → g ∈ functions
  closed : ∀ {g g'}, calls g →
    g' ∈ (drafts script.body.length).callees functions (script.codeOf catalog g) → calls g'
  returns : ∀ {g}, calls g → script.Returns catalog g

namespace Stage

variable {D H : Type} (S : Stage D H)

def draft : Draft := S.drafts S.script.body.length

def context (scope : Scope) : Context := ⟨S.catalog, S.functions, scope⟩

def Touches (x : String) : Prop :=
  ∃ g, S.calls g ∧ Code.stores S.host.answers x (S.script.codeOf S.catalog g)

/-- A variable that a call in the scope leaves as it was. -/
def Spares (scope : Scope) (x : String) : Prop :=
  x ∈ Names.returnAddress :: scope.env ∨ ¬ S.Touches x

/-- A function has come back to `r`, with its result on the stack. -/
structure Back (g : Function) (σ : Store D) (r : Nat) (st : List (Cell D)) (s : State D H) :
    Prop where
  pc : s.pc = r
  stack : ∃ res, s.stack = res ++ st ∧ res.length = g.results
  store : ∀ x, ¬ S.Touches x → s.store x = σ x

/-- For `n` steps, a function that is entered with its arguments stays above the stack of its
caller, unless it has come back before. -/
def Comes (n : Nat) (g : Function) : Prop :=
  ∀ {l a r : Nat} {σ : Store D} {args : List (Cell D)} {ret : Cell D},
    S.draft.emitter.named.lookup (Names.functionId g.name g.types) = some l → S.draft.Bound l a →
    args.length = g.types.length → ret.value = .addr r → S.draft.Anchors σ →
    ∀ st h, Until S.host S.program.code (Above st) (S.Back g σ r st) n ⟨a, σ, args ++ ret :: st, h⟩

/-- All that a piece of code between two drafts needs to be run. -/
structure Ready (code : List Instr) (s t : Draft) (n : Nat) (I : State D H → Prop) (σ : Store D)
    (st : List (Cell D)) : Prop where
  sized : s.Sized
  moves : Moves t S.draft
  calls : ∀ g ∈ S.draft.callees S.functions code, S.calls g
  comes : ∀ m < n, ∀ g, S.calls g → S.Comes m g
  room : Room I s.emitter.pc t.emitter.pc st
  anchors : S.draft.Anchors σ

/-- The code between two drafts gets to its end with the stack as it was. It stores into
`dests` itself, and keeps all other variables that are spared. If `fresh`, then `dests` were
not there before. -/
def Crosses (fresh : Prop) (scope : Scope) (s t : Draft) : Prop :=
  ∃ (code : List Instr) (dests : List String), Emits s t code ∧
    (∀ x ∈ dests, Code.stores S.host.answers x code ∧ (fresh → s.vars.contains x = false)) ∧
    ∀ {n I σ st h}, S.Ready code s t n I σ st →
      Until S.host S.program.code I
      (Keeps (fun x => x ∉ dests ∧ S.Spares scope x) t.emitter.pc σ st) n
        ⟨s.emitter.pc, σ, st, h⟩

variable {S} {s t u : Draft} {scope : Scope} {fresh : Prop} {xs ys code : List Instr}
  {dests : List String} {n : Nat} {I : State D H → Prop} {σ τ : Store D} {st : List (Cell D)}
  {h : H}

theorem stores_of_touches {x : String} (h : S.Touches x) :
    Code.stores S.host.answers x S.draft.code := by
  obtain ⟨g, hg, hx⟩ := h
  exact Code.stores_of_infix hx (S.layout.codeOf_infix (S.known hg))

theorem stores_draft {x : String} (e : Emits s t code) (hF : Moves t S.draft)
    (hx : Code.stores S.host.answers x code) : Code.stores S.host.answers x S.draft.code := by
  obtain ⟨post, hpost⟩ := (Moves.grows hF).code
  rw [← hpost, e.code]
  exact Code.stores_append_left (Code.stores_append_right _ hx) post

namespace Ready

theorem left (hr : S.Ready (xs ++ ys) s u n I σ st) (ey : Emits t u ys) :
    S.Ready xs s t n I σ st where
  sized := hr.sized
  moves := ey.moves.trans hr.moves
  calls g hg := hr.calls g (by rw [callees_append]; exact List.mem_append_left _ hg)
  comes := hr.comes
  room := hr.room.sub le_rfl (by rw [ey.pc]; exact Nat.le_add_right ..)
  anchors := hr.anchors

theorem right (hr : S.Ready (xs ++ ys) s u n I σ st) (ex : Emits s t xs) {m : Nat} (hm : m ≤ n)
    (ha : S.draft.Anchors τ) : S.Ready ys t u m I τ st where
  sized := ex.moves.sized hr.sized
  moves := hr.moves
  calls g hg := hr.calls g (by rw [callees_append]; exact List.mem_append_right _ hg)
  comes k hk := hr.comes k (hk.trans_le hm)
  room := hr.room.sub (by rw [ex.pc]; exact Nat.le_add_right ..) le_rfl
  anchors := ha

theorem again (hr : S.Ready code s t n I σ st) {m : Nat} (hm : m ≤ n) (ha : S.draft.Anchors τ) :
    S.Ready code s t m I τ st :=
  { hr with comes := fun k hk => hr.comes k (hk.trans_le hm), anchors := ha }

theorem has (hr : S.Ready code s t n I σ st) (e : Emits s t code) :
    S.program.Has s.emitter.pc code :=
  e.has hr.sized hr.moves S.layout.linked

theorem keeps (hr : S.Ready code s t n I σ st) (e : Emits s t code)
    (hd : ∀ x ∈ dests, Code.stores S.host.answers x code)
    (hτ : ∀ x, x ∉ dests ∧ S.Spares scope x → τ x = σ x) : S.draft.Anchors τ := by
  refine hr.anchors.of_eq S.seals fun x hx => hτ x ⟨fun hm => ?_, .inr fun ht => ?_⟩
  · exact Bool.false_ne_true (hx.symm.trans (stores_draft e hr.moves (hd x hm)))
  · exact Bool.false_ne_true (hx.symm.trans (stores_of_touches ht))

end Ready

instance : Closed (S.Crosses fresh scope) where
  still h := ⟨[], [], h.emits, by simp, fun _ => .here ⟨h.emits.silent.symm, rfl, fun _ _ => rfl⟩⟩
  trans := by
    rintro s t u ⟨xs, ds, ex, hds, hx⟩ ⟨ys, es, ey, hes, hy⟩
    refine ⟨xs ++ ys, ds ++ es, ex.trans ey, fun x hm => ?_, fun {n I σ st h} hr => ?_⟩
    · obtain hm | hm := List.mem_append.mp hm
      · obtain ⟨hs, hf⟩ := hds x hm
        exact ⟨Code.stores_append_left hs ys, hf⟩
      · obtain ⟨hs, hf⟩ := hes x hm
        exact ⟨Code.stores_append_right xs hs, fun hfresh => Moves.new ex.moves (hf hfresh)⟩
    · refine (hx (hr.left ey)).bind fun m hm v hv => ?_
      obtain ⟨pc, σ', st', h'⟩ := v
      obtain ⟨rfl, rfl, hstore⟩ := hv
      have ha := (hr.left ey).keeps ex (fun x hx => (hds x hx).1) hstore
      refine (hy (hr.right ex hm ha)).imp (fun _ h => h) fun w hw =>
        ⟨hw.pc, hw.stack, fun x ⟨hx, hsp⟩ => ?_⟩
      rw [List.mem_append, not_or] at hx
      rw [hw.store x ⟨hx.2, hsp⟩, hstore x ⟨hx.1, hsp⟩]

theorem crosses_of_plain (e : Emits s t code) (hn : ∀ i ∈ code, i.target? = none)
    (hp : Plain S.host S.program.code code dests)
    (hd : ∀ x ∈ dests, Code.stores S.host.answers x code ∧ (fresh → s.vars.contains x = false)) :
    S.Crosses fresh scope s t := by
  refine ⟨code, dests, e, hd, fun {n I σ st h} hr => ?_⟩
  have hroom := hr.room
  rw [e.pc] at hroom ⊢
  exact (hp ((hr.has e).at_of_noTarget hn) hroom).imp (fun _ h => h) fun v hv =>
    ⟨hv.pc, hv.stack, fun x hx => hv.store x hx.1⟩

theorem crosses_assign {dst src : String} (e : Emits s t (Block.assign dst src))
    (hd : fresh → s.vars.contains dst = false) : S.Crosses fresh scope s t := by
  refine crosses_of_plain e Block.target_assign (plain_assign dst src) fun x hx => ?_
  obtain rfl := List.mem_singleton.mp hx
  exact ⟨Code.stores_assign x src, hd⟩

theorem crosses_invoke {symbol : String} {operands : List String}
    (e : Emits s t (Block.invoke symbol operands))
    (hd : ∀ x ∈ results S.host symbol operands, fresh → s.vars.contains x = false) :
    S.Crosses fresh scope s t := by
  refine crosses_of_plain e Block.target_invoke (plain_invoke symbol operands) fun x hx =>
    ⟨?_, hd x hx⟩
  rw [results] at hx
  split at hx
  case isTrue ha => exact Code.stores_invoke ha (Option.mem_toList.mp hx)
  case isFalse => cases hx

theorem fits_of_results {g : Function} {r : Block.Outcome} {cs : List (Cell D)}
    (hr : r = .none ↔ g.ret.isVoid) (hc : cs.length = g.results) : Fits r cs := by
  rw [Function.results] at hc
  cases r with
  | none =>
      rw [if_pos (hr.mp rfl)] at hc
      exact List.length_eq_zero_iff.mp hc
  | discard | into =>
      rw [if_neg fun hv => Block.Outcome.noConfusion (hr.mpr hv)] at hc
      exact List.length_eq_one_iff.mp hc

theorem exists_entry {g : Function} {l : Nat} (hg : g ∈ S.functions)
    (hl : S.draft.emitter.named.lookup (Names.functionId g.name g.types) = some l) :
    ∃ a, S.draft.Bound l a ∧ S.draft.callee S.functions l = some g := by
  obtain ⟨k, st, hk, hf⟩ := S.layout.exists_define hg
  exact ⟨_, (S.layout.entry_bound hk hf hl).1, S.layout.entered g hg l hl⟩

section

variable {g : Function} {k : String} {args : List String} {entry back : Nat} {r : Block.Outcome}
  {s₁ s₂ : Draft} (C : Site (S.context scope) g k args entry back r s s₁ s₂ t)
include C

theorem mem_callees_site (hF : Moves t S.draft) :
    g ∈ S.draft.callees S.functions (Block.enter ⟨Names.returnAddress, scope.env, k, args, entry⟩ ++
      Block.leave r scope.env Names.returnAddress) := by
  obtain ⟨_, _, hg⟩ := exists_entry C.callee
    ((Moves.grows ((C.enter.trans C.leave).moves.trans hF)).named C.named)
  rw [Block.enter_eq, callees_append, callees_append, callees_append]
  exact List.mem_append_left _
    (List.mem_append_right _ (List.mem_append_right _ (mem_callees_goto hg)))

theorem const_site (hF : Moves t S.draft) (ha : S.draft.Anchors σ) : σ k = .addr s₂.emitter.pc := by
  have hF₂ : Moves s₂ S.draft := C.leave.moves.trans hF
  refine ha ⟨k, .uint32, .label back⟩ ((Moves.grows hF₂).declared.subset ?_) back _ rfl
    ((Moves.grows hF₂).bound C.bound)
  rw [C.vars, C.const]
  exact List.mem_append_right _ (List.mem_singleton.mpr rfl)

theorem stores_site {x : String} (hx : x ∈ (r.declares g.ret).map Variable.name) :
    Code.stores S.host.answers x (Block.enter ⟨Names.returnAddress, scope.env, k, args, entry⟩ ++
      Block.leave r scope.env Names.returnAddress) ∧ s.vars.contains x = false := by
  cases r with
  | none | discard => cases hx
  | into y =>
      obtain rfl := List.mem_singleton.mp hx
      rw [Block.leave_eq]
      refine ⟨Code.stores_append_right _ (Code.stores_append_left (Code.stores_popInto _) _), ?_⟩
      exact Moves.new (C.begins.skip C.enter).moves (C.fresh _ rfl)

/-- A call: the callee comes back, and then the caller has its parameters and its return
address again. -/
theorem crosses_site : S.Crosses fresh scope s t := by
  refine ⟨_, (r.declares g.ret).map Variable.name, C.emits,
    fun x hx => (stores_site C hx).imp_right fun hx _ => hx, fun {n I σ st h} hr => ?_⟩
  have hF₂ : Moves s₂ S.draft := C.leave.moves.trans hr.moves
  have hnamed := (Moves.grows (C.enter.moves.trans hF₂)).named C.named
  obtain ⟨a, ha, _⟩ := exists_entry C.callee hnamed
  have hlabel : Label.address S.program.labels entry = .ok a := by rw [S.layout.labels]; exact ha
  have henter := C.enter.has (C.begins.moves.sized hr.sized) hF₂ S.layout.linked
  have hleave := C.leave.has ((C.begins.skip C.enter).moves.sized hr.sized) hr.moves S.layout.linked
  have hroom := hr.room
  rw [← C.begins.silent] at hroom ⊢
  have hpc := C.enter.pc
  have hpc' := C.leave.pc
  refine .enter henter hlabel hroom (by omega) fun m hm => ?_
  have hlen : (args.map (cell σ)).reverse.length = g.types.length := by simpa using C.arity
  have hret : (cell σ k).value = .addr s₂.emitter.pc := const_site C hr.moves hr.anchors
  -- the jump has taken a step, so there is less to say of the callee
  have hcomes :=
    hr.comes m hm g (hr.calls g (mem_callees_site C hr.moves)) hnamed ha hlen hret hr.anchors
  refine ((hcomes _ h).imp (fun v hv => hroom.deep (lt_of_lt_of_le ?_ hv)) fun _ hv => hv).bind
    fun m' _ v hv => ?_
  · simp only [saved, List.length_append, List.length_reverse, List.length_map, List.length_cons]
    omega
  · obtain ⟨pc, ρ, stack, h'⟩ := v
    obtain ⟨rfl, ⟨res, rfl, hres⟩, hstore⟩ := hv
    refine .leave (fits_of_results C.outcome hres) hleave (hroom.sub (by omega) le_rfl) hpc'.ge
      (.here ⟨hpc'.symm, rfl, fun y hspare => ?_⟩)
    obtain ⟨hy, hsp⟩ := hspare
    by_cases hy' : y ∈ Names.returnAddress :: scope.env
    · exact restored_of_mem hy'
    · refine (restored_of_not_mem hy' ?_).trans (hstore y (hsp.resolve_left hy'))
      rintro rfl
      exact hy (List.mem_singleton.mpr rfl)

end

theorem along_temp {cx : Context} {kind : String} {ty : Ty} {f : String → List Instr}
    (hf : ∀ {x s t}, Emits s t (f x) → s.vars.contains x = false → S.Crosses fresh scope s t) :
    Along (S.Crosses fresh scope) (do
      let x ← temp cx kind ty
      emit (f x)
      return Operand.var x) := by
  refine ⟨(Refuses.generate ..).bind fun x => (Refuses.modify _).bind fun _ => .pure _, fun h => ?_⟩
  simp only [bind_eq_ok, pure_eq_ok] at h
  obtain ⟨x, s₁, hx, _, s₂, he, _, rfl⟩ := h
  exact hf ((generate_emits hx).skip (emit_emits he)) (generate_eq_ok hx).2.1

theorem crosses_invoke_last {symbol x : String} (operands : List String)
    (e : Emits s t (Block.invoke symbol (operands ++ [x]))) (hx : s.vars.contains x = false) :
    S.Crosses fresh scope s t := by
  refine crosses_invoke e fun y hy _ => ?_
  rw [results] at hy
  split at hy
  case isTrue =>
    rw [List.getLast?_concat, Option.mem_toList] at hy
    cases hy
    exact hx
  case isFalse => cases hy

instance : ExprClosed (S.context scope) (S.Crosses fresh scope) where
  hostCall {kind owner name types m} hm operands := by
    have ha : S.host.answers m.symbol = !m.ret.isVoid := S.agrees hm
    refine .bind (.note _) fun _ => ?_
    split
    case isTrue hv =>
      refine .bind ⟨.modify _, fun h => crosses_invoke (emit_emits h) fun x hx => ?_⟩ fun _ =>
        .pure _
      simp [results, ha, hv] at hx
    case isFalse => exact along_temp (crosses_invoke_last operands)
  cast name args := by
    rw [Lower.cast.eq_def]
    split
    · exact along_temp fun e hx => crosses_assign e fun _ => hx
    · exact .reject rfl
  boolean b := by
    rw [Lower.boolean]
    split
    · exact .bind (.generate fun _ => trivial) fun text => along_temp (crosses_invoke_last [text])
    · exact .reject rfl
  userCall name args discard := ⟨.userCall .., fun h => by
    obtain ⟨g, k, entry, back, r, s₁, s₂, C, _⟩ := userCall_eq_ok h
    exact crosses_site C⟩

instance : StmtClosed (S.context scope) (S.Crosses False scope) where
  assign _ _ := ⟨.modify _, fun h => crosses_assign (emit_emits h) (False.elim ·)⟩

end Stage
end StackScript
