import StackScript.Proofs.Calls.Crossing

namespace StackScript

open Draft Machine Lower

namespace Stage

variable {D H : Type} {S : Stage D H} {s t u : Draft} {scope : Scope} {fresh : Prop} {g : Function}
  {xs ys code : List Instr} {n : Nat} {σ τ : Store D} {st : List (Cell D)} {ret : Cell D} {r : Nat}
  {h : H}

theorem anchors_of_untouched (ha : S.draft.Anchors σ) (hτ : ∀ x, ¬ S.Touches x → τ x = σ x) :
    S.draft.Anchors τ :=
  ha.of_eq S.seals fun x hx => hτ x fun ht =>
    Bool.false_ne_true (hx.symm.trans (stores_of_touches ht))

theorem address_of_bound (S : Stage D H) {l a : Nat} (hF : Moves t S.draft) (hb : t.Bound l a) :
    Label.address S.program.labels l = .ok a := by
  rw [S.layout.labels]
  exact (Moves.grows hF).bound hb

/-- The function has gone back, or else, unless `never`, it is at an address of its own, with the
return address on top of the caller's stack. -/
def Gone (S : Stage D H) (g : Function) (never : Bool) (a : Nat) (σ : Store D) (r : Nat)
    (ret : Cell D) (st : List (Cell D)) (v : State D H) : Prop :=
  S.Back g σ r st v ∨ never = false ∧ Keeps (¬ S.Touches ·) a σ (ret :: st) v

theorem Back.of_eq {v : State D H} (hv : S.Back g τ r st v) (hτ : ∀ x, ¬ S.Touches x → τ x = σ x) :
    S.Back g σ r st v :=
  ⟨hv.pc, hv.stack, fun x hx => (hv.store x hx).trans (hτ x hx)⟩

theorem Gone.of_eq {b : Bool} {a : Nat} {v : State D H} (hv : S.Gone g b a τ r ret st v)
    (hτ : ∀ x, ¬ S.Touches x → τ x = σ x) : S.Gone g b a σ r ret st v :=
  hv.imp (·.of_eq hτ) fun ⟨hb, hv⟩ =>
    ⟨hb, hv.pc, hv.stack, fun x hx => (hv.store x hx).trans (hτ x hx)⟩

theorem Gone.or {b c : Bool} {a : Nat} {v : State D H} (hv : S.Gone g c a σ r ret st v)
    (hb : c = false → b = false) :
    S.Gone g b a σ r ret st v :=
  hv.imp_right fun ⟨hc, hv⟩ => ⟨hb hc, hv⟩

theorem update_untouched {x y : String} (hx : S.Touches x) (v : Value D) (hy : ¬ S.Touches y) :
    Function.update σ x v y = σ y := by
  have hne : y ≠ x := by
    rintro rfl
    exact hy hx
  exact Function.update_of_ne hne ..

theorem until_ret (e : Emits s t (Block.ret Names.returnAddress none)) (hv : g.ret.isVoid)
    (hret : ret.value = .addr r) (hslot : S.Touches Names.returnAddress)
    (hr : S.Ready (Block.ret Names.returnAddress none) s t n (Above st) σ (ret :: st)) :
    Until S.host S.program.code (Above st) (S.Back g σ r st) n ⟨s.emitter.pc, σ, ret :: st, h⟩ := by
  have hc := (hr.has e).at_of_noTarget Block.target_ret
  have hroom a b : Room (Above (H := H) st) a b st := room_above le_rfl a b
  have hback : Function.update σ Names.returnAddress ret.value Names.returnAddress = .addr r := by
    rw [Function.update_self, hret]
  refine .popInto hc.left (hroom _ _) le_rfl (.exit hc.right hback (hroom _ _) le_rfl (.here ?_))
  refine ⟨rfl, ⟨[], rfl, ?_⟩, fun y => update_untouched hslot _⟩
  rw [Function.results, if_pos hv]
  rfl

/-- Code of a function that is run with the return address on top of the caller's stack. It goes
back to the caller, or else, unless `never`, to its end. -/
def Ends (S : Stage D H) (g : Function) (never : Bool) (s t : Draft) : Prop :=
  ∃ code, Emits s t code ∧ ∀ {n σ st ret r h}, ret.value = .addr r →
    (∀ x, Code.stores S.host.answers x code → S.Touches x) →
    S.Ready code s t n (Above st) σ (ret :: st) →
    Until S.host S.program.code (Above st) (S.Gone g never t.emitter.pc σ r ret st) n
      ⟨s.emitter.pc, σ, ret :: st, h⟩

namespace Ends

theorem moves {b : Bool} (hx : S.Ends g b s t) : Moves s t := by
  obtain ⟨_, e, _⟩ := hx
  exact e.moves

theorem nil (s : Draft) : S.Ends g false s s :=
  ⟨[], .refl s, fun _ _ _ => .here (.inr ⟨rfl, rfl, rfl, fun _ _ => rfl⟩)⟩

theorem of_crosses (hc : S.Crosses fresh scope s t) : S.Ends g false s t := by
  obtain ⟨code, dests, e, hd, hrun⟩ := hc
  refine ⟨code, e, fun {n σ st ret r h} _ ht hr => (hrun hr).imp (fun _ h => h) fun v hv =>
    .inr ⟨rfl, ?_⟩⟩
  exact ⟨hv.pc, hv.stack, fun x hx => hv.store x ⟨fun hm => hx (ht x (hd x hm).1), .inr hx⟩⟩

theorem trans {b c : Bool} (hx : S.Ends g b s t) (hy : S.Ends g c t u) : S.Ends g (b || c) s u := by
  obtain ⟨xs, ex, hx⟩ := hx
  obtain ⟨ys, ey, hy⟩ := hy
  refine ⟨xs ++ ys, ex.trans ey, fun {n σ st ret r h} hret ht hr => ?_⟩
  have htx x (hs : Code.stores S.host.answers x xs) := ht x (Code.stores_append_left hs ys)
  have hty x (hs : Code.stores S.host.answers x ys) := ht x (Code.stores_append_right xs hs)
  refine (hx hret htx (hr.left ey)).bind fun m hm v hv => ?_
  obtain hv | ⟨hb, hv⟩ := hv
  · exact .here (.inl hv)
  · obtain ⟨pc, τ, stack, h'⟩ := v
    obtain ⟨rfl, rfl, hτ⟩ := hv
    have hr' := hr.right ex hm (anchors_of_untouched hr.anchors hτ)
    exact (hy hret hty hr').imp (fun _ h => h) fun w hw => (hw.of_eq hτ).or fun hc => by
      simp [hb, hc]

theorem skip {b : Bool} (e : Emits s t []) (hx : S.Ends g b t u) : S.Ends g b s u := by
  obtain ⟨xs, ex, hx⟩ := hx
  refine ⟨xs, e.skip ex, fun {n σ st ret r h} hret ht hr => ?_⟩
  rw [← e.silent]
  rw [← List.nil_append xs] at hr
  exact hx hret ht (hr.right e le_rfl hr.anchors)

theorem still {b : Bool} (hx : S.Ends g b s t) (e : Emits t u []) : S.Ends g b s u := by
  obtain ⟨xs, ex, hx⟩ := hx
  refine ⟨xs, ex.still e, fun {n σ st ret r h} hret ht hr => ?_⟩
  rw [e.silent]
  rw [← List.append_nil xs] at hr
  exact hx hret ht (hr.left e)

theorem branch {b c : Bool} {x : String} {l₁ l₂ : Nat} {s₁ s₂ s₃ : Draft}
    (ej : Emits s s₁ (Block.branchUnless x l₁)) (hy : S.Ends g b s₁ s₂)
    (et : Emits s₂ s₃ (Block.goto l₂)) (h₁ : s₃.Bound l₁ s₃.emitter.pc) (hz : S.Ends g c s₃ t)
    (h₂ : t.Bound l₂ t.emitter.pc) :
    S.Ends g (b && c) s t := by
  obtain ⟨ys, ey, hy⟩ := hy
  obtain ⟨zs, ez, hz⟩ := hz
  have eyz := ey.trans (et.trans ez)
  refine ⟨_, ej.trans eyz, fun {n σ st ret r h} hret ht hr => ?_⟩
  refine .branchUnless ((hr.left eyz).has ej) (S.address_of_bound (ez.moves.trans hr.moves) h₁)
    (room_above (by simp) _ _) le_rfl (fun m hm => ?_) fun m hm => ?_
  · have hr' :=
      ((hr.right ej hm.le hr.anchors).right ey le_rfl hr.anchors).right et le_rfl hr.anchors
    have htz x (hs : Code.stores S.host.answers x zs) :=
      ht x (Code.stores_append_right _
        (Code.stores_append_right ys (Code.stores_append_right _ hs)))
    exact (hz hret htz hr').imp (fun _ h => h) fun v hv => hv.or fun hc => by simp [hc]
  · rw [← ej.pc]
    have hr' := hr.right ej hm.le hr.anchors
    have hty x (hs : Code.stores S.host.answers x ys) :=
      ht x (Code.stores_append_right _ (Code.stores_append_left hs _))
    refine (hy hret hty (hr'.left (et.trans ez))).bind fun k _ v hv => ?_
    obtain hv | ⟨hb, hv⟩ := hv
    · exact .here (.inl hv)
    · obtain ⟨pc, τ, stack, h'⟩ := v
      obtain ⟨rfl, rfl, hτ⟩ := hv
      have hgoto := ((hr'.right ey le_rfl hr.anchors).left ez).has et
      exact .goto hgoto (S.address_of_bound hr.moves h₂) (Nat.le_succ _) fun k _ =>
        .here (.inr ⟨by simp [hb], rfl, rfl, hτ⟩)

theorem loop {b : Bool} {x : String} {l₁ l₂ : Nat} {s₁ s₂ s₃ : Draft} (hx : S.Ends g false s s₁)
    (h₁ : s₁.Bound l₁ s.emitter.pc) (ej : Emits s₁ s₂ (Block.branchUnless x l₂))
    (hy : S.Ends g b s₂ s₃) (et : Emits s₃ t (Block.goto l₁)) (h₂ : t.Bound l₂ t.emitter.pc) :
    S.Ends g false s t := by
  obtain ⟨xs, ex, hx⟩ := hx
  obtain ⟨ys, ey, hy⟩ := hy
  have eyt := ey.trans et
  have ejt := ej.trans eyt
  refine ⟨_, ex.trans ejt, fun {n σ st ret r h} hret ht hr => ?_⟩
  have htx x (hs : Code.stores S.host.answers x xs) := ht x (Code.stores_append_left hs _)
  have hty x (hs : Code.stores S.host.answers x ys) :=
    ht x (Code.stores_append_right xs (Code.stores_append_right _ (Code.stores_append_left hs _)))
  -- a turn takes at least one step, so all later turns are covered by fewer steps
  induction n using Nat.strong_induction_on generalizing σ h with
  | _ n ih =>
      refine (hx hret htx (hr.left ejt)).bind fun m hm v hv => ?_
      obtain hv | ⟨_, hv⟩ := hv
      · exact .here (.inl hv)
      · obtain ⟨pc, τ, stack, h'⟩ := v
        obtain ⟨rfl, rfl, hτ⟩ := hv
        have hrj := hr.right ex hm (anchors_of_untouched hr.anchors hτ)
        refine .branchUnless ((hrj.left eyt).has ej) (S.address_of_bound hr.moves h₂)
          (room_above (by simp) _ _) le_rfl (fun k hk => .here (.inr ⟨rfl, rfl, rfl, hτ⟩))
          fun k hk => ?_
        rw [← ej.pc]
        have hry := hrj.right ej hk.le hrj.anchors
        refine (hy hret hty (hry.left et)).bind fun k' hk' w hw => ?_
        obtain hw | ⟨_, hw⟩ := hw
        · exact .here (Gone.of_eq (.inl hw) hτ)
        · obtain ⟨pc, ρ, stack, h''⟩ := w
          obtain ⟨rfl, rfl, hρ⟩ := hw
          have hρσ x (hx : ¬ S.Touches x) : ρ x = σ x := (hρ x hx).trans (hτ x hx)
          have hrt := hry.right ey hk' (anchors_of_untouched hry.anchors hρ)
          refine .goto (hrt.has et) (S.address_of_bound (ejt.moves.trans hr.moves) h₁)
            (Nat.le_succ _)
            fun i hi => ?_
          have hin : i < n := hi.trans_le (hk'.trans (hk.le.trans hm))
          exact (ih i hin (hr.again hin.le hrt.anchors)).imp (fun _ h => h) fun _ hv => hv.of_eq hρσ

theorem leave {id : String} {p : Pos} {e : Option Expr}
    (h : stmt (S.context (.function id g.ret g.params)) (.ret p e) s = .ok () t)
    (hs : s.vars.contains Names.returnAddress) : S.Ends g true s t := by
  obtain ⟨hv, e⟩ | ⟨hv, x, s₁, s₂, ep, hvars, ⟨xs, dests, ex, hd, hx⟩, _, ee⟩ :=
    ret_eq_ok (R := S.Crosses True (.function id g.ret g.params)) rfl h
  · refine ⟨_, e, fun {n σ st ret r h} hret ht hr => ?_⟩
    have hslot := ht _ (Code.stores_append_left (Code.stores_popInto Names.returnAddress) _)
    exact (until_ret e hv hret hslot hr).imp (fun _ h => h) fun _ => .inl
  · refine ⟨_, ep.trans (ex.trans ee), fun {n σ st ret r h} hret ht hr => ?_⟩
    have hslot := ht _ (Code.stores_append_left (Code.stores_popInto Names.returnAddress) _)
    have hroom a b : Room (Above (H := H) st) a b st := room_above le_rfl a b
    have hcp := ((hr.left (ex.trans ee)).has ep).at_of_noTarget Block.target_popInto
    have hσ y : ¬ S.Touches y → Function.update σ Names.returnAddress ret.value y = σ y :=
      update_untouched hslot ret.value
    have hrx := hr.right ep le_rfl (anchors_of_untouched hr.anchors hσ)
    refine .popInto hcp (hroom _ _) le_rfl ?_
    have hpc : s.emitter.pc + 6 = s₁.emitter.pc := ep.pc.symm
    rw [hpc]
    have hready : S.Ready xs s₁ s₂ n (Above st) _ st := { hrx.left ee with room := hroom _ _ }
    refine (hx hready).bind fun m hm v hv => ?_
    obtain ⟨pc, ρ, stack, h'⟩ := v
    obtain ⟨rfl, rfl, hρ⟩ := hv
    -- the return address is still in its place: it was known, and it is saved around calls
    have hback : ρ Names.returnAddress = .addr r := by
      refine (hρ _ ⟨fun hm => ?_, .inl List.mem_cons_self⟩).trans ?_
      · rw [hvars] at hd
        exact Bool.false_ne_true (((hd _ hm).2 trivial).symm.trans hs)
      · rw [Function.update_self, hret]
    have hce := ((hrx.right ex le_rfl hrx.anchors).has ee).at_of_noTarget Block.target_exit
    refine .exit hce hback (hroom _ _) le_rfl
      (.here (.inl ⟨rfl, ⟨[cell ρ x], rfl, ?_⟩, fun y hy => ?_⟩))
    · rw [Function.results, if_neg (by simpa using hv)]
      rfl
    · have hy' : y ∉ dests := fun hm => hy (ht y (Code.stores_append_right _
        (Code.stores_append_left (hd y hm).1 _)))
      exact (hρ y ⟨hy', .inr hy⟩).trans (hσ y hy)

end Ends

theorem ends_of_lowered {id : String} {ss : List Stmt}
    (h : Lowered (S.context (.function id g.ret g.params)) ss s t)
    (hs : s.vars.contains Names.returnAddress) :
    S.Ends g (Stmt.returnsIn ss) s t := by
  induction h with
  | nil s => exact .nil s
  | @plain st ss s t u hp hst _ ih =>
      have hc : S.Crosses False (.function id g.ret g.params) s t := (Along.stmt hp).of_ok hst
      have hx : S.Ends g false s t := .of_crosses hc
      rw [Stmt.returnsIn, Stmt.returns_of_isPlain hp]
      exact hx.trans (ih (hx.moves.contains hs))
  | leave hst _ ih =>
      have hx : S.Ends g true _ _ := .leave hst hs
      exact hx.trans (ih (hx.moves.contains hs))
  | branch hn hh _ ht _ he _ ihb iho ihr =>
      have en := note_emits hn
      obtain ⟨x, s', hc, ej⟩ :=
        branchHead_eq_ok (R := S.Crosses True (.function id g.ret g.params)) hh
      obtain ⟨et, h₁⟩ := branchTurn_emits ht
      obtain ⟨ee, h₂, _⟩ := bindLabel_emits he
      have hx : S.Ends g false _ _ := .skip en (.of_crosses hc)
      have hs₁ := ej.moves.contains (hx.moves.contains hs)
      have hy := ihb hs₁
      have hz := iho (et.moves.contains (hy.moves.contains hs₁))
      rw [← ee.silent] at h₂
      have hxt := hx.trans (.branch ej hy et h₁ (hz.still ee) h₂)
      exact hxt.trans (ihr (hxt.moves.contains hs))
  | loop hn hh _ ht _ ihb ihr =>
      have en := note_emits hn
      obtain ⟨x, s₀, s', e₀, hc, h₁, ej⟩ :=
        loopHead_eq_ok (R := S.Crosses True (.function id g.ret g.params)) hh
      obtain ⟨et, h₂⟩ := loopTail_emits ht
      have hx : S.Ends g false _ _ := .skip e₀ (.of_crosses hc)
      have hy := ihb (ej.moves.contains (hx.moves.contains (en.moves.contains hs)))
      have hxt := Ends.skip en (.loop hx h₁ ej hy et h₂)
      exact hxt.trans (ihr (hxt.moves.contains hs))

theorem ready_body {k : Nat} {stmt : Stmt} {s₁ : Draft} (hg : S.calls g)
    (hk : S.script.body[k]? = some stmt) (ex : Emits (S.drafts k) s₁ xs)
    (hcode : S.script.codeOf S.catalog g = xs ++ ys)
    (hcomes : ∀ m < n, ∀ g, S.calls g → S.Comes m g) (ha : S.draft.Anchors σ) :
    S.Ready ys s₁ (S.drafts (k + 1)) n (Above st) σ (ret :: st) where
  sized := by
    have hlt := (List.getElem?_eq_some_iff.mp hk).1
    exact Moves.sized ((S.layout.moves_empty hlt.le).trans ex.moves) rfl
  moves := S.layout.moves (List.getElem?_eq_some_iff.mp hk).1 le_rfl
  calls g' hg' := by
    refine S.closed hg ?_
    rw [hcode, callees_append]
    exact List.mem_append_right _ hg'
  comes := hcomes
  room := room_above (by simp) _ _
  anchors := ha

theorem comes (n : Nat) (hg : S.calls g) : S.Comes n g := by
  induction n using Nat.strong_induction_on generalizing g with
  | _ n ih =>
      intro l a r σ args ret hl ha hlen hret hσ st h
      obtain ⟨k, stmt, code, hk, hf, e, hcode⟩ := S.layout.codeOf_eq (S.known hg)
      obtain ⟨hparams, s₁, s₂, ep, hvars, hbody, er⟩ := S.layout.function_eq hk hf
      have hlt := (List.getElem?_eq_some_iff.mp hk).1
      have hknown := (S.layout.known hlt.le).1
      rw [← hvars] at hknown
      obtain ⟨ys, ey, hy⟩ := ends_of_lowered (S := S) hbody hknown
      obtain rfl : code = Block.popIntoAll g.params ++ (ys ++ Block.ret Names.returnAddress none) :=
        List.append_cancel_left (e.code.symm.trans (ep.trans (ey.trans er)).code)
      have htouch x (hx : Code.stores S.host.answers x _) : S.Touches x := ⟨g, hg, hcode ▸ hx⟩
      obtain rfl : a = (S.drafts k).emitter.pc :=
        Except.ok.inj (ha.symm.trans (S.layout.entry_bound hk hf hl).1)
      let τ := σ.assign g.params.reverse (args.map Cell.value)
      have hτ x (hx : ¬ S.Touches x) : τ x = σ x := Store.assign_of_not_mem fun hm =>
        hx (htouch x (Code.stores_append_left (Code.stores_popIntoAll (List.mem_reverse.mp hm)) _))
      have hr : S.Ready _ s₁ _ n (Above st) τ (ret :: st) :=
        ready_body hg hk ep hcode (fun m hm g' hg' => ih m hm hg') (anchors_of_untouched hσ hτ)
      have htake :=
        ep.has (S.layout.size_code hlt.le) ((ey.trans er).moves.trans hr.moves) S.layout.linked
      refine .popIntoAll g.params args (hparams.trans hlen.symm)
        (htake.at_of_noTarget Block.target_popIntoAll)
        (room_above (by simp) _ _) le_rfl ?_
      rw [← ep.pc]
      refine (hy hret (fun x hx => htouch x ?_) (hr.left er)).bind fun m hm v hv => ?_
      · exact Code.stores_append_right _ (Code.stores_append_left hx _)
      · obtain hv | ⟨hends, hv⟩ := hv
        · exact .here (hv.of_eq hτ)
        · -- the end is reached, so the function has no result
          obtain ⟨pc, ρ, stack, h'⟩ := v
          obtain ⟨rfl, rfl, hρ⟩ := hv
          have hvoid :=
            (S.returns hg stmt (List.mem_of_getElem? hk) hf).resolve_right (by simp [hends])
          have hslot := htouch _ (Code.stores_append_right _ (Code.stores_append_right ys
            (Code.stores_append_left (Code.stores_popInto Names.returnAddress) _)))
          have hr' := hr.right ey hm (anchors_of_untouched hr.anchors hρ)
          exact (until_ret er hvoid hret hslot hr').imp (fun _ h => h) fun w hw =>
            (hw.of_eq hρ).of_eq hτ

end Stage
end StackScript
