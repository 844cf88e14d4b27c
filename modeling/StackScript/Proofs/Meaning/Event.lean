import StackScript.Proofs.StackContents
import StackScript.Proofs.Meaning.Stmt
import StackScript.Script.Build

namespace StackScript

open Draft Machine Lower

variable {D H : Type}

namespace Store

def receive (event : String) : List (Slot × Param) → Store D → Store D
  | [], σ => σ
  | (slot, p) :: rest, σ =>
      receive event rest (Function.update σ (Names.qualify event p.name) (σ slot.name))

/-- What the body of an event begins with. -/
def entered (c : Catalog) (event : String) (params : List Param) (σ : Store D) : Store D :=
  receive event (((c.event? event).getD []).zip params)
    (Function.update σ Names.returnAddress (.addr haltAddress))

theorem receive_of_ne {event x : String} {args : List (Slot × Param)} {σ : Store D}
    (hx : ∀ a ∈ args, x ≠ Names.qualify event a.2.name) : σ.receive event args x = σ x := by
  induction args generalizing σ with
  | nil => rfl
  | cons a args ih =>
      rw [List.forall_mem_cons] at hx
      rw [receive, ih hx.2, Function.update_of_ne hx.1]

theorem entered_of_temporary {c : Catalog} {event x : String} {params : List Param} {σ : Store D}
    (hp : ∀ p ∈ params, Names.IsProper p.name) (hx : Names.Temporary event x) :
    σ.entered c event params x = σ x := by
  rw [entered, receive_of_ne, Function.update_of_ne]
  · rintro rfl
    exact Names.IsPlain.not_temporary (by decide) hx
  · rintro ⟨slot, p⟩ ha rfl
    exact (hp p (List.of_mem_zip ha).2).not_temporary_qualify hx

end Store

namespace Machine

variable {E : Host D H} {code : List Instr} {st : List (Cell D)} {h : H}

theorem Reaches.endless {s t : State D H} (hr : Reaches E code s t) (ht : Endless E code t) :
    Endless E code s := by
  intro n
  obtain ⟨k, hk⟩ := hr
  obtain ⟨u, hu⟩ := ht n
  have hall := hk.trans hu
  rw [Nat.add_comm] at hall
  exact hall.front

theorem reaches_receive (event : String) (args : List (Slot × Param)) {a : Nat} {σ : Store D}
    (hc : Code.At code a (args.flatMap fun (slot, p) =>
      Block.assign (Names.qualify event p.name) slot.name)) :
    Reaches E code ⟨a, σ, st, h⟩
      ⟨a + Code.size (args.flatMap fun (slot, p) =>
        Block.assign (Names.qualify event p.name) slot.name),
        σ.receive event args, st, h⟩ := by
  induction args generalizing a σ with
  | nil => exact .refl _
  | cons arg args ih =>
      rw [List.flatMap_cons] at hc ⊢
      rw [Code.add_size_append]
      exact (reaches_assign hc.left).trans (ih hc.right)

theorem reaches_eventHead {c : Catalog} {event : String} {params : List Param} {a : Nat}
    {σ : Store D} (hc : Code.At code a (eventHead c event params)) :
    Reaches E code ⟨a, σ, st, h⟩
      ⟨a + Code.size (eventHead c event params), σ.entered c event params, st, h⟩ := by
  have hc : Code.At code a ([.pushAddr haltAddress] ++
      (Block.popInto Names.returnAddress ++ receiveSlots c event params)) := hc.tail
  have hsize : a + Code.size (eventHead c event params) =
      a + 5 + 6 + Code.size (receiveSlots c event params) := by
    simp only [eventHead, Block.popInto, Code.size_cons, Code.size_append, Code.size_nil,
      Instr.width]
    omega
  have hpush : Reaches E code ⟨a, σ, st, h⟩ ⟨a + 5, σ, ⟨none, .addr haltAddress⟩ :: st, h⟩ :=
    reaches_one hc.left (by simp [Instr.width]) rfl
  rw [hsize]
  exact hpush.trans ((reaches_popInto hc.right.left).trans (reaches_receive event _ hc.right.right))

end Machine

namespace Scene

variable {cx : Context} {S : Scene D H cx} {a n : Nat} {cmd : Cmd} {σ ρ : Store D} {h : H}

theorem Follows.halts (hc : S.Follows a haltAddress cmd) (hρ : S.Holds σ ρ) {left : Bool}
    {σ' : Store D} {h' : H} (hr : cmd.exec S.host S.reading n σ h = some (left, σ', h')) :
    ∃ ρ', S.Holds σ' ρ' ∧ ∀ st, Reaches S.host S.program.code ⟨a, ρ, st, h⟩
    ⟨haltAddress, ρ', st, h'⟩ := by
  have harr := hc n σ ρ h hρ
  rw [hr] at harr
  obtain ⟨ρ', hρ', hrun⟩ := harr
  simp only [ite_self] at hrun
  exact ⟨ρ', hρ', hrun⟩

theorem Follows.endless (hc : S.Follows a haltAddress cmd) (hρ : S.Holds σ ρ)
    (hr : ∀ n, cmd.exec S.host S.reading n σ h = none) (st : List (Cell D)) :
    Endless S.host S.program.code ⟨a, ρ, st, h⟩ := by
  intro n
  have harr := hc n σ ρ h hρ
  rw [hr n] at harr
  exact harr st

end Scene

/-- The constants of a scope have their first values. -/
def Program.Primed (p : Program) (scope : String) (I : Init → Value D) (σ : Store D) : Prop :=
  ∀ w ∈ p.vars, Names.Constant scope w.name → σ w.name = I w.init

namespace Module

variable {E : Host D H} {I : Init → Value D} {c : Catalog} {m : Module} {p : Program} {k : Nat}
  {pos : Pos} {name : String} {params : List Param} {returns : Option String} {body : List Stmt}

namespace Layout

variable {fs : Functions} {d : Nat → Draft} (L : Layout c m p fs d)
include L

def scene (hE : E.Agrees c) (I : Init → Value D) (hr : c.ReadsTruth) (he : Names.isEvent name) :
    Scene D H ⟨c, fs, .event name⟩ where
  host := E
  reading := I
  program := p
  draft := d m.body.length
  labels := L.labels
  linked := L.linked
  agrees := hE
  parse := hr
  inside := by
    rintro (rfl : name = "")
    cases he

theorem holds_entered (hE : E.Agrees c) (hr : c.ReadsTruth) (he : Names.isEvent name)
    (hp : ∀ q ∈ params, Names.IsProper q.name) {σ : Store D} (hσ : p.Primed name I σ) :
    (L.scene hE I hr he).Holds (σ.entered c name params) (σ.entered c name params) := by
  refine ⟨fun _ => rfl, fun {v} hv hc hi => ?_⟩
  obtain ⟨w, hw, hname, hinit⟩ := L.data hv hi
  obtain ⟨n, hn⟩ := hc
  have htemp : Names.Temporary name v.name := ⟨n, "const", hn⟩
  rw [Store.entered_of_temporary hp htemp, ← hname, hσ w hw ⟨n, hname.trans hn⟩, hinit]
  rfl

end Layout

/-- An event without calls of functions has a meaning, and the machine keeps to it: when the body
comes to an end, the machine halts with the same variables, temporaries apart, and the same host;
when it does not, neither does the machine. -/
theorem compile_event_meaning (hc : m.compile c = .ok p) (hE : E.Agrees c) (hr : c.ReadsTruth)
    (hk : m.body[k]? = some (.define pos name params returns body)) (he : Names.isEvent name)
    (hp : ∀ q ∈ params, Names.IsProper q.name) (hn : ∀ x ∈ Stmt.namesAll body, Names.IsProper x)
    (hf : Stmt.callFreeAll c body) :
    ∃ fs s cmd Γ, m.lowered c k = some (fs, s) ∧
      Stmt.meaningAll c name body s.vars.typing = some (cmd, Γ) ∧
      Code.At p.code s.emitter.pc [.eventHead name] ∧
      ∀ σ : Store D, p.Primed name I σ → ∀ st h,
        (∀ n left σ' h', cmd.exec E I n (σ.entered c name params) h = some (left, σ', h') →
          ∃ ρ, (∀ x, ¬ Names.Temporary name x → ρ x = σ' x) ∧
            Reaches E p.code ⟨s.emitter.pc, σ, st, h⟩ ⟨haltAddress, ρ, st, h'⟩) ∧
        ((∀ n, cmd.exec E I n (σ.entered c name params) h = none) →
          Endless E p.code ⟨s.emitter.pc, σ, st, h⟩) := by
  obtain ⟨fs, d, L⟩ := layout_of_compile hc
  have hlt := (List.getElem?_eq_some_iff.mp hk).1
  have ht := topLevel_of_lowered (L.lowered k hlt.le) (L.lowered (k + 1) hlt) hk
  rw [topLevel, if_pos he] at ht
  obtain ⟨s₁, s₂, eh, hv, hb, et⟩ := event_eq_ok ht
  let S := L.scene hE I hr he
  have hF₂ : Moves s₂ S.draft := et.moves.trans (L.moves hlt le_rfl)
  have hs : (d k).Sized := L.size_code hlt.le
  have hs₁ := eh.moves.sized hs
  have hnum := eh.moves.numbered (L.numbered hlt.le)
  have hm := hb.moves hnum
  have hat := (S.has eh hs (hm.trans hF₂)).at_of_noTarget target_eventHead
  have hend := (S.has et (hm.sized hs₁) (L.moves hlt le_rfl)).halt
  -- a body that is not left by a return runs on to the jump behind it
  have hjump : S.Jumps s₂.emitter.pc haltAddress := fun ρ st h => reaches_one hend (by decide) rfl
  have hΓ : (d k).vars.typing.Agrees name s₁.vars := fun _ _ => hv ▸ rfl
  obtain ⟨cmd, Γ, hmean, -, hcmd⟩ := Scene.does_statements (S := S) rfl hb hn hf hs₁ hnum hF₂ hΓ
  refine ⟨fs, d k, cmd, Γ, L.lowered k hlt.le, hmean, hat.left, fun σ hσ st h => ?_⟩
  have hρ := L.holds_entered hE hr he hp hσ
  have hhead : Reaches E p.code ⟨(d k).emitter.pc, σ, st, h⟩
      ⟨s₁.emitter.pc, σ.entered c name params, st, h⟩ := by
    rw [eh.pc]
    exact reaches_eventHead hat
  refine ⟨fun n left σ' h' hrun => ?_,
    fun hrun => hhead.endless ((hcmd.jump hjump).endless hρ hrun st)⟩
  obtain ⟨ρ, hρ', hends⟩ := (hcmd.jump hjump).halts hρ hrun
  exact ⟨ρ, fun x hx => hρ'.user hx, hhead.trans (hends st)⟩

def arithmetic : Catalog :=
  ⟨[("SystemUInt32", "SystemUInt32"), ("SystemInt32", "SystemInt32"),
    ("SystemBoolean", "SystemBoolean"), ("SystemString", "SystemString")],
    [⟨.static, "SystemInt32", "op_LessThan", ["SystemInt32", "SystemInt32"],
        some "SystemBoolean", "less"⟩,
      ⟨.static, "SystemInt32", "op_Addition", ["SystemInt32", "SystemInt32"],
        some "SystemInt32", "add"⟩,
      ⟨.static, "SystemInt32", "op_Subtraction", ["SystemInt32", "SystemInt32"],
        some "SystemInt32", "sub"⟩,
      ⟨.static, "SystemBoolean", "Parse", ["SystemString"], some "SystemBoolean", "parse"⟩], []⟩

def calculator : Host Int Nat where
  answers _ := true
  call symbol args count :=
    match symbol, args with
    | "less", [.datum a, .datum b] => (.truth (a < b), count + 1)
    | "add", [.datum a, .datum b] => (.datum (a + b), count + 1)
    | "sub", [.datum a, .datum b] => (.datum (a - b), count + 1)
    | _, _ => (.truth true, count + 1)

def digits : Init → Value Int
  | .literal "1" => .datum 1
  | .literal "3" => .datum 3
  | _ => .datum 0

def countUp : List Stmt :=
  [Build.loop (.compare .unknown (.name .unknown "n") [.lt] [.int .unknown 3])
      [Build.assign (.name .unknown "n")
        (.binary .unknown (.name .unknown "n") .add (.int .unknown 1))],
    Build.assign (.name .unknown "rest")
      (.binary .unknown (.name .unknown "n") .sub (.int .unknown 1)),
    Build.assign (.name .unknown "done") (.bool .unknown true)]

def counter : Module :=
  ⟨[Build.assign (.name .unknown "n") (.int .unknown 0), Build.define "_start" [] none countUp]⟩

theorem calculator_agrees : calculator.Agrees arithmetic := by
  intro kind owner name args m hm
  obtain ⟨x, hx, rfl⟩ := Option.map_eq_some_iff.mp hm
  have hmem := List.mem_of_find?_eq_some hx
  simp only [arithmetic, List.mem_cons, List.not_mem_nil, or_false] at hmem
  obtain rfl | rfl | rfl | rfl := hmem <;> rfl

theorem arithmetic_readsTruth : arithmetic.ReadsTruth := by
  intro m hm
  have hp : arithmetic.method? .static "SystemBoolean" "Parse" [.string] =
    some ⟨.boolean, "parse"⟩ := by decide
  rw [hp] at hm
  cases hm
  rfl

def loaded (p : Program) : Store Int :=
  fun x => ((p.vars.find? (·.name = x)).map fun w => digits w.init).getD (.datum 0)

theorem counter_loaded : (counter.compile arithmetic).toOption.any fun p =>
    p.vars.all fun w => loaded p w.name = digits w.init := by
  decide +kernel

theorem counter_exec : (do
    let p ← (counter.compile arithmetic).toOption
    let (_, s) ← counter.lowered arithmetic 1
    let (cmd, _) ← Stmt.meaningAll arithmetic "_start" countUp s.vars.typing
    let (_, σ, calls) ← cmd.exec calculator digits 4 ((loaded p).entered arithmetic "_start" []) 0
    return (σ "n", σ "rest", calls)) = some (.datum 3, .datum 2, 9) := by
  decide +kernel

theorem counter_halts : ∃ p fs s ρ, counter.compile arithmetic = .ok p ∧
    counter.lowered arithmetic 1 = some (fs, s) ∧ ρ "n" = .datum 3 ∧ ρ "rest" = .datum 2 ∧
    Reaches calculator p.code ⟨s.emitter.pc, loaded p, [], 0⟩ ⟨haltAddress, ρ, [], 9⟩ := by
  have hloaded := counter_loaded
  have hexec := counter_exec
  cases hc : counter.compile arithmetic with
  | error f => rw [hc] at hloaded; cases hloaded
  | ok p =>
      rw [hc] at hloaded hexec
      obtain ⟨fs, s, cmd, Γ, hs, hm, -, hrun⟩ :=
        compile_event_meaning (E := calculator) (I := digits) (k := 1)
        hc calculator_agrees arithmetic_readsTruth rfl rfl nofun (by decide) rfl
      simp only [Except.toOption, Option.any_some, List.all_eq_true, decide_eq_true_eq] at hloaded
      simp only [Except.toOption, hs, hm, Option.bind_eq_bind, Option.bind_some,
        Option.bind_eq_some_iff] at hexec
      obtain ⟨⟨left, σ, calls⟩, hend, hres⟩ := hexec
      obtain ⟨hn, hrest, rfl⟩ : σ "n" = .datum 3 ∧ σ "rest" = .datum 2 ∧ calls = 9 := by
        simpa using hres
      obtain ⟨ρ, hρ, hreach⟩ :=
        (hrun (loaded p) (fun w hw _ => hloaded w hw) [] 0).1 4 left σ 9 hend
      refine ⟨p, fs, s, ρ, rfl, hs, ?_, ?_, hreach⟩
      · rw [hρ "n" (Names.IsPlain.not_temporary (by decide)), hn]
      · rw [hρ "rest" (Names.IsPlain.not_temporary (by decide)), hrest]

end Module
end StackScript
