import StackScript.Proofs.EmitterRuns
import StackScript.Proofs.NameClashes
import StackScript.Proofs.StackDepth

namespace StackScript

namespace Draft

variable {s t : Draft}

def titles (s : Draft) : List String := s.emitter.labels.toList.map Label.name

theorem Move.titles (h : Move s t) : s.titles <+: t.titles := by
  cases h with
  | @bind l e h =>
      obtain ⟨n, hl, rfl⟩ := Emitter.bind_eq_ok h
      have hname : s.titles[l]? = some n := by simp [Draft.titles, hl]
      obtain ⟨hlt, hn⟩ := List.getElem?_eq_some_iff.mp hname
      -- the label that is bound keeps its name
      have hset : s.titles.set l n = s.titles := by rw [← hn, List.set_getElem_self hlt]
      rw [Draft.titles, Draft.titles, Array.toList_setIfInBounds, List.map_set,
        ← Draft.titles, hset]
  | label name => simp [Draft.titles, Emitter.pushLabel]
  | named name =>
      obtain ⟨_, _, he⟩ | ⟨_, he⟩ := s.emitter.namedLabel_cases name <;> simp [Draft.titles, he]
  | _ => exact List.prefix_rfl

theorem Moves.titles (h : Moves s t) : s.titles <+: t.titles := by
  induction h with
  | refl => exact List.prefix_rfl
  | tail _ hm ih => exact ih.trans hm.titles

end Draft

namespace Emitter

/-- Any sequence of calls, from any emitter. -/
inductive Calls : Emitter → History → Emitter → Prop
  | nil (e : Emitter) : Calls e [] e
  | cons {e e₁ e' r reply h} (hr : e.perform r = .ok (reply, e₁)) (hh : Calls e₁ h e') :
      Calls e ((r, reply) :: h) e'

def Request.kind? : Request → Option String
  | .nextName kind | .freshLabel kind => some kind
  | _ => none

def History.kinds (h : History) : List String := h.filterMap fun x => x.1.kind?

/-- The name that was given: in the answer, or to the new label. -/
def given (e : Emitter) : Request × Reply → Option String
  | (.nextName _, .name x) => some x
  | (.freshLabel _, .label l) => e.draft.titles[l]?
  | _ => none

variable {e e' e'' : Emitter} {r : Request} {reply : Reply} {h : History}

theorem Calls.moves (hc : Calls e h e') : Draft.Moves e.draft e'.draft := by
  induction hc with
  | nil e => exact .refl
  | cons hr _ ih => exact (moves_of_perform hr).trans ih

theorem given_of_perform {kind : String} (hk : r.kind? = some kind)
    (hp : e.perform r = .ok (reply, e')) (hm : Draft.Moves e'.draft e''.draft) :
    e'.counter = e.counter + 1 ∧ e''.given (r, reply) = some (Names.generated e.counter kind) := by
  cases r with
  | nextName =>
      cases hk
      cases hp
      exact ⟨rfl, rfl⟩
  | freshLabel =>
      cases hk
      cases hp
      refine ⟨rfl, ?_⟩
      obtain ⟨rest, hrest⟩ := hm.titles
      change e''.draft.titles[e.labels.size]? = _
      rw [← hrest]
      simp [Draft.titles, draft, freshLabel, pushLabel, nextName]
  | _ => cases hk

theorem given_eq_none (hk : r.kind? = none) : e.given (r, reply) = none := by
  cases r with
  | nextName | freshLabel => cases hk
  | _ => rfl

theorem counter_of_perform (hk : r.kind? = none) (hp : e.perform r = .ok (reply, e')) :
    e'.counter = e.counter := by
  have hbind {e : Emitter} {l : Nat} (hp : e.tryBind l = .ok (reply, e')) :
      e'.counter = e.counter := by
    obtain ⟨hb, -⟩ | ⟨_, -, rfl⟩ := tryBind_cases hp
    · obtain ⟨_, _, rfl⟩ := bind_eq_ok hb
      rfl
    · rfl
  cases r with
  | nextName | freshLabel => cases hk
  | namedLabel name =>
      cases hp
      obtain ⟨_, _, he⟩ | ⟨_, he⟩ := e.namedLabel_cases name <;> rw [he]
  | bind l => exact hbind hp
  | enter frame l => exact hbind (e := e.append (Block.enter frame)) hp
  | _ =>
      cases hp
      rfl

theorem Calls.given_eq (hc : Calls e h e') :
    h.filterMap e'.given = (History.kinds h).mapIdx fun n kind =>
    Names.generated (e.counter + n) kind := by
  induction hc with
  | nil e => rfl
  | @cons e e₁ e' r reply h hr hh ih =>
      cases hk : r.kind? with
      | none =>
          have hkinds : History.kinds ((r, reply) :: h) = History.kinds h :=
            List.filterMap_cons_none hk
          rw [List.filterMap_cons_none (given_eq_none hk), hkinds, ih, counter_of_perform hk hr]
      | some kind =>
          obtain ⟨hcount, hname⟩ := given_of_perform hk hr hh.moves
          have hkinds : History.kinds ((r, reply) :: h) = kind :: History.kinds h :=
            List.filterMap_cons_some hk
          rw [List.filterMap_cons_some hname, hkinds, List.mapIdx_cons, ih, hcount]
          simp only [Nat.add_assoc, Nat.add_comm 1, Nat.add_zero]

theorem Calls.nodup_given (hc : Calls e h e') : (h.filterMap e'.given).Nodup := by
  rw [hc.given_eq, List.nodup_iff_injective_getElem]
  intro i j hij
  simp only [List.getElem_mapIdx] at hij
  obtain ⟨hnumber, -⟩ := Names.generated_inj hij
  apply Fin.ext
  omega

end Emitter

/-- A generated variable does not stand in the way of a later one, of whatever scope and kind. -/
theorem Lower.generate_ne {cx cx' : Context} {kind kind' x : String} {ty ty' : Ty}
    {init init' : Init} {s t u v : Draft} {f : Fault}
    (hk : kind ∈ Names.temporaries ++ Names.constants)
    (hk' : kind' ∈ Names.temporaries ++ Names.constants) (h : generate cx kind ty init s = .ok x t)
    (hm : Draft.Moves t u) (h' : generate cx' kind' ty' init' u = .error f v) :
    f.clash? ≠ some x := by
  intro hx
  obtain ⟨rfl, -, -⟩ := generate_eq_ok h
  obtain ⟨hname, -⟩ := (Declines.of_generate h').clash hx
  have hpast := (Names.past_succ hk cx.scope.qualifier s.emitter.counter).mono
    (counter_of_generate h ▸ hm.counter_le)
  rw [hname] at hpast
  exact Names.not_past hk' _ _ hpast

open Names

/-- Generated names are new. In any sequence of calls an emitter gives a name for each one that is
asked for, and no name twice, whatever the kinds are. The names of variables, with any texts for
scopes in front, differ if the numbers in them do. So a generated variable never keeps a later one
from being declared, in the same definition or in another one; and if a script is refused since a
variable is declared already, then this is a name that the script itself uses. -/
theorem generated_names_fresh :
    (∀ e h e', Emitter.Calls e h e' →
      (h.filterMap e'.given).length = h.kinds.length ∧ (h.filterMap e'.given).Nodup) ∧
    (∀ scope scope' n n', ∀ kind ∈ temporaries ++ constants,
      ∀ kind' ∈ temporaries ++ constants, n ≠ n' →
        scope ++ generated n kind ≠ scope' ++ generated n' kind') ∧
    (∀ cx cx' ty ty' init init' s t u v x f, ∀ kind ∈ temporaries ++ constants,
      ∀ kind' ∈ temporaries ++ constants,
        Lower.generate cx kind ty init s = .ok x t → Draft.Moves t u →
        Lower.generate cx' kind' ty' init' u = .error f v → f.clash? ≠ some x) ∧
    ∀ c m f x, Module.compile c m = .error f → f.clash? = some x → x ∈ m.ownNames c := by
  refine ⟨fun e h e' hc => ⟨?_, hc.nodup_given⟩, ?_, ?_, fun c m f x => Module.own_of_clash⟩
  · rw [hc.given_eq, List.length_mapIdx]
  · intro scope scope' n n' kind hk kind' hk' hn h
    exact hn (append_generated_inj (plain_kinds _ hk) (plain_kinds _ hk') h).2.1
  · intro cx cx' ty ty' init init' s t u v x f kind hk kind' hk'
    exact Lower.generate_ne hk hk'

def Emitter.naming : History :=
  [(.nextName "x", .name (Names.generated 0 "x")), (.freshLabel "1_x", .label 0), (.bind 0, .done),
    (.nextName "_x", .name (Names.generated 2 "_x"))]

namespace Module

def forestalling : Module :=
  ⟨[Build.assign (.name .unknown "_start__1_cast") (.int .unknown 3),
    Build.define "_start" [] none
      [Build.assign (.name .unknown "b")
        (Build.call (.name .unknown "SystemBoolean") [.int .unknown 4])]]⟩

theorem forestalling_fresh :
    (∃ e, Emitter.Calls .empty Emitter.naming e ∧
      Emitter.naming.filterMap e.given = ["__0_x", "__1_1_x", "__2__x"] ∧
      (Emitter.naming.filterMap e.given).Nodup) ∧
    "f" ++ Names.generated 1 "const" ≠ "f__1_const" ++ Names.generated 2 "bool" ∧
    (∃ t u f v, Lower.generate ⟨scalars, [], .module⟩ "const" .int32 .null .empty =
      .ok "__0_const" t ∧ Draft.Moves t u ∧
      Lower.generate ⟨scalars, [], .module⟩ "cast" .int32 .null u = .error f v ∧
      f.clash? = some "__1_cast" ∧ f.clash? ≠ some "__0_const") ∧
    ∃ f, forestalling.compile scalars = .error f ∧ f.clash? = some "_start__1_cast" ∧
      "_start__1_cast" ∈ forestalling.ownNames scalars := by
  obtain ⟨hcalls, hscopes, hdrafts, hcompile⟩ := generated_names_fresh
  refine ⟨?_, ?_, ?_, ?_⟩
  · have hc : Emitter.Calls .empty Emitter.naming _ :=
      .cons rfl (.cons rfl (.cons rfl (.cons rfl (.nil _))))
    exact ⟨_, hc, by decide +kernel, (hcalls _ _ _ hc).2⟩
  · exact hscopes "f" "f__1_const" 1 2 "const" (by decide) "bool" (by decide) (by decide)
  · have h : Lower.generate ⟨scalars, [], .module⟩ "const" .int32 .null .empty =
      .ok "__0_const" _ := rfl
    have hlater : ∀ t, Lower.generate ⟨scalars, [], .module⟩ "const" .int32 .null .empty =
        .ok "__0_const" t →
          ∃ u f v, Draft.Moves t u ∧ Lower.generate ⟨scalars, [], .module⟩ "cast" .int32 .null u =
          .error f v ∧
            f.clash? = some "__1_cast" := by
      rintro t ⟨⟩
      exact ⟨_, _, _, .single
        (.declare (show Variables.declare _ "__1_cast" .int32 .null = .ok _ from rfl)), rfl, rfl⟩
    obtain ⟨u, f, v, hm, h', hx⟩ := hlater _ h
    exact ⟨_, u, f, v, h, hm, h', hx,
      hdrafts _ _ _ _ _ _ _ _ _ _ _ _ _ (by decide) _ (by decide) h hm h'⟩
  · have hf : forestalling.compile scalars =
        .error ((Fault.rejected (.alreadyDeclared "_start__1_cast")).locate .unknown) := by
          decide +kernel
    exact ⟨_, hf, by decide, hcompile _ _ _ _ hf (by decide)⟩

end Module
end StackScript
