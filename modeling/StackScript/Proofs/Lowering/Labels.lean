import StackScript.Proofs.Lowering.Moves

namespace StackScript

namespace Draft

variable {s t u : Draft} {l a : Nat}

/-- A label that is not the entry of a function. -/
def Private (F : Draft) (l : Nat) : Prop := ∀ id, F.emitter.named.lookup id ≠ some l

theorem Private.grows (h : s.Private l) (hl : l < s.emitter.labels.size) (hm : Grows s t) :
    t.Private l :=
  fun id hid => h id (hm.shared hl hid)

structure Open (s : Draft) (l : Nat) : Prop where
  made : l < s.emitter.labels.size
  unbound : ∀ a, ¬ s.Bound l a

/-- The only labels that get an address are new ones, and none of them is shared. -/
structure Shelters (s t : Draft) : Prop where
  moves : Moves s t
  bound : ∀ {l a}, t.Bound l a → s.Bound l a ∨ s.emitter.labels.size ≤ l ∧
    (s.Numbered → t.Private l)

theorem Bound.made (h : s.Bound l a) : l < s.emitter.labels.size := by
  obtain ⟨n, hn⟩ := bound_iff.mp h
  exact (Array.getElem?_eq_some_iff.mp hn).1

theorem Open.shelters (h : s.Open l) (hm : Shelters s t) : t.Open l := by
  refine ⟨h.made.trans_le (Moves.grows hm.moves).labels, fun a ha => ?_⟩
  obtain hb | ⟨hl, _⟩ := hm.bound ha
  · exact h.unbound a hb
  · exact absurd h.made hl.not_gt

namespace Shelters

theorem of_bound (hm : Moves s t) (hb : ∀ {l a}, t.Bound l a → s.Bound l a) : Shelters s t :=
  ⟨hm, fun h => .inl (hb h)⟩

theorem trans (h : Shelters s t) (k : Shelters t u) : Shelters s u := by
  refine ⟨h.moves.trans k.moves, fun {l a} hl => ?_⟩
  obtain hb | ⟨hnew, hp⟩ := k.bound hl
  · refine (h.bound hb).imp_right fun ⟨hnew, hp⟩ => ⟨hnew, fun hs => ?_⟩
    exact (hp hs).grows hb.made (Moves.grows k.moves)
  · exact .inr ⟨(Moves.grows h.moves).labels.trans hnew, fun hs => hp (h.moves.numbered hs)⟩

end Shelters

instance : Closed Shelters where
  still h := .of_bound h.emits.moves h.bound
  trans := .trans

/-- The label that is shared by a name has an address. -/
def Taken (s : Draft) (id : String) : Prop :=
  ∃ l a, s.emitter.named.lookup id = some l ∧ s.Bound l a

theorem Taken.moves {id : String} (h : s.Taken id) (hm : Moves s t) : t.Taken id := by
  obtain ⟨l, a, hl, ha⟩ := h
  exact ⟨l, a, (Moves.grows hm).named hl, (Moves.grows hm).bound ha⟩

theorem Taken.of_shelters {id : String} (h : t.Taken id) (hm : Shelters s t) (hs : s.Numbered) :
    s.Taken id := by
  obtain ⟨l, a, hl, ha⟩ := h
  obtain hb | ⟨_, hp⟩ := hm.bound ha
  · exact ⟨l, a, (Moves.grows hm.moves).shared hb.made hl, hb⟩
  · exact absurd hl (hp hs id)

def Titled (s : Draft) : Prop :=
  ∀ id l, s.emitter.named.lookup id = some l → ∃ a, s.emitter.labels[l]? = some ⟨id, a⟩

theorem titled_pushLabel {s : Draft} (hs : s.Titled) (name : String) {id : String} {l : Nat}
    (h : s.emitter.named.lookup id = some l) :
    ∃ a, (s.emitter.labels.push ⟨name, none⟩)[l]? = some ⟨id, a⟩ := by
  obtain ⟨a, ha⟩ := hs id l h
  have hl := (Array.getElem?_eq_some_iff.mp ha).1
  exact ⟨a, by rw [Array.getElem?_push, if_neg hl.ne, ha]⟩

theorem Move.titled (h : Move s t) (hs : s.Titled) : t.Titled := by
  cases h with
  | note | count | event | emit | declare | mark => exact hs
  | @bind label e h =>
      obtain ⟨n, hn, rfl⟩ := Emitter.bind_eq_ok h
      intro id l hid
      obtain ⟨a, ha⟩ := hs id l hid
      by_cases hl : label = l
      · subst hl
        rw [hn] at ha
        cases ha
        exact ⟨_, Array.getElem?_setIfInBounds_self_of_lt (Array.getElem?_eq_some_iff.mp hn).1⟩
      · exact ⟨a, by rw [Array.getElem?_setIfInBounds_ne hl, ha]⟩
  | label name => exact fun id l => titled_pushLabel hs name
  | named name =>
      obtain ⟨l, _, he⟩ | ⟨_, he⟩ := s.emitter.namedLabel_cases name
      · rw [he]
        exact hs
      · rw [he]
        intro id l hid
        rw [List.lookup_cons] at hid
        split at hid
        case h_1 heq =>
          cases hid
          obtain rfl := beq_iff_eq.mp heq
          exact ⟨none, by simp⟩
        case h_2 => exact titled_pushLabel hs name hid

theorem Moves.titled (h : Moves .empty s) : s.Titled := by
  induction h with
  | refl => exact fun id l h => absurd h (by simp [Draft.empty, Emitter.empty])
  | tail _ hm ih => exact hm.titled ih

end Draft

namespace Lower

open Draft

variable {s t u : Draft} {l : Nat}

theorem freshLabel_private {kind : String} (h : freshLabel kind s = .ok l t)
    (hs : s.Numbered) {F : Draft} (hF : Moves t F) : F.Private l := by
  obtain ⟨_, hl, hlt⟩ := freshLabel_emits h
  intro id hid
  have ht : t.emitter.named = s.emitter.named := by
    obtain ⟨_, rfl⟩ := modifyGet_eq_ok.mp h
    rfl
  have hid' := (Moves.grows hF).shared hlt hid
  rw [ht] at hid'
  exact (hs id l hid').ne hl

theorem freshLabel_open {kind : String} (h : freshLabel kind s = .ok l t) : t.Open l := by
  obtain ⟨_, hl, hlt⟩ := freshLabel_emits h
  exact ⟨hlt, fun a ha => (freshLabel_bound h ha).made.ne hl⟩

theorem namedLabel_bound {name : String} {k a : Nat} (h : namedLabel name s = .ok l t)
    (hb : t.Bound k a) :
    s.Bound k a := by
  obtain ⟨-, rfl⟩ := modifyGet_eq_ok.mp h
  obtain ⟨_, _, he⟩ | ⟨_, he⟩ := s.emitter.namedLabel_cases name
  · rwa [he] at hb
  · rw [he] at hb
    exact bound_of_pushLabel hb

theorem namedLabel_shelters {name : String} (h : namedLabel name s = .ok l t) : Shelters s t :=
  .of_bound (namedLabel_emits h).1.moves (namedLabel_bound h)

theorem generate_shelters {cx : Context} {kind x : String} {ty : Ty} {init : Init}
    (h : generate cx kind ty init s = .ok x t) : Shelters s t :=
  .of_bound (generate_emits h).moves (generate_bound h)

theorem emit_shelters {block : List Instr} {x : Unit} (h : emit block s = .ok x t) :
    Shelters s t := by
  refine .of_bound (emit_emits h).moves fun hb => ?_
  obtain rfl := modify_eq_ok.mp h
  exact hb

theorem Along.emit_shelters (block : List Instr) : Along Shelters (emit block) :=
  ⟨.modify _, Lower.emit_shelters⟩

theorem bindLabel_eq_error {f : Fault} (hl : l < s.emitter.labels.size)
    (h : bindLabel l s = .error f t) :
    ∃ name a, s.emitter.labels[l]? = some ⟨name, some a⟩ ∧ f = .rejected (.boundTwice name) := by
  rw [bindLabel, Emitter.bind] at h
  obtain ⟨⟨name, _ | a⟩, hlabel⟩ : ∃ label, s.emitter.labels[l]? = some label :=
    ⟨_, Array.getElem?_eq_getElem hl⟩
  · rw [hlabel] at h
    cases h
  · rw [hlabel] at h
    cases h
    exact ⟨name, a, hlabel, rfl⟩

theorem bindLabel_ne_error {f : Fault} (ho : s.Open l) : bindLabel l s ≠ .error f t := by
  intro h
  obtain ⟨name, a, hl, _⟩ := bindLabel_eq_error ho.made h
  exact ho.unbound a (bound_iff.mpr ⟨name, hl⟩)

theorem bindLabel_bound {k a : Nat} {x : Unit} (h : bindLabel l s = .ok x t) (hb : t.Bound k a) :
    s.Bound k a ∨ k = l := by
  rw [bindLabel] at h
  cases he : s.emitter.bind l with
  | error f => rw [he] at h; cases h
  | ok e =>
      rw [he] at h
      cases h
      obtain ⟨n, hl, rfl⟩ := Emitter.bind_eq_ok he
      obtain ⟨n', hn⟩ := bound_iff.mp hb
      by_cases hk : l = k
      · exact .inr hk.symm
      · rw [Array.getElem?_setIfInBounds_ne hk] at hn
        exact .inl (bound_iff.mpr ⟨n', hn⟩)

theorem bindLabel_open {k : Nat} {x : Unit} (ho : s.Open k) (hne : k ≠ l)
    (h : bindLabel l s = .ok x t) : t.Open k := by
  refine ⟨ho.made.trans_le (Moves.grows (bindLabel_emits h).1.moves).labels, fun a ha => ?_⟩
  obtain hb | rfl := bindLabel_bound h ha
  · exact ho.unbound a hb
  · exact hne rfl

theorem bindLabel_shelters {x : Unit} (hm : Shelters s t) (hl : s.emitter.labels.size ≤ l)
    (hp : s.Numbered → u.Private l) (h : bindLabel l t = .ok x u) : Shelters s u := by
  have hmoves := (bindLabel_emits h).1.moves
  refine ⟨hm.moves.trans hmoves, fun {k a} hk => ?_⟩
  obtain hk | rfl := bindLabel_bound h hk
  · refine (hm.bound hk).imp_right fun ⟨hnew, hpk⟩ => ⟨hnew, fun hs => ?_⟩
    exact (hpk hs).grows hk.made (Moves.grows hmoves)
  · exact .inr ⟨hl, hp⟩

end Lower
end StackScript
