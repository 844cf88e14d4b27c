import StackScript.Proofs.CatalogExtension

namespace StackScript

def lastValue {β : Type} (entries : List (String × β)) (key : String) : Option β :=
  (entries.filterMap fun e => if key = e.1 then some e.2 else none).getLast?

theorem lookup_reverse_append {β : Type} (entries rest : List (String × β)) (key : String) :
    (entries.reverse ++ rest).lookup key = (lastValue entries key).or (rest.lookup key) := by
  rw [List.lookup_append, lastValue, List.getLast?_filterMap, List.lookup_eq_findSome?]
  simp only [beq_iff_eq]

theorem lastValue_flatMap {α β : Type} (entries : α → List (String × β)) (files : List α)
    (key : String) :
    lastValue (files.flatMap entries) key =
    (files.filterMap fun o => lastValue (entries o) key).getLast? := by
  rw [lastValue, List.filterMap_flatMap, List.getLast?_flatMap, List.getLast?_filterMap]
  rfl

theorem lastValue_eq_none {β : Type} {entries : List (String × β)} {key : String}
    (h : key ∉ entries.map Prod.fst) : lastValue entries key = none := by
  rw [lastValue, List.getLast?_eq_none_iff, List.filterMap_eq_nil_iff]
  intro e he
  rw [if_neg]
  rintro rfl
  exact h (List.mem_map_of_mem he)

theorem or_left_comm_of_none {β : Type} {x y : Option β} (h : x = none ∨ y = none) (z : Option β) :
    x.or (y.or z) = y.or (x.or z) := by
  rcases h with rfl | rfl
  · rfl
  · rfl

theorem lastValue_apart {β : Type} {entries entries' : List (String × β)}
    (h : ∀ k ∈ entries.map Prod.fst, k ∉ entries'.map Prod.fst) (key : String) :
    lastValue entries key = none ∨ lastValue entries' key = none := by
  by_cases hk : key ∈ entries.map Prod.fst
  · exact .inr (lastValue_eq_none (h key hk))
  · exact .inl (lastValue_eq_none hk)

namespace Overlay

def joined (files : List Overlay) : Overlay :=
  ⟨files.flatMap types, files.flatMap members, files.flatMap events⟩

def machineType? (o : Overlay) (name : String) : Option String := lastValue o.types name

def event? (o : Overlay) (name : String) : Option (List Slot) := lastValue o.events name

def method? (o : Overlay) (kind : MemberKind) (owner name : String) (args : List Ty) :
    Option Method :=
  (o.members.filter (·.answers kind owner name args)).getLast?.map Member.toMethod

structure Apart (o o' : Overlay) : Prop where
  types : ∀ key ∈ o.types.map Prod.fst, key ∉ o'.types.map Prod.fst
  members : ∀ key ∈ o.members.map Member.key, key ∉ o'.members.map Member.key
  events : ∀ key ∈ o.events.map Prod.fst, key ∉ o'.events.map Prod.fst

end Overlay

theorem Member.key_eq_of_answers {m m' : Member} {kind : MemberKind} {owner name : String}
    {args : List Ty} (h : m.answers kind owner name args) (h' : m'.answers kind owner name args) :
    m.key = m'.key := by
  obtain ⟨hk, ho, hn, ha⟩ := answers_iff.mp h
  obtain ⟨hk', ho', hn', ha'⟩ := answers_iff.mp h'
  have hargs : m.args = m'.args :=
    List.map_injective_iff.mpr (fun _ _ h => Ty.named.inj h) (ha.trans ha'.symm)
  rw [key, key, hk, hk', ho, ho', hn, hn', hargs]

theorem Overlay.Apart.method? {o o' : Overlay} (h : o.Apart o') (kind : MemberKind)
    (owner name : String) (args : List Ty) :
    o.method? kind owner name args = none ∨ o'.method? kind owner name args = none := by
  by_cases hm : ∃ m ∈ o.members, m.answers kind owner name args
  · obtain ⟨m, hm, ha⟩ := hm
    refine .inr ?_
    rw [Overlay.method?, Option.map_eq_none_iff, List.getLast?_eq_none_iff, List.filter_eq_nil_iff]
    intro m' hm' ha'
    apply h.members m.key (List.mem_map_of_mem hm)
    rw [Member.key_eq_of_answers ha ha']
    exact List.mem_map_of_mem hm'
  · refine .inl ?_
    rw [Overlay.method?, Option.map_eq_none_iff, List.getLast?_eq_none_iff, List.filter_eq_nil_iff]
    intro m hm' ha
    exact hm ⟨m, hm', ha⟩

namespace Catalog

def mergeAll (c : Catalog) (files : List Overlay) : Catalog := files.foldl merge c

/-- Whatever is looked up, both catalogs have the same answer. -/
structure SameLookups (c c' : Catalog) : Prop where
  machineType? : ∀ name, c.machineType? name = c'.machineType? name
  method? : ∀ kind owner name args, c.method? kind owner name args = c'.method? kind owner name args
  event? : ∀ name, c.event? name = c'.event? name

variable (c : Catalog) (o : Overlay)

theorem machineType?_merge (name : String) :
    (c.merge o).machineType? name = (o.machineType? name).or (c.machineType? name) :=
  lookup_reverse_append o.types c.types name

theorem event?_merge (name : String) :
    (c.merge o).event? name = (o.event? name).or (c.event? name) :=
  lookup_reverse_append o.events c.events name

theorem method?_merge (kind : MemberKind) (owner name : String) (args : List Ty) :
    (c.merge o).method? kind owner name args =
      (o.method? kind owner name args).or (c.method? kind owner name args) := by
  rw [method?, merge, List.find?_append, Option.map_or, Overlay.method?,
    List.getLast?_filter, method?]

theorem mergeAll_eq (files : List Overlay) : c.mergeAll files = c.merge (.joined files) := by
  induction files generalizing c with
  | nil => rfl
  | cons o files ih =>
      have hcons : c.mergeAll (o :: files) = (c.merge o).mergeAll files := rfl
      rw [hcons, ih]
      simp [merge, Overlay.joined]

theorem sameLookups_merge_comm {o o' : Overlay} (h : o.Apart o') :
    SameLookups ((c.merge o).merge o') ((c.merge o').merge o) where
  machineType? name := by
    simp only [machineType?_merge]
    exact or_left_comm_of_none (lastValue_apart h.types name).symm _
  method? kind owner name args := by
    simp only [method?_merge]
    exact or_left_comm_of_none (h.method? kind owner name args).symm _
  event? name := by
    simp only [event?_merge]
    exact or_left_comm_of_none (lastValue_apart h.events name).symm _

end Catalog

theorem Member.toMethod_ret (m : Member) :
    (m.toMethod.ret = .void ↔ m.ret = none ∨ m.ret = some Ty.voidName) ∧
      ∀ name, m.toMethod.ret = .named name ↔ m.ret = some name ∧ name ≠ Ty.voidName := by
  rw [toMethod]
  cases m.ret with
  | none => simp [Ty.ofTypeName]
  | some ret =>
      by_cases hv : ret = Ty.voidName
      · subst hv
        simp [Ty.ofTypeName, eq_comm]
      · simp only [Ty.ofTypeName, if_neg hv]
        constructor
        · simp [hv]
        · intro name
          simp only [Ty.named.injEq, Option.some.injEq]
          constructor
          · rintro rfl
            exact ⟨rfl, hv⟩
          · exact And.left

namespace Catalog

/-- A catalog under any files, laid over it in order. A member is that of the last entry, in the
order of the files and then of their lists, that answers the call, with its symbol and its result; a
type and an event are those of the last file that has the name. Without an entry the answer is that
of the catalog before. Files without a common key can be exchanged. -/
theorem mergeAll_lookups (c : Catalog) (files : List Overlay) :
    (∀ kind owner name args, (c.mergeAll files).method? kind owner name args =
      (((files.flatMap Overlay.members).filter
        (·.answers kind owner name args)).getLast?.map Member.toMethod).or
        (c.method? kind owner name args)) ∧
    (∀ (m : Member) (kind : MemberKind) (owner name : String) (args : List Ty),
      m.answers kind owner name args ↔
      m.kind = kind ∧ m.owner = owner ∧ m.name = name ∧ m.args.map Ty.named = args) ∧
    (∀ m : Member, m.toMethod.symbol = m.symbol ∧
      (m.toMethod.ret = .void ↔ m.ret = none ∨ m.ret = some Ty.voidName) ∧
      ∀ name, m.toMethod.ret = .named name ↔ m.ret = some name ∧ name ≠ Ty.voidName) ∧
    (∀ name, (c.mergeAll files).machineType? name =
      (files.filterMap (·.machineType? name)).getLast?.or (c.machineType? name)) ∧
    (∀ name, (c.mergeAll files).event? name =
      (files.filterMap (·.event? name)).getLast?.or (c.event? name)) ∧
    ∀ o o', Overlay.Apart o o' →
      SameLookups ((c.mergeAll files).mergeAll [o, o']) ((c.mergeAll files).mergeAll [o', o]) := by
  refine ⟨?_, ?_, ?_, ?_, ?_, ?_⟩
  · intro kind owner name args
    rw [mergeAll_eq, method?_merge]
    rfl
  · intro m kind owner name args
    exact Member.answers_iff
  · intro m
    exact ⟨rfl, m.toMethod_ret⟩
  · intro name
    rw [mergeAll_eq, machineType?_merge, Overlay.machineType?, Overlay.joined, lastValue_flatMap]
    rfl
  · intro name
    rw [mergeAll_eq, event?_merge, Overlay.event?, Overlay.joined, lastValue_flatMap]
    rfl
  · intro o o' h
    exact sameLookups_merge_comm _ h

def greeting : Overlay :=
  ⟨[("SystemInt32", "Int")],
    [⟨.static, "Host", "Ping", [], some "SystemInt32", "ping"⟩,
      ⟨.static, "Host", "Ping", [], some "SystemVoid", "pong"⟩],
    [("_tick", [])]⟩

def parting : Overlay :=
  ⟨[("SystemInt64", "Long")], [⟨.method, "Host", "Ping", [], none, "leave"⟩],
    [("_tock", [⟨"SystemInt64", "n"⟩])]⟩

theorem greeting_parting_lookups : greeting.Apart parting ∧
    (empty.mergeAll [greeting, parting]).method? .static "Host" "Ping" [] = some ⟨.void, "pong"⟩ ∧
    SameLookups (empty.mergeAll [greeting, parting]) (empty.mergeAll [parting, greeting]) := by
  have hapart : greeting.Apart parting := ⟨by decide, by decide, by decide⟩
  obtain ⟨hmethod, -⟩ := mergeAll_lookups empty [greeting, parting]
  obtain ⟨-, -, -, -, -, hcomm⟩ := mergeAll_lookups empty []
  refine ⟨hapart, ?_, hcomm greeting parting hapart⟩
  rw [hmethod]
  rfl

end Catalog
end StackScript
