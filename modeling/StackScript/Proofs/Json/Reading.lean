import StackScript.Proofs.Json.Content

namespace StackScript.Json.Content

variable {α β : Type}

/-- With the bound `n`, the reader takes every form for `a`, and it refuses the full form if that
nests deeper. -/
structure Read (c : Content) (n : Nat) (read : Json → Option α) (a : α) : Prop where
  of_form : ∀ {v}, c.Form n v → read v = some a
  depth_le : (read c.full).isSome → c.full.depth ≤ n

/-- The same for a field, which may be `omittable`. -/
structure FieldRead (omittable : Bool) (c : Content) (n : Nat) (read : Field → Option α) (a : α) :
    Prop where
  of_given : ∀ {v}, c.Form n v → read (.given v) = some a
  of_absent : omittable → read .absent = some a
  depth_le : (read (.given c.full)).isSome → c.full.depth ≤ n

theorem form_full {c : Content} {n : Nat} (h : c.full.depth ≤ n) : c.Form n c.full :=
  form_write lays_full c h

namespace FieldRead

variable {b : Bool} {c : Content} {n : Nat} {read : Field → Option α} {a : α}

theorem of_elim (h : FieldRead b c n read a) {o : Option Json}
    (ho : o.elim (b = true) fun v => c.Form n v) :
    read (o.elim .absent .given) = some a := by
  cases o with
  | none => exact h.of_absent ho
  | some v => exact h.of_given ho

theorem of_isSome_bind (h : FieldRead b c n read a) {next : α → Option β}
    (hs : ((read (.given c.full)).bind next).isSome) : c.full.depth ≤ n ∧ (next a).isSome := by
  have hd := h.depth_le (Option.isSome_of_isSome_bind hs)
  rw [h.of_given (form_full hd), Option.bind_some] at hs
  exact ⟨hd, hs⟩

end FieldRead

namespace Read

variable {c : Content} {n : Nat} {read : Json → Option α} {a : α}

theorem refused (hf : ∀ v, ¬c.Form n v) (hr : read c.full = none) : c.Read n read a where
  of_form hv := absurd hv (hf _)
  depth_le hs := by
    rw [hr] at hs
    cases hs

theorem leaf {v : Json} (hv : v.depth = 0) (h : read v = some a) :
    (Content.leaf v).Read n read a where
  of_form hw := by
    subst hw
    exact h
  depth_le _ := by
    change v.depth ≤ n
    omega

theorem map (h : c.Read n read a) (f : α → β) : c.Read n (fun v => (read v).map f) (f a) where
  of_form hv := by rw [h.of_form hv, Option.map_some]
  depth_le hs := h.depth_le (by simpa using hs)

theorem congr {read' : Json → Option α} (h : c.Read n read a) (he : ∀ v, read' v = read v) :
    c.Read n read' a := by
  obtain rfl : read' = read := funext he
  exact h

theorem nonNull (h : c.Read n read a) (hf : ¬c.Form n .null) (hn : c.full ≠ .null) :
    c.Read n (orNull read) (some a) := by
  have hne {v : Json} (hv : v ≠ .null) : orNull read v = (read v).map some := by
    cases v with
    | null => exact absurd rfl hv
    | _ => rfl
  constructor
  · intro v hv
    rw [hne fun h => hf (h ▸ hv), h.of_form hv, Option.map_some]
  · intro hs
    rw [hne hn, Option.isSome_map] at hs
    exact h.depth_le hs

theorem required (h : c.Read n read a) : FieldRead false c n (Field.required read) a where
  of_given hv := h.of_form hv
  of_absent hb := by cases hb
  depth_le hs := h.depth_le hs

theorem orElse {b : Bool} {default : α} (h : c.Read n read a) (hb : b → default = a) :
    FieldRead b c n (Field.orElse default read) a where
  of_given hv := h.of_form hv
  of_absent hb' := congrArg some (hb hb')
  depth_le hs := h.depth_le hs

theorem optional {b : Bool} {a : Option α} (h : c.Read n (orNull read) a) (hb : b → a = none) :
    FieldRead b c n (Field.optional read) a where
  of_given hv := h.of_form hv
  of_absent hb' := congrArg some (hb hb').symm
  depth_le hs := h.depth_le hs

end Read

section Brackets

variable {read : Nat → Json → Option α} {a : α}

theorem Read.tagged {t : String} {c : Content} {body : Nat → Json → Option α}
    (hz : ∀ v, read 0 (.tagged t v) = none) (hs : ∀ n v, read (n + 1) (.tagged t v) = body n v)
    (h : ∀ n, c.Read n (body n) a) (n : Nat) : (Content.tagged t c).Read n (read n) a := by
  cases n with
  | zero => exact .refused (fun _ h => h) (hz _)
  | succ n =>
      constructor
      · rintro _ ⟨v, rfl, hv⟩
        rw [hs, (h n).of_form hv]
      · intro hd
        rw [full_tagged, hs] at hd
        exact depth_tagged_le.mpr ((h n).depth_le hd)

theorem mapM_of_itemForms {cs : List Content} {as : List α} {n : Nat}
    (h : List.Forall₂ (fun c a => c.Read n (read n) a) cs as) {vs : List Json}
    (hv : ItemForms cs n vs) : vs.mapM (read n) = some as := by
  induction h generalizing vs with
  | nil =>
      subst hv
      rfl
  | cons hc _ ih =>
      obtain ⟨v, ws, rfl, hf, hw⟩ := hv
      rw [List.mapM_cons, hc.of_form hf, ih hw]
      rfl

theorem depth_of_mapM {cs : List Content} {as : List α} {n : Nat}
    (h : List.Forall₂ (fun c a => c.Read n (read n) a) cs as)
    (hs : ((cs.map full).mapM (read n)).isSome) : ∀ c ∈ cs, c.full.depth ≤ n := by
  induction h with
  | nil => simp
  | @cons c a cs as hc _ ih =>
      rw [List.map_cons, List.mapM_cons] at hs
      cases hr : read n c.full with
      | none =>
          rw [hr] at hs
          cases hs
      | some x =>
          rw [hr] at hs
          rw [List.forall_mem_cons]
          refine ⟨hc.depth_le (by rw [hr]; rfl), ih ?_⟩
          cases hm : (cs.map full).mapM (read n) with
          | none =>
              rw [hm] at hs
              cases hs
          | some ys => rfl

theorem Read.list {cs : List Content} {as : List α}
    (h : ∀ n, List.Forall₂ (fun c a => c.Read n (read n) a) cs as) (n : Nat) :
    (Content.list cs).Read n (listOf read n) as := by
  cases n with
  | zero => exact .refused (fun _ h => h) rfl
  | succ n =>
      constructor
      · rintro _ ⟨vs, rfl, hv⟩
        exact mapM_of_itemForms (h n) hv
      · intro hd
        rw [full_list] at hd
        exact depth_list_le.mpr (depth_of_mapM (h n) hd)

theorem Read.list_map {f : α → Content} (as : List α)
    (h : ∀ n, ∀ a ∈ as, (f a).Read n (read n) a) (n : Nat) :
    (Content.list (as.map f)).Read n (listOf read n) as := by
  apply Read.list
  intro n
  rw [List.forall₂_map_left_iff, List.forall₂_same]
  exact h n

end Brackets

theorem lookup_of_mem {table : List (String × α)} (hn : (table.map Prod.fst).Nodup) {e : String × α}
    (he : e ∈ table) :
    table.lookup e.1 = some e.2 := by
  induction table with
  | nil => cases he
  | cons d table ih =>
      obtain ⟨hd, htail⟩ := List.nodup_cons.mp hn
      obtain rfl | hmem := List.mem_cons.mp he
      · exact List.lookup_cons_self
      · have hne : (e.1 == d.1) = false := by
          rw [beq_eq_false_iff_ne]
          intro h
          exact hd (h ▸ List.mem_map_of_mem hmem)
        obtain ⟨t, x⟩ := d
        rw [List.lookup_cons, hne]
        exact ih htail hmem

theorem Read.tag [DecidableEq α] {table : List (String × α)}
    (hn : (table.map Prod.fst).Nodup) {a : α} (ha : a ∈ table.map Prod.snd) (n : Nat) :
    (Content.leaf (tagOf table a)).Read n (choice table n) a := by
  cases hf : table.find? (·.2 = a) with
  | none =>
      obtain ⟨e, he, rfl⟩ := List.mem_map.mp ha
      exact absurd (List.find?_eq_none.mp hf e he) (by simp)
  | some e =>
      obtain rfl : e.2 = a := by simpa using List.find?_some hf
      refine .leaf rfl ?_
      rw [tagOf, hf]
      exact lookup_of_mem hn (List.mem_of_find?_eq_some hf)

section Record

variable {fs : List (String × Bool × Content)}

theorem fields_full (hn : (fs.map Prod.fst).Nodup) :
    fields (fs.map Prod.fst) (record fs).full = some (fs.map fun f => .given f.2.2.full) := by
  have hw := LaysOut.of_all (fs.map fun f => (f.1, f.2.2.full))
  have h := hw.fields_eq (by rwa [List.map_map, List.map_map])
  rw [full_record]
  rwa [List.map_map, List.map_map, List.map_map, List.map_map] at h

/-- Reads a field and then the others, with the help of what it has read. -/
def followed (first : Field → Option α) (next : α → List Field → Option β) :
    List Field → Option β
  | A :: As => (first A).bind fun x => next x As
  | [] => none

/-- With the bound `n`, the reader takes all ways to give the fields for `b`. -/
inductive FieldsRead {β : Type} (n : Nat) (b : β) :
    List (String × Bool × Content) → (List Field → Option β) → Prop
  | nil : FieldsRead n b [] fun _ => some b
  | cons {α : Type} {k o c fs first} {x : α} {next : α → List Field → Option β}
      (h : FieldRead o c n first x) (hs : FieldsRead n b fs (next x)) :
      FieldsRead n b ((k, o, c) :: fs) (followed first next)

theorem FieldsRead.of_forms {n : Nat} {b : β} {body : List Field → Option β}
    (h : FieldsRead n b fs body) {vs : List (String × Option Json)} (hv : FieldForms fs n vs) :
    vs.map Prod.fst = fs.map Prod.fst ∧
    body (vs.map fun f => f.2.elim .absent .given) = some b := by
  induction h generalizing vs with
  | nil =>
      subst hv
      exact ⟨rfl, rfl⟩
  | cons h _ ih =>
      obtain ⟨o, ws, rfl, ho, hw⟩ := hv
      obtain ⟨hnames, hrest⟩ := ih hw
      refine ⟨congrArg (_ :: ·) hnames, ?_⟩
      rw [List.map_cons, followed, h.of_elim ho, Option.bind_some, hrest]

theorem FieldsRead.depth_le {n : Nat} {b : β} {body : List Field → Option β}
    (h : FieldsRead n b fs body) (hs : (body (fs.map fun f => .given f.2.2.full)).isSome) :
    ∀ f ∈ fs, f.2.2.full.depth ≤ n := by
  induction h with
  | nil => exact List.forall_mem_nil _
  | cons h _ ih =>
      obtain ⟨hd, hrest⟩ := h.of_isSome_bind hs
      exact List.forall_mem_cons.mpr ⟨hd, ih hrest⟩

def EachField : List String → (List Field → Prop) → Prop
  | [], P => P []
  | _ :: names, P => ∀ A, EachField names fun As => P (A :: As)

theorem EachField.of_length {names : List String} {P : List Field → Prop} (h : EachField names P)
    {As : List Field} (hl : As.length = names.length) : P As := by
  induction names generalizing P As with
  | nil =>
      obtain rfl := List.length_eq_zero_iff.mp hl
      exact h
  | cons name names ih =>
      cases As with
      | nil => cases hl
      | cons A As => exact @ih (fun As => P (A :: As)) (h A) As (Nat.succ.inj hl)

theorem Read.record {read : Nat → Json → Option β} {b : β} (names : List String)
    (body : Nat → List Field → Option β) (hf : fs.map Prod.fst = names) (hn : names.Nodup)
    (hz : ∀ w, read 0 w = none)
    (hs : ∀ n w, EachField names fun As => fields names w = some As → read (n + 1) w = body n As)
    (h : ∀ n, FieldsRead n b fs (body n)) (n : Nat) : (Content.record fs).Read n (read n) b := by
  subst hf
  cases n with
  | zero => exact .refused (fun _ h => h) (hz _)
  | succ n =>
      constructor
      · rintro w ⟨vs, hv, hw⟩
        obtain ⟨hnames, hbody⟩ := (h n).of_forms hv
        have hfields := hw.fields_eq (hnames ▸ hn)
        rw [hnames] at hfields
        have hlen : vs.length = fs.length := by simpa using congrArg List.length hnames
        rw [(hs n w).of_length (by simpa using hlen) hfields, hbody]
      · intro hd
        rw [(hs n _).of_length (by simp) (fields_full hn)] at hd
        exact depth_record_full_le.mpr ((h n).depth_le hd)

end Record

end StackScript.Json.Content
