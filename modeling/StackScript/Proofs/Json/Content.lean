import Mathlib.Data.List.Nodup
import StackScript.Json.Field
import StackScript.Proofs.Json.Parsing

namespace StackScript.Json

mutual

def depth : Json → Nat
  | .arr vs => itemsDepth vs + 1
  | .obj ms => membersDepth ms + 1
  | _ => 0

def itemsDepth : List Json → Nat
  | [] => 0
  | v :: vs => max v.depth (itemsDepth vs)

def membersDepth : List (Text × Json) → Nat
  | [] => 0
  | (_, v) :: ms => max v.depth (membersDepth ms)

end

theorem itemsDepth_le {vs : List Json} {n : Nat} : itemsDepth vs ≤ n ↔ ∀ v ∈ vs, v.depth ≤ n := by
  induction vs with
  | nil => simp [itemsDepth]
  | cons v vs ih => rw [itemsDepth, Nat.max_le, ih, List.forall_mem_cons]

theorem depth_record_le {ms : List (String × Json)} {n : Nat} :
    (record ms).depth ≤ n + 1 ↔ ∀ m ∈ ms, m.2.depth ≤ n := by
  rw [record, depth, Nat.add_le_add_iff_right]
  induction ms with
  | nil => simp [membersDepth]
  | cons m ms ih => rw [List.map_cons, membersDepth, Nat.max_le, ih, List.forall_mem_cons]

def given (fs : List (String × Option Json)) : List (String × Json) :=
  fs.filterMap fun f => f.2.map (f.1, ·)

/-- A record with these fields. It is an object with the fields that are given, in any order and
with members of other names among them, or the array of all fields. -/
inductive LaysOut (fs : List (String × Option Json)) : Json → Prop
  | object {ms others : List (String × Json)} (hm : ms.Perm (given fs ++ others))
      (ho : ∀ m ∈ others, m.1 ∉ fs.map Prod.fst) : LaysOut fs (.record ms)
  | array {vs : List Json} (hv : fs.map Prod.snd = vs.map some) : LaysOut fs (.arr vs)

namespace LaysOut

variable {fs : List (String × Option Json)} {w : Json}

theorem depth_ne_zero (h : LaysOut fs w) : w.depth ≠ 0 := by
  cases h <;> simp [record, depth]

theorem depth_le (h : LaysOut fs w) {n : Nat} (hw : w.depth ≤ n + 1) {k : String} {v : Json}
    (hv : (k, some v) ∈ fs) :
    v.depth ≤ n := by
  cases h with
  | object hm _ =>
      apply depth_record_le.mp hw (k, v)
      apply hm.mem_iff.mpr
      exact List.mem_append_left _ (List.mem_filterMap.mpr ⟨(k, some v), hv, rfl⟩)
  | @array vs hvs =>
      have hmem : some v ∈ vs.map some := hvs ▸ List.mem_map_of_mem hv
      rw [depth, Nat.add_le_add_iff_right] at hw
      exact itemsDepth_le.mp hw v (by simpa using hmem)

theorem of_all (ms : List (String × Json)) :
    LaysOut (ms.map fun m => (m.1, some m.2)) (.record ms) := by
  have hgiven : given (ms.map fun m => (m.1, some m.2)) = ms := by
    rw [given, List.filterMap_map]
    exact List.filterMap_some
  refine @LaysOut.object _ ms [] ?_ (by simp)
  rw [hgiven, List.append_nil]

theorem filter_given (hn : (fs.map Prod.fst).Nodup) {f : String × Option Json} (hf : f ∈ fs) :
    (given fs).filter (·.1 == f.1) = (f.2.map (f.1, ·)).toList := by
  induction fs with
  | nil => cases hf
  | cons g gs ih =>
      obtain ⟨hg, hgs⟩ := List.nodup_cons.mp hn
      obtain rfl | hf' := List.mem_cons.mp hf
      · have hnil : (given gs).filter (·.1 == f.1) = [] := by
          rw [List.filter_eq_nil_iff]
          intro m hm heq
          obtain ⟨g, hmem, hgm⟩ := List.mem_filterMap.mp hm
          obtain ⟨v, -, rfl⟩ := Option.map_eq_some_iff.mp hgm
          exact hg (beq_iff_eq.mp heq ▸ List.mem_map_of_mem hmem)
        obtain ⟨k, o⟩ := f
        cases o with
        | none => exact hnil
        | some v =>
            change ((k, v) :: given gs).filter _ = _
            rw [List.filter_cons_of_pos (by simp), hnil]
            rfl
      · have hne : ¬(g.1 == f.1) := fun heq => hg (beq_iff_eq.mp heq ▸ List.mem_map_of_mem hf')
        obtain ⟨k, o⟩ := g
        cases o with
        | none => exact ih hgs hf'
        | some v =>
            exact (List.filter_cons_of_neg (a := (k, v)) hne).trans (ih hgs hf')

theorem fieldOf_eq {ms others : List (String × Json)} (hm : ms.Perm (given fs ++ others))
    (ho : ∀ m ∈ others, m.1 ∉ fs.map Prod.fst) (hn : (fs.map Prod.fst).Nodup)
    {f : String × Option Json} (hf : f ∈ fs) :
    fieldOf ms f.1 = some (f.2.elim .absent .given) := by
  have hothers : others.filter (·.1 == f.1) = [] := by
    rw [List.filter_eq_nil_iff]
    intro m hmem heq
    exact ho m hmem (beq_iff_eq.mp heq ▸ List.mem_map_of_mem hf)
  have hp := hm.filter (·.1 == f.1)
  rw [List.filter_append, filter_given hn hf, hothers, List.append_nil] at hp
  obtain ⟨k, o⟩ := f
  cases o with
  | none =>
      rw [fieldOf, List.perm_nil.mp hp]
      rfl
  | some v =>
      rw [fieldOf, List.perm_singleton.mp hp]
      rfl

theorem fields_eq (h : LaysOut fs w) (hn : (fs.map Prod.fst).Nodup) :
    fields (fs.map Prod.fst) w = some (fs.map fun f => f.2.elim .absent .given) := by
  cases h with
  | @object ms others hm ho =>
      have hkeys : (ms.map fun m => (some m.1, m.2)).mapM
          (fun m : Text × Json => m.1.map (·, m.2)) = some ms := by
        rw [List.mapM_map]
        exact (StackScript.Text.mapM_eq_pure_map fun _ _ => rfl).trans (by simp)
      have hfields : (fs.map Prod.fst).mapM (fieldOf ms) =
          some (fs.map fun f => f.2.elim .absent .given) := by
        rw [List.mapM_map]
        exact StackScript.Text.mapM_eq_pure_map fun f hf => fieldOf_eq hm ho hn hf
      rw [record, fields]
      exact (congrArg (Option.bind · _) hkeys).trans hfields
  | @array vs hvs =>
      have hlen : vs.length = fs.length := by simpa using (congrArg List.length hvs).symm
      have hgiven : (fs.map fun f => f.2.elim .absent .given) = vs.map Field.given := by
        have h := congrArg (List.map fun o => o.elim Field.absent Field.given) hvs
        rw [List.map_map, List.map_map] at h
        exact h
      simp [fields, hlen, hgiven]

end LaysOut

/-- What a value tells. A field that may be left out of a record is marked. -/
inductive Content where
  | leaf (v : Json)
  | list (items : List Content)
  | tagged (tag : String) (value : Content)
  | record (fields : List (String × Bool × Content))

namespace Content

mutual

def write (layout : List (String × Bool × Json) → Json) : Content → Json
  | .leaf v => v
  | .list cs => .arr (writeItems layout cs)
  | .tagged t c => .tagged t (c.write layout)
  | .record fs => layout (writeFields layout fs)

def writeItems (layout : List (String × Bool × Json) → Json) : List Content → List Json
  | [] => []
  | c :: cs => c.write layout :: writeItems layout cs

def writeFields (layout : List (String × Bool × Json) → Json) :
    List (String × Bool × Content) → List (String × Bool × Json)
  | [] => []
  | (k, b, c) :: fs => (k, b, c.write layout) :: writeFields layout fs

end

def full : Content → Json := write fun fs => .record (fs.map fun f => (f.1, f.2.2))

def compact : Content → Json :=
  write fun fs => .record ((fs.filter fun f => !f.2.1).map fun f => (f.1, f.2.2))

def positional : Content → Json := write fun fs => .arr (fs.map fun f => f.2.2)

mutual

/-- The value `w` tells this, and what is read of it nests at most `n` deep. What stands in members
of other names is not read. -/
def Form : Content → Nat → Json → Prop
  | .leaf v, _, w => w = v
  | .list cs, n + 1, w => ∃ vs, w = .arr vs ∧ ItemForms cs n vs
  | .tagged t c, n + 1, w => ∃ v, w = .tagged t v ∧ c.Form n v
  | .record fs, n + 1, w => ∃ vs, FieldForms fs n vs ∧ LaysOut vs w
  | _, 0, _ => False

def ItemForms : List Content → Nat → List Json → Prop
  | [], _, vs => vs = []
  | c :: cs, n, vs => ∃ v ws, vs = v :: ws ∧ c.Form n v ∧ ItemForms cs n ws

def FieldForms : List (String × Bool × Content) → Nat → List (String × Option Json) → Prop
  | [], _, vs => vs = []
  | (k, b, c) :: fs, n, vs =>
      ∃ o ws, vs = (k, o) :: ws ∧ o.elim (b = true) (fun v => c.Form n v) ∧ FieldForms fs n ws

end

def HasForm (c : Content) (w : Json) : Prop := ∃ n, c.Form n w

theorem writeItems_eq (layout : List (String × Bool × Json) → Json) (cs : List Content) :
    writeItems layout cs = cs.map (write layout) := by
  induction cs with
  | nil => rfl
  | cons c cs ih => rw [writeItems, ih, List.map_cons]

theorem writeFields_eq (layout : List (String × Bool × Json) → Json)
    (fs : List (String × Bool × Content)) :
    writeFields layout fs = fs.map fun f => (f.1, f.2.1, f.2.2.write layout) := by
  induction fs with
  | nil => rfl
  | cons f fs ih => rw [writeFields, ih, List.map_cons]

theorem full_list (cs : List Content) : (list cs).full = .arr (cs.map full) := by
  rw [full, write, writeItems_eq]

theorem full_tagged (t : String) (c : Content) : (tagged t c).full = .tagged t c.full := rfl

theorem full_record (fs : List (String × Bool × Content)) :
    (record fs).full = .record (fs.map fun f => (f.1, f.2.2.full)) := by
  rw [full, write, writeFields_eq, List.map_map]
  rfl

theorem depth_list_le {cs : List Content} {n : Nat} :
    (list cs).full.depth ≤ n + 1 ↔ ∀ c ∈ cs, c.full.depth ≤ n := by
  rw [full_list, depth, Nat.add_le_add_iff_right, itemsDepth_le, List.forall_mem_map]

theorem depth_tagged_le {t : String} {v : Json} {n : Nat} :
    (Json.tagged t v).depth ≤ n + 1 ↔ v.depth ≤ n := by
  rw [Json.tagged, depth_record_le, List.forall_mem_singleton]

theorem depth_record_full_le {fs : List (String × Bool × Content)} {n : Nat} :
    (record fs).full.depth ≤ n + 1 ↔ ∀ f ∈ fs, f.2.2.full.depth ≤ n := by
  rw [full_record, depth_record_le, List.forall_mem_map]

mutual

/-- A form nests no deeper than its own text, and no deeper than the full form. -/
theorem form_of_depth : ∀ (c : Content) {n m : Nat} {w : Json}, c.Form m w → c.full.depth ≤ n ∨
    w.depth ≤ n → c.Form n w
  | .leaf _, _, _, _, h, _ => h
  | .list cs, 0, _ + 1, _, ⟨vs, hw, _⟩, hd => by
      subst hw
      obtain hd | hd := hd <;> cases hd
  | .list cs, n + 1, _ + 1, _, ⟨vs, hw, h⟩, hd => by
      subst hw
      rw [depth_list_le, depth, Nat.add_le_add_iff_right, itemsDepth_le] at hd
      exact ⟨vs, rfl, itemForms_of_depth cs h hd⟩
  | .tagged t c, 0, _ + 1, _, ⟨v, hw, _⟩, hd => by
      subst hw
      obtain hd | hd := hd <;> cases hd
  | .tagged t c, n + 1, _ + 1, _, ⟨v, hw, h⟩, hd => by
      subst hw
      rw [full_tagged, depth_tagged_le, depth_tagged_le] at hd
      exact ⟨v, rfl, form_of_depth c h hd⟩
  | .record fs, 0, _ + 1, _, ⟨vs, _, hw⟩, hd => by
      obtain hd | hd := hd
      · cases hd
      · exact absurd (Nat.le_zero.mp hd) hw.depth_ne_zero
  | .record fs, n + 1, _ + 1, w, ⟨vs, h, hw⟩, hd => by
      refine ⟨vs, fieldForms_of_depth fs h ?_, hw⟩
      exact hd.imp depth_record_full_le.mp fun hd k v hv => hw.depth_le hd hv

theorem itemForms_of_depth : ∀ (cs : List Content) {n m : Nat} {vs : List Json}, ItemForms cs m vs →
    (∀ c ∈ cs, c.full.depth ≤ n) ∨ (∀ v ∈ vs, v.depth ≤ n) → ItemForms cs n vs
  | [], _, _, _, h, _ => h
  | c :: cs, n, _, _, ⟨v, vs, hv, hc, h⟩, hd => by
      subst hv
      rw [List.forall_mem_cons, List.forall_mem_cons] at hd
      exact ⟨v, vs, rfl, form_of_depth c hc (hd.imp And.left And.left),
        itemForms_of_depth cs h (hd.imp And.right And.right)⟩

theorem fieldForms_of_depth :
    ∀ (fs : List (String × Bool × Content)) {n m : Nat} {vs : List (String × Option Json)},
    FieldForms fs m vs → (∀ f ∈ fs, f.2.2.full.depth ≤ n) ∨
    (∀ k v, (k, some v) ∈ vs → v.depth ≤ n) →
      FieldForms fs n vs
  | [], _, _, _, h, _ => h
  | (k, b, c) :: fs, n, _, _, ⟨o, vs, hv, hc, h⟩, hd => by
      subst hv
      refine ⟨o, vs, rfl, ?_, fieldForms_of_depth fs h ?_⟩
      · cases o with
        | none => exact hc
        | some v => exact form_of_depth c hc (hd.imp (· (k, b, c) (by simp)) (· k v (by simp)))
      · exact hd.imp (fun h f hf => h f (by simp [hf])) fun h k v hv => h k v (by simp [hv])

end

/-- A layout of records that leaves out only what may be left out. -/
def Lays (layout : List (String × Bool × Json) → Json) : Prop :=
  ∀ fs, ∃ vs : List (String × Option Json),
    List.Forall₂ (fun f v => v.1 = f.1 ∧ v.2.elim (f.2.1 = true) (· = f.2.2)) fs vs ∧
    LaysOut vs (layout fs)

section Write

variable {layout : List (String × Bool × Json) → Json}

mutual

theorem form_write (hl : Lays layout) :
    ∀ (c : Content) {n : Nat}, (c.write layout).depth ≤ n → c.Form n (c.write layout)
  | .leaf _, _, _ => rfl
  | .list cs, 0, hd | .tagged t c, 0, hd => by cases hd
  | .list cs, n + 1, hd => by
      rw [write, depth, Nat.add_le_add_iff_right, itemsDepth_le] at hd
      exact ⟨_, rfl, itemForms_write hl cs hd⟩
  | .tagged t c, n + 1, hd => ⟨_, rfl, form_write hl c (depth_tagged_le.mp hd)⟩
  | .record fs, 0, hd => by
      obtain ⟨vs, _, hv⟩ := hl (writeFields layout fs)
      exact absurd (Nat.le_zero.mp hd) hv.depth_ne_zero
  | .record fs, n + 1, hd => by
      obtain ⟨vs, hf, hv⟩ := hl (writeFields layout fs)
      exact ⟨vs, fieldForms_write hl fs hf fun k v hkv => hv.depth_le hd hkv, hv⟩

theorem itemForms_write (hl : Lays layout) :
    ∀ (cs : List Content) {n : Nat}, (∀ v ∈ writeItems layout cs, v.depth ≤ n) →
    ItemForms cs n (writeItems layout cs)
  | [], _, _ => rfl
  | c :: cs, n, hd => by
      rw [writeItems, List.forall_mem_cons] at hd
      exact ⟨_, _, rfl, form_write hl c hd.1, itemForms_write hl cs hd.2⟩

theorem fieldForms_write (hl : Lays layout) : ∀ (fs : List (String × Bool × Content)) {n : Nat}
    {vs : List (String × Option Json)},
    List.Forall₂ (fun f v => v.1 = f.1 ∧ v.2.elim (f.2.1 = true) (· = f.2.2))
    (writeFields layout fs) vs →
      (∀ k v, (k, some v) ∈ vs → v.depth ≤ n) → FieldForms fs n vs
  | [], _, _, .nil, _ => rfl
  | (k, b, c) :: fs, n, (k', o) :: vs, .cons ⟨hk, ho⟩ h, hd => by
      subst hk
      refine ⟨o, vs, rfl, ?_, fieldForms_write hl fs h fun k v hv => hd k v (by simp [hv])⟩
      cases o with
      | none => exact ho
      | some v =>
          have hv : v = c.write layout := ho
          subst hv
          exact form_write hl c (hd _ _ (List.mem_cons_self ..))

end

theorem hasForm_write (hl : Lays layout) (c : Content) : c.HasForm (c.write layout) :=
  ⟨_, form_write hl c (Nat.le_refl _)⟩

mutual

def isDecimal : Content → Bool
  | .leaf v => v.isDecimal
  | .list cs => allDecimal cs
  | .tagged _ c => c.isDecimal
  | .record fs => fieldsDecimal fs

def allDecimal : List Content → Bool
  | [] => true
  | c :: cs => c.isDecimal && allDecimal cs

def fieldsDecimal : List (String × Bool × Content) → Bool
  | [] => true
  | (_, _, c) :: fs => c.isDecimal && fieldsDecimal fs

end

theorem allDecimal_iff {cs : List Content} : allDecimal cs ↔ ∀ c ∈ cs, c.isDecimal := by
  induction cs with
  | nil => simp [allDecimal]
  | cons c cs ih => rw [allDecimal, Bool.and_eq_true_iff, ih, List.forall_mem_cons]

mutual

theorem isDecimal_write (hl : ∀ fs, (∀ f ∈ fs, f.2.2.isDecimal) → (layout fs).isDecimal) :
    ∀ c : Content, c.isDecimal → (c.write layout).isDecimal
  | .leaf _, h => h
  | .list cs, h => by
      rw [write, isDecimal_arr, List.all_eq_true]
      exact isDecimal_writeItems hl cs h
  | .tagged t c, h => by
      have hc := isDecimal_write hl c h
      rw [write, Json.tagged, isDecimal_record, List.all_cons, hc]
      rfl
  | .record fs, h => hl _ (isDecimal_writeFields hl fs h)

theorem isDecimal_writeItems (hl : ∀ fs, (∀ f ∈ fs, f.2.2.isDecimal) → (layout fs).isDecimal) :
    ∀ cs : List Content, allDecimal cs → ∀ v ∈ writeItems layout cs, v.isDecimal
  | [], _ => by simp [writeItems]
  | c :: cs, h => by
      obtain ⟨hc, hcs⟩ := Bool.and_eq_true_iff.mp h
      rw [writeItems, List.forall_mem_cons]
      exact ⟨isDecimal_write hl c hc, isDecimal_writeItems hl cs hcs⟩

theorem isDecimal_writeFields (hl : ∀ fs, (∀ f ∈ fs, f.2.2.isDecimal) → (layout fs).isDecimal) :
    ∀ fs : List (String × Bool × Content), fieldsDecimal fs →
    ∀ f ∈ writeFields layout fs, f.2.2.isDecimal
  | [], _ => by simp [writeFields]
  | (k, b, c) :: fs, h => by
      obtain ⟨hc, hfs⟩ := Bool.and_eq_true_iff.mp h
      rw [writeFields, List.forall_mem_cons]
      exact ⟨isDecimal_write hl c hc, isDecimal_writeFields hl fs hfs⟩

end

theorem lays_full : Lays fun fs => .record (fs.map fun f => (f.1, f.2.2)) := by
  intro fs
  refine ⟨fs.map fun f => (f.1, some f.2.2), ?_, ?_⟩
  · rw [List.forall₂_map_right_iff, List.forall₂_same]
    exact fun _ _ => ⟨rfl, rfl⟩
  · have h := LaysOut.of_all (fs.map fun f => (f.1, f.2.2))
    rwa [List.map_map] at h

theorem lays_compact : Lays fun fs =>
    .record ((fs.filter fun f => !f.2.1).map fun f => (f.1, f.2.2)) := by
  intro fs
  refine ⟨fs.map fun f => (f.1, if f.2.1 then none else some f.2.2), ?_, ?_⟩
  · rw [List.forall₂_map_right_iff, List.forall₂_same]
    intro f _
    cases hb : f.2.1
    · exact ⟨rfl, rfl⟩
    · exact ⟨rfl, rfl⟩
  · have hgiven : given (fs.map fun f => (f.1, if f.2.1 then none else some f.2.2)) =
        (fs.filter fun f => !f.2.1).map fun f => (f.1, f.2.2) := by
      induction fs with
      | nil => rfl
      | cons f fs ih =>
          obtain ⟨k, b, v⟩ := f
          cases b
          · exact congrArg ((k, v) :: ·) ih
          · exact ih
    refine @LaysOut.object _ _ [] ?_ (by simp)
    rw [hgiven, List.append_nil]

theorem lays_positional : Lays fun fs => .arr (fs.map fun f => f.2.2) := by
  intro fs
  refine ⟨fs.map fun f => (f.1, some f.2.2), ?_, .array (by simp)⟩
  rw [List.forall₂_map_right_iff, List.forall₂_same]
  exact fun _ _ => ⟨rfl, rfl⟩

end Write

end Content

end StackScript.Json
