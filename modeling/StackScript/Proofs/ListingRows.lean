import Mathlib.Data.List.Nodup
import StackScript.Code.Listing
import StackScript.Proofs.Resolution
import StackScript.Proofs.Text

namespace StackScript

def Instr.isHead : Instr → Bool
  | .eventHead _ => true
  | _ => false

def Instr.words (labels : List Label) (i : Instr) : String :=
  match i.text labels with
  | .ok (some s) => s
  | _ => ""

def Target.place? (labels : List Label) : Target → Option Nat
  | .addr a => some a
  | .label id => Label.address? labels id

namespace Listing

/-- A line of a listing, before it is written out. -/
inductive Row where
  | head (name : String)
  | label (id : Nat) (l : Label)
  | instr (a : Nat) (marked : Bool) (i : Instr)
  deriving DecidableEq

namespace Row

def text (labels : List Label) : Row → String
  | .head name => name ++ ":"
  | .label _ l => "  " ++ l.name ++ ":"
  | .instr a marked i =>
      addressText a ++ " " ++ (if marked then "►" else " ") ++ " " ++ i.words labels

def settle (labels : List Label) : Row → Row
  | .instr a marked i => .instr a marked (i.settle labels)
  | r => r

def instr? : Row → Option (Nat × Instr)
  | .instr a _ i => some (a, i)
  | _ => none

/-- The same row, or a jump that has the address of its label now. -/
inductive Linked (labels : List Label) : Row → Row → Prop
  | same (r : Row) : Linked labels r r
  | jump {a b id : Nat} {l : Label} {marked : Bool} (hl : labels[id]? = some l)
      (hb : l.addr = some b) :
      Linked labels (.instr a marked (.jump (.label id))) (.instr a marked (.jump (.addr b)))
  | jumpIfFalse {a b id : Nat} {l : Label} {marked : Bool} (hl : labels[id]? = some l)
      (hb : l.addr = some b) :
      Linked labels (.instr a marked (.jumpIfFalse (.label id)))
      (.instr a marked (.jumpIfFalse (.addr b)))

end Row

def labelRows (labels : List Label) (a : Nat) : List Row :=
  (labels.zipIdx.filter (·.1.addr = some a)).map fun x => .label x.2 x.1

def rowsAt (labels : List Label) (marked : Nat → Bool) (x : Nat × Instr) : List Row :=
  match x with
  | (_, .eventHead name) => [.head name]
  | (a, i) => labelRows labels a ++ [.instr a (marked a) i]

end Listing

namespace Program

def placed (p : Program) : List (Nat × Instr) := p.addresses.zip p.code

def leadsTo (p : Program) (a : Nat) : Bool :=
  p.code.any fun i => i.target?.any (·.place? p.labels = some a)

def rows (p : Program) : List Listing.Row := p.placed.flatMap (Listing.rowsAt p.labels p.leadsTo)

end Program

variable {labels : List Label}

theorem Target.place?_settle (t : Target) : (t.settle labels).place? labels = t.place? labels := by
  cases t with
  | addr a => rfl
  | label id =>
      rw [settle, place?]
      cases ha : Label.address? labels id with
      | none => exact ha
      | some a => rfl

theorem Instr.target?_settle (i : Instr) :
    (i.settle labels).target? = i.target?.map (Target.settle labels) := by
  cases i <;> rfl

theorem Instr.width_pos {i : Instr} (hi : i.isHead = false) : 0 < i.width := by
  cases i with
  | eventHead name => cases hi
  | _ => simp [width]

namespace Code

/-- Only an event head has the address of what follows it. -/
theorem pairwise_placed (a : Nat) (code : List Instr) :
    (∀ x ∈ (addressesFrom a code).zip code, a ≤ x.1) ∧
    ((addressesFrom a code).zip code).Pairwise fun x y => x.2.isHead = false → x.1 < y.1 := by
  induction code generalizing a with
  | nil => exact ⟨by simp [addressesFrom], .nil⟩
  | cons i is ih =>
      obtain ⟨hle, hpair⟩ := ih (a + i.width)
      rw [addressesFrom, List.zip_cons_cons]
      refine ⟨?_, .cons ?_ hpair⟩
      · intro x hx
        obtain rfl | hx := List.mem_cons.mp hx
        · exact le_rfl
        · exact (Nat.le_add_right a i.width).trans (hle x hx)
      · intro x hx hi
        have hwidth : 0 < i.width := Instr.width_pos hi
        have hx := hle x hx
        dsimp only
        omega

end Code

namespace Listing

theorem destination_eq {t : Target} (h : ∀ id ∈ t.refs, id < labels.length) :
    destination labels t = .ok (t.place? labels) := by
  cases t with
  | addr a => rfl
  | label id =>
      have hid : id < labels.length := h id (by simp [Target.refs])
      simp [destination, Label.get, Target.place?, Label.address?,
        List.getElem?_eq_getElem hid, Except.map]

theorem text_eq {i : Instr} (hi : i.isHead = false) (h : ∀ id ∈ i.refs, id < labels.length) :
    i.text labels = .ok (some (i.words labels)) := by
  have htarget : ∀ t ∈ i.target?, ∃ s, t.text labels = .ok s := by
    intro t ht
    cases t with
    | addr a => exact ⟨_, rfl⟩
    | label id =>
        have hid : id < labels.length := by
          apply h
          rw [Instr.refs, Option.mem_def.mp ht]
          simp [Target.refs]
        exact ⟨_, by
          rw [Target.text, Label.reference, Label.get, List.getElem?_eq_getElem hid]; rfl⟩
  rw [Instr.words]
  cases i with
  | eventHead name => cases hi
  | jump t | jumpIfFalse t =>
      obtain ⟨s, hs⟩ := htarget t rfl
      simp [Instr.text, hs, Except.map]
  | _ => rfl

theorem labelRows_text (a : Nat) :
    (labelRows labels a).map (Row.text labels · ++ "\n") =
    (labels.filter (·.addr = some a)).map labelLine := by
  conv => rhs; rw [← List.zipIdx_map_fst 0 labels]
  rw [labelRows, List.filter_map, List.map_map, List.map_map]
  apply List.map_congr_left
  intro x hx
  simp [Row.text, labelLine, String.append_assoc]

theorem rowsAt_cases (labels : List Label) (marked : Nat → Bool) (x : Nat × Instr) :
    (∃ name, x.2 = .eventHead name ∧ rowsAt labels marked x = [.head name]) ∨
      x.2.isHead = false ∧ rowsAt labels marked x = labelRows labels x.1 ++
      [.instr x.1 (marked x.1) x.2] := by
  obtain ⟨a, i⟩ := x
  cases i with
  | eventHead name => exact .inl ⟨name, rfl, rfl⟩
  | _ => exact .inr ⟨rfl, rfl⟩

theorem lines_cons {p : Program} {marked : List Nat} {a : Nat} {left : List Label} {i : Instr}
    {is : List Instr} {rest : List String} (hi : i.isHead = false)
    (h : ∀ id ∈ i.refs, id < p.labels.length)
    (hrest : lines p marked (a + i.width) (left.filter (·.addr ≠ some a)) is = .ok rest) :
    lines p marked a left (i :: is) = .ok ((left.filter (·.addr = some a)).map labelLine ++
      (Row.text p.labels (.instr a (marked.contains a) i) ++ "\n") :: rest) := by
  have htext := text_eq hi h
  cases i with
  | eventHead name => cases hi
  | _ =>
      rw [lines, htext, hrest]
      · rfl
      · exact fun _ h => by cases h

theorem filter_crossed {left : List Label} {a b : Nat} (hab : a < b) :
    (left.filter (·.addr ≠ some a)).filter (·.addr = some b) = left.filter (·.addr = some b) := by
  rw [List.filter_filter]
  apply List.filter_congr
  intro l hl
  by_cases hb : l.addr = some b
  · simp [hb, hab.ne']
  · simp [hb]

/-- Labels that are crossed off stand at addresses that do not come again. -/
theorem lines_eq {p : Program} {marked : List Nat} {a : Nat} {left : List Label} {code : List Instr}
    (hleft : ∀ b, a ≤ b → left.filter (·.addr = some b) = p.labels.filter (·.addr = some b))
    (hrefs : ∀ id ∈ code.flatMap Instr.refs, id < p.labels.length) :
    lines p marked a left code = .ok ((((Code.addressesFrom a code).zip code).flatMap
      (rowsAt p.labels marked.contains)).map (Row.text p.labels · ++ "\n")) := by
  induction code generalizing a left with
  | nil => rfl
  | cons i is ih =>
      simp only [List.flatMap_cons, List.mem_append] at hrefs
      have his : ∀ id ∈ is.flatMap Instr.refs, id < p.labels.length := fun id h => hrefs id (.inr h)
      rw [Code.addressesFrom, List.zip_cons_cons, List.flatMap_cons, List.map_append]
      obtain ⟨name, rfl, hrows⟩ | ⟨hi, hrows⟩ := rowsAt_cases p.labels marked.contains (a, i)
      · have hline : name ++ ":\n" = name ++ ":" ++ "\n" := by rw [String.append_assoc]; rfl
        rw [lines, ih hleft his, hrows, hline]
        rfl
      · have hwidth := Instr.width_pos hi
        rw [lines_cons hi (fun id h => hrefs id (.inl h)) (ih ?_ his), hrows, hleft a le_rfl,
          List.map_append, labelRows_text, List.append_assoc]
        · rfl
        · intro b hb
          rw [filter_crossed (by omega), hleft b (by omega)]

theorem destinations_eq {p : Program} (h : ∀ id ∈ p.code.flatMap Instr.refs, id < p.labels.length) :
    ∃ marked, destinations p = .ok marked ∧ marked.contains = p.leadsTo := by
  have hfound : (p.code.filterMap Instr.target?).mapM (destination p.labels) =
      .ok ((p.code.filterMap Instr.target?).map (Target.place? p.labels)) := by
    apply Text.mapM_eq_pure_map
    intro t ht
    obtain ⟨i, hi, hit⟩ := List.mem_filterMap.mp ht
    apply destination_eq
    intro id hid
    apply h
    rw [List.mem_flatMap]
    exact ⟨i, hi, by simpa [Instr.refs, hit] using hid⟩
  refine ⟨((p.code.filterMap Instr.target?).map (Target.place? p.labels)).filterMap id, ?_, ?_⟩
  · rw [destinations, hfound]
    rfl
  · funext a
    rw [Bool.eq_iff_iff, List.contains_iff_mem, Program.leadsTo, List.any_eq_true]
    simp only [List.mem_filterMap, List.mem_map, id, Option.any_eq_true, decide_eq_true_eq]
    constructor
    · rintro ⟨_, ⟨t, ⟨i, hi, hit⟩, rfl⟩, ha⟩
      exact ⟨i, hi, t, hit, ha⟩
    · rintro ⟨i, hi, t, hit, ha⟩
      exact ⟨_, ⟨t, ⟨i, hi, hit⟩, rfl⟩, ha⟩

end Listing

theorem Program.listing_eq {p : Program}
    (h : ∀ id ∈ p.code.flatMap Instr.refs, id < p.labels.length) :
    p.listing = .ok (Text.unlines (p.rows.map (Listing.Row.text p.labels))) := by
  obtain ⟨marked, hdest, hmarked⟩ := Listing.destinations_eq h
  rw [listing, hdest, rows, placed, ← hmarked, Text.unlines, List.map_map]
  simp only [bind, Except.bind]
  rw [Listing.lines_eq (fun _ _ => rfl) h]
  rfl

namespace Listing

theorem instr?_labelRows (a : Nat) : (labelRows labels a).filterMap Row.instr? = [] := by
  simp [labelRows, Row.instr?]

theorem filterMap_instr?_rowsAt (marked : Nat → Bool) (x : Nat × Instr) :
    (rowsAt labels marked x).filterMap Row.instr? = [x].filter (!·.2.isHead) := by
  obtain ⟨name, hx, hrows⟩ | ⟨hx, hrows⟩ := rowsAt_cases labels marked x
  · rw [hrows]
    simp [Row.instr?, hx, Instr.isHead]
  · rw [hrows, List.filterMap_append, instr?_labelRows]
    simp [Row.instr?, hx]

theorem mem_labelRows {a id : Nat} {l : Label} :
    .label id l ∈ labelRows labels a ↔ labels[id]? = some l ∧ l.addr = some a := by
  simp only [labelRows, List.mem_map, List.mem_filter, decide_eq_true_eq, Row.label.injEq,
    Prod.exists]
  constructor
  · rintro ⟨l', id', ⟨hmem, ha⟩, rfl, rfl⟩
    exact ⟨List.mk_mem_zipIdx_iff_getElem?.mp hmem, ha⟩
  · rintro ⟨hl, ha⟩
    exact ⟨l, id, ⟨List.mk_mem_zipIdx_iff_getElem?.mpr hl, ha⟩, rfl, rfl⟩

theorem nodup_labelRows (a : Nat) : (labelRows labels a).Nodup := by
  have hids : (labels.zipIdx.map Prod.snd).Nodup := by
    rw [List.zipIdx_map_snd]
    exact List.nodup_range'
  have hfilter := (List.Nodup.of_map _ hids).filter (·.1.addr = some a)
  apply hfilter.map
  intro x y hxy
  obtain ⟨hid, hl⟩ := Row.label.inj hxy
  exact Prod.ext hl hid

theorem label_mem_rowsAt {marked : Nat → Bool} {x : Nat × Instr} {id : Nat} {l : Label}
    (h : .label id l ∈ rowsAt labels marked x) : x.2.isHead = false ∧ l.addr = some x.1 := by
  obtain ⟨name, hx, hrows⟩ | ⟨hx, hrows⟩ := rowsAt_cases labels marked x
  · simp [hrows] at h
  · rw [hrows, List.mem_append] at h
    obtain h | h := h
    · exact ⟨hx, (mem_labelRows.mp h).2⟩
    · simp at h

theorem instr_mem_rowsAt {marked : Nat → Bool} {x : Nat × Instr} {a : Nat} {m : Bool} {i : Instr}
    (h : .instr a m i ∈ rowsAt labels marked x) : m = marked a := by
  obtain ⟨name, hx, hrows⟩ | ⟨hx, hrows⟩ := rowsAt_cases labels marked x
  · simp [hrows] at h
  · rw [hrows, List.mem_append] at h
    obtain h | h := h
    · simp [labelRows] at h
    · cases List.mem_singleton.mp h
      rfl

theorem rowsAt_settle (marked : Nat → Bool) (a : Nat) (i : Instr) :
    rowsAt labels marked (a, i.settle labels) =
    (rowsAt labels marked (a, i)).map (Row.settle labels) := by
  have hlabels : (labelRows labels a).map (Row.settle labels) = labelRows labels a := by
    rw [labelRows, List.map_map]
    rfl
  obtain ⟨name, hi, -⟩ | ⟨hi, hrows⟩ := rowsAt_cases labels marked (a, i)
  · cases (show i = .eventHead name from hi)
    rfl
  · rw [hrows, List.map_append, hlabels]
    cases i with
    | eventHead name => cases hi
    | _ => rfl

theorem linked_settle (r : Row) : Row.Linked labels r (r.settle labels) := by
  rcases r with name | ⟨id, l⟩ | ⟨a, marked, i⟩
  case head | label => exact .same _
  rcases i with - | - | - | - | t | t | - | - | -
  case jump | jumpIfFalse =>
    cases t with
    | addr b => exact .same _
    | label id =>
        simp only [Row.settle, Instr.settle, Target.settle]
        cases hb : Label.address? labels id with
        | none => exact .same _
        | some b =>
            obtain ⟨l, hl, hb⟩ := Option.bind_eq_some_iff.mp hb
            constructor <;> assumption
  all_goals exact .same _

end Listing

namespace Program

variable {p : Program}

theorem leadsTo_eq_true {a : Nat} :
    p.leadsTo a = true ↔ ∃ i ∈ p.code, ∃ t, i.target? = some t ∧ t.place? p.labels = some a := by
  simp only [leadsTo, List.any_eq_true, Option.any_eq_true, decide_eq_true_eq]

theorem leadsTo_iff {a : Nat} :
    p.leadsTo a = true ↔ ∃ t, (.jump t ∈ p.code ∨ .jumpIfFalse t ∈ p.code) ∧
    (t = .addr a ∨ ∃ id l, t = .label id ∧ p.labels[id]? = some l ∧ l.addr = some a) := by
  have hplace (t : Target) : t.place? p.labels = some a ↔
      t = .addr a ∨ ∃ id l, t = .label id ∧ p.labels[id]? = some l ∧ l.addr = some a := by
    cases t <;> simp [Target.place?, Label.address?, Option.bind_eq_some_iff]
  rw [leadsTo_eq_true]
  constructor
  · rintro ⟨i, hi, t, hit, ha⟩
    refine ⟨t, ?_, (hplace t).mp ha⟩
    cases i with
    | jump t' => cases hit; exact .inl hi
    | jumpIfFalse t' => cases hit; exact .inr hi
    | _ => cases hit
  · rintro ⟨t, hi | hi, ha⟩
    · exact ⟨_, hi, t, rfl, (hplace t).mpr ha⟩
    · exact ⟨_, hi, t, rfl, (hplace t).mpr ha⟩

theorem leadsTo_settled : p.settled.leadsTo = p.leadsTo := by
  funext a
  simp [leadsTo, settled, List.any_map, Function.comp_def, Instr.target?_settle, Option.any_map,
    Target.place?_settle]

theorem placed_settled : p.settled.placed = p.placed.map fun x => (x.1, x.2.settle p.labels) := by
  rw [placed, (resembles_settled p).addresses, settled, List.zip_map_right]
  rfl

theorem rows_settled : p.settled.rows = p.rows.map (Listing.Row.settle p.labels) := by
  rw [rows, rows, placed_settled, leadsTo_settled, List.flatMap_map, List.map_flatMap]
  apply congrArg (List.flatMap · p.placed)
  funext x
  exact Listing.rowsAt_settle p.leadsTo x.1 x.2

/-- An instruction has the labels of its address right above it, and they stand nowhere else. -/
theorem rows_split {a : Nat} {i : Instr} (hx : (a, i) ∈ p.placed) (hi : i.isHead = false) :
    ∃ above below, p.rows = above ++
    (Listing.labelRows p.labels a ++ .instr a (p.leadsTo a) i :: below) ∧
      ∀ id l, .label id l ∈ above ++ below → l.addr ≠ some a := by
  obtain ⟨before, after, hsplit⟩ := List.append_of_mem hx
  obtain ⟨-, hpair⟩ := Code.pairwise_placed 0 p.code
  rw [← addresses, ← placed, hsplit, List.pairwise_append, List.pairwise_cons] at hpair
  obtain ⟨-, ⟨hafter, -⟩, hbefore⟩ := hpair
  refine ⟨before.flatMap (Listing.rowsAt p.labels p.leadsTo),
    after.flatMap (Listing.rowsAt p.labels p.leadsTo), ?_, ?_⟩
  · obtain ⟨name, hi', -⟩ | ⟨-, hrows⟩ := Listing.rowsAt_cases p.labels p.leadsTo (a, i)
    · cases (show i = .eventHead name from hi')
      cases hi
    · rw [rows, hsplit, List.flatMap_append, List.flatMap_cons, hrows, List.append_assoc]
      rfl
  · intro id l hl ha
    rw [← List.flatMap_append, List.mem_flatMap] at hl
    obtain ⟨y, hy, hl⟩ := hl
    obtain ⟨hhead, haddr⟩ := Listing.label_mem_rowsAt hl
    obtain rfl : y.1 = a := Option.some.inj (haddr.symm.trans ha)
    obtain hy | hy := List.mem_append.mp hy
    · exact absurd (hbefore y hy (y.1, i) (by simp) hhead) (lt_irrefl _)
    · exact absurd (hafter y hy hi) (lt_irrefl _)

theorem count_label_rows {id a : Nat} {l : Label} {i : Instr} (hl : p.labels[id]? = some l)
    (ha : l.addr = some a) (hx : (a, i) ∈ p.placed) (hi : i.isHead = false) :
    p.rows.count (.label id l) = 1 := by
  obtain ⟨above, below, hrows, hothers⟩ := rows_split hx hi
  have habove : .label id l ∉ above := fun h => hothers id l (List.mem_append_left _ h) ha
  have hbelow : .label id l ∉ below := fun h => hothers id l (List.mem_append_right _ h) ha
  rw [hrows, List.count_append, List.count_append, List.count_cons_of_ne (by simp),
    List.count_eq_zero.mpr habove, List.count_eq_zero.mpr hbelow,
    List.count_eq_one_of_mem (Listing.nodup_labelRows a) (Listing.mem_labelRows.mpr ⟨hl, ha⟩)]

theorem eq_settled {q : Program} (h : p.link = .ok q) : q = p.settled := by
  rw [link_eq, Label.require] at h
  cases hfind : p.pending.find? (Label.isUnbound p.labels) with
  | none =>
      rw [hfind] at h
      cases h
      rfl
  | some id =>
      rw [hfind] at h
      cases h

/-- The listing of a program whose jumps lead to labels that exist. It has a row for each
instruction that is no event head, in the order of the code and with its address. A label that has
the address of such an instruction stands once, in the rows right above it, which follow the table.
An arrow stands where a jump leads. Linking leaves the rows as they are, but for jumps to labels. -/
theorem listing_faithful (hp : ∀ id ∈ p.code.flatMap Instr.refs, id < p.labels.length) :
    p.listing = .ok (Text.unlines (p.rows.map (Listing.Row.text p.labels))) ∧
    p.rows.filterMap Listing.Row.instr? = (p.addresses.zip p.code).filter (!·.2.isHead) ∧
    (∀ a i, (a, i) ∈ p.addresses.zip p.code → i.isHead = false →
      (∃ above below, p.rows = above ++
        (Listing.labelRows p.labels a ++ .instr a (p.leadsTo a) i :: below) ∧
        ∀ id l, .label id l ∈ above ++ below → l.addr ≠ some a) ∧
      ∀ (id : Nat) (l : Label), p.labels[id]? = some l → l.addr = some a →
        p.rows.count (.label id l) = 1) ∧
    (∀ a marked i, .instr a marked i ∈ p.rows →
      (marked = true ↔ ∃ t, (.jump t ∈ p.code ∨ .jumpIfFalse t ∈ p.code) ∧
        (t = .addr a ∨ ∃ id l, t = .label id ∧ p.labels[id]? = some l ∧ l.addr = some a))) ∧
    ∀ q, p.link = .ok q → q.listing = .ok (Text.unlines (q.rows.map (Listing.Row.text p.labels))) ∧
      List.Forall₂ (Listing.Row.Linked p.labels) p.rows q.rows := by
  refine ⟨listing_eq hp, ?_, ?_, ?_, ?_⟩
  · rw [rows, placed, List.filterMap_flatMap]
    simp only [Listing.filterMap_instr?_rowsAt]
    rw [← List.filter_flatMap, List.flatMap_singleton']
  · intro a i hx hi
    exact ⟨rows_split hx hi, fun id l hl ha => count_label_rows hl ha hx hi⟩
  · intro a marked i h
    obtain ⟨x, -, hx⟩ := List.mem_flatMap.mp h
    rw [Listing.instr_mem_rowsAt hx, leadsTo_iff]
  · intro q hq
    obtain rfl := eq_settled hq
    refine ⟨listing_eq ?_, ?_⟩
    · intro id hid
      obtain ⟨j, hj, hid⟩ := List.mem_flatMap.mp hid
      obtain ⟨i, hi, rfl⟩ := List.mem_map.mp hj
      rw [Instr.refs_settle] at hid
      exact hp id (List.mem_flatMap.mpr ⟨i, hi, List.mem_of_mem_filter hid⟩)
    · rw [rows_settled, List.forall₂_map_right_iff, List.forall₂_same]
      exact fun r _ => Listing.linked_settle r

def looping : Program where
  exports := []
  vars := [⟨"n", "SystemBoolean", .literal "true"⟩]
  events := ["_start"]
  code := [.eventHead "_start", .push "n", .jumpIfFalse (.label 1), .jump (.addr 0), .pop]
  labels := [⟨"loop", some 0⟩, ⟨"end", some 15⟩, ⟨"after", some 15⟩, ⟨"lost", none⟩]

theorem looping_listing :
    looping.listing = .ok (Text.unlines ["_start:", "  loop:", "0x0000000000 ► PUSH, n",
      "0x0000000005   JUMP_IF_FALSE, ###end###", "0x000000000a   JUMP, 0x0000000000",
      "  end:", "  after:", "0x000000000f ► POP"]) ∧
    looping.rows.count (.label 2 ⟨"after", some 15⟩) = 1 ∧
    ∃ q, looping.link = .ok q ∧
      List.Forall₂ (Listing.Row.Linked looping.labels) looping.rows q.rows ∧
      q.listing = .ok (Text.unlines ["_start:", "  loop:", "0x0000000000 ► PUSH, n",
        "0x0000000005   JUMP_IF_FALSE, 0x000000000f", "0x000000000a   JUMP, 0x0000000000",
        "  end:", "  after:", "0x000000000f ► POP"]) := by
  obtain ⟨hlisting, -, hlabels, -, hlink⟩ := listing_faithful (p := looping) (by decide)
  obtain ⟨hlinked, hrows⟩ := hlink looping.settled rfl
  refine ⟨hlisting.trans ?_, (hlabels 15 .pop (by decide) rfl).2 2 _ rfl rfl, _, rfl, hrows,
    hlinked.trans ?_⟩
  · decide +kernel
  · decide +kernel

end Program
end StackScript
