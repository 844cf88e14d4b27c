import StackScript.Code.Assembly
import StackScript.Proofs.Resolution
import StackScript.Proofs.Text

namespace StackScript

namespace Names

def isNameChar (c : Char) : Bool := c.isAlphanum || c == '_' || decide (128 ≤ c.toNat)

/-- A letter or an underscore, then letters, digits and underscores. Beyond ASCII every character
counts as a letter. -/
def isIdentifier (name : String) : Bool :=
  name.toList.all isNameChar && name.toList.head?.any fun c => !c.isDigit

end Names

open Names Text

/-- A literal of one line that looks like no other first value. -/
def Init.isLegible : Init → Bool
  | .literal t => !t.toList.contains '\n' && t != "null" && !"0x".toList.isPrefixOf t.toList
  | _ => true

def DataVar.isLegible (v : DataVar) : Bool :=
  isIdentifier v.name && isIdentifier v.machineType && v.init.isLegible

def Instr.isLegible : Instr → Bool
  | .push x | .jumpIndirect x | .eventHead x => isIdentifier x
  | .invoke symbol _ => !symbol.toList.contains '\n'
  | _ => true

def Program.isLegible (p : Program) : Bool :=
  p.exports.all isIdentifier && p.vars.all DataVar.isLegible && p.events.all isIdentifier &&
    p.code.all Instr.isLegible

def Instr.withoutArity : Instr → Instr
  | .invoke symbol _ => .invoke symbol 0
  | i => i

def Target.word : Target → String
  | .addr a => addressText a
  | .label _ => ""

def Init.word : Init → String
  | .null => "null"
  | .literal t => t
  | .addr a => addressText a
  | .label _ => ""

def Instr.mnemonic : Instr → String
  | .pop => "POP"
  | .copy => "COPY"
  | .push _ | .pushAddr _ => "PUSH"
  | .jump _ => "JUMP"
  | .jumpIfFalse _ => "JUMP_IF_FALSE"
  | .jumpIndirect _ => "JUMP_INDIRECT"
  | .invoke _ _ => "EXTERN"
  | .eventHead _ => ""

def Instr.operand : Instr → String
  | .pop | .copy | .eventHead _ => ""
  | .push x | .jumpIndirect x => ", " ++ x
  | .pushAddr a => ", " ++ addressText a
  | .jump t | .jumpIfFalse t => ", " ++ t.word
  | .invoke symbol _ => ", \"" ++ symbol ++ "\""

namespace Assembly

def exportWords (name : String) : String := "    .export " ++ name

def varWords (v : DataVar) : String :=
  "        " ++ v.name ++ ": %" ++ v.machineType ++ ", " ++ v.init.word

def codeWords : Instr → String
  | .eventHead name => "    " ++ name ++ ":"
  | i => "        " ++ (i.mnemonic ++ i.operand)

end Assembly

open Assembly

def Program.lines (p : Program) : List String :=
  [".data_start", ""] ++ (p.exports.map exportWords ++ (p.vars.map varWords ++
    (["", ".data_end", "", ".code_start", ""] ++ (p.events.map exportWords ++
      (p.code.map codeWords ++ ["", ".code_end"])))))

section Lines

variable {labels : List Label}

theorem Target.text_eq {t : Target} (h : t.refs = []) : t.text labels = .ok t.word := by
  cases t with
  | addr a => rfl
  | label id => cases h

theorem Init.text_eq {init : Init} (h : init.refs = []) : init.text labels = .ok init.word := by
  cases init with
  | label id => cases h
  | _ => rfl

theorem varLine_eq {v : DataVar} (h : v.init.refs = []) :
    varLine labels v = .ok (varWords v ++ "\n") := by
  rw [varLine, Init.text_eq h]
  rfl

theorem codeLine_eq {i : Instr} (h : i.refs = []) :
    codeLine labels i = .ok (codeWords i ++ "\n") := by
  have ht : ∀ t ∈ i.target?, t.text labels = .ok t.word := by
    intro t ht
    have hi := List.flatMap_eq_nil_iff.mp h t (Option.mem_toList.mpr ht)
    exact Target.text_eq hi
  cases i with
  | jump t | jumpIfFalse t =>
      simp only [codeLine, Instr.text, ht t rfl, codeWords, Except.map, Except.ok.injEq,
        ← String.toList_inj]
      simp [Instr.mnemonic, Instr.operand]
  | _ =>
      simp only [codeLine, Instr.text, codeWords, Except.map, Except.ok.injEq, ← String.toList_inj]
      simp [Instr.mnemonic, Instr.operand]

theorem Program.text_eq {p : Program} (h : p.isLinked) : p.text = .ok (unlines p.lines) := by
  obtain ⟨hcode, hvars⟩ := List.append_eq_nil_iff.mp (isLinked_iff.mp h)
  have hv : p.vars.mapM (varLine p.labels) = .ok (p.vars.map (varWords · ++ "\n")) := by
    apply mapM_eq_pure_map
    intro v hv
    exact varLine_eq (List.flatMap_eq_nil_iff.mp hvars v hv)
  have hc : p.code.mapM (codeLine p.labels) = .ok (p.code.map (codeWords · ++ "\n")) := by
    apply mapM_eq_pure_map
    intro i hi
    exact codeLine_eq (List.flatMap_eq_nil_iff.mp hcode i hi)
  simp only [text, dataText, codeText, hv, hc, bind, Except.bind, pure, Except.pure,
    Except.ok.injEq, ← String.toList_inj]
  simp [lines, unlines, exportLine, exportWords, String.toList_join, List.flatMap_map]

end Lines

section Legible

variable {x y : String}

theorem isNameChar_of_mem (hx : isIdentifier x) : ∀ c ∈ x.toList, isNameChar c :=
  List.all_eq_true.mp (Bool.and_eq_true_iff.mp hx).1

theorem exists_head (hx : isIdentifier x) :
    ∃ c cs, x.toList = c :: cs ∧ isNameChar c ∧ c.isDigit = false := by
  have hc := isNameChar_of_mem hx
  have hhead := (Bool.and_eq_true_iff.mp hx).2
  cases hl : x.toList with
  | nil => rw [hl] at hhead; cases hhead
  | cons c cs =>
      rw [hl] at hc hhead
      exact ⟨c, cs, rfl, hc c (by simp), by simpa using hhead⟩

theorem identifier_cut (hx : isIdentifier x) (hy : isIdentifier y) {us vs : List Char} {u v : Char}
    (hu : isNameChar u = false) (hv : isNameChar v = false)
    (h : x.toList ++ u :: us = y.toList ++ v :: vs) :
    x = y ∧ us = vs := by
  obtain ⟨hxy, htail⟩ :=
    cut_unique (isNameChar_of_mem hx) (isNameChar_of_mem hy) (by simp [hu]) (by simp [hv]) h
  exact ⟨String.toList_inj.mp hxy, (List.cons.inj htail).2⟩

theorem break_notMem_of_isIdentifier (hx : isIdentifier x) : '\n' ∉ x.toList := by
  intro h
  have hc := isNameChar_of_mem hx '\n' h
  revert hc
  decide

theorem break_notMem_addressText (a : Nat) : '\n' ∉ (addressText a).toList := by
  rw [addressText, String.toList_append, List.mem_append]
  rintro (h | h)
  · simp at h
  · obtain ⟨d, hd, hc⟩ := exists_digit_of_mem_hex h
    have hdigit := hexDigit?_digitChar d hd
    rw [← hc] at hdigit
    cases hdigit

def addressOf (word : String) : Nat := hexValue (word.toList.drop 2)

theorem addressOf_addressText (a : Nat) : addressOf (addressText a) = a := by
  rw [addressOf, addressText, String.toList_append]
  exact hexValue_hex 10 a

def Init.ofWord (word : String) : Init :=
  if word = "null" then .null
  else if "0x".toList.isPrefixOf word.toList then .addr (addressOf word)
  else .literal word

theorem Init.ofWord_word {init : Init} (hl : init.isLegible) (hr : init.refs = []) :
    ofWord init.word = init := by
  cases init with
  | null => rfl
  | label id => cases hr
  | literal t =>
      simp only [isLegible, Bool.and_eq_true, bne_iff_ne, Bool.not_eq_true'] at hl
      rw [word, ofWord, if_neg hl.1.2, hl.2]
      rfl
  | addr a =>
      have hnull : addressText a ≠ "null" := by
        rw [addressText, ne_eq, ← String.toList_inj]
        simp
      have hmark : "0x".toList.isPrefixOf (addressText a).toList := by
        simp [addressText]
      rw [word, ofWord, if_neg hnull, if_pos hmark, addressOf_addressText]

def Instr.ofWords (mnemonic word : String) : Instr :=
  match mnemonic with
  | "POP" => .pop
  | "COPY" => .copy
  | "PUSH" => if isIdentifier word then .push word else .pushAddr (addressOf word)
  | "JUMP" => .jump (.addr (addressOf word))
  | "JUMP_IF_FALSE" => .jumpIfFalse (.addr (addressOf word))
  | "JUMP_INDIRECT" => .jumpIndirect word
  | _ => .invoke (String.ofList word.toList.tail.dropLast) 0

theorem not_isIdentifier_addressText (a : Nat) : isIdentifier (addressText a) = false := by
  simp [isIdentifier, addressText]

theorem Instr.ofWords_operand {i : Instr} (hl : i.isLegible) (hr : i.refs = [])
    (hi : ∀ name, i ≠ .eventHead name) :
    ofWords i.mnemonic (String.ofList (i.operand.toList.drop 2)) = i.withoutArity := by
  cases i with
  | pop | copy => rfl
  | push x =>
      have hx : isIdentifier x := hl
      simp [ofWords, mnemonic, operand, withoutArity, hx]
  | pushAddr a =>
      simp [ofWords, mnemonic, operand, withoutArity, not_isIdentifier_addressText,
        addressOf_addressText]
  | jump t | jumpIfFalse t =>
      cases t with
      | label id => cases hr
      | addr a =>
        simp [ofWords, mnemonic, operand, withoutArity, Target.word, addressOf_addressText]
  | jumpIndirect x => simp [ofWords, mnemonic, operand, withoutArity]
  | invoke symbol arity => simp [ofWords, mnemonic, operand, withoutArity]
  | eventHead name => exact absurd rfl (hi name)

theorem mnemonic_cut {i j : Instr} (h : i.mnemonic ++ i.operand = j.mnemonic ++ j.operand) :
    i.mnemonic = j.mnemonic ∧ i.operand = j.operand := by
  have hmnemonic (i : Instr) : ∀ c ∈ i.mnemonic.toList, isNameChar c := by
    cases i <;> simp [Instr.mnemonic] <;> decide
  have hoperand (i : Instr) : ∀ c ∈ i.operand.toList.head?, isNameChar c = false := by
    cases i <;> simp [Instr.operand] <;> decide
  rw [← String.toList_inj, String.toList_append, String.toList_append] at h
  obtain ⟨hm, ho⟩ := cut_unique (hmnemonic i) (hmnemonic j) (hoperand i) (hoperand j) h
  exact ⟨String.toList_inj.mp hm, String.toList_inj.mp ho⟩

theorem codeWords_cases (i : Instr) : (∃ name, i = .eventHead name) ∨
    (∀ name, i ≠ .eventHead name) ∧ codeWords i = "        " ++ (i.mnemonic ++ i.operand) := by
  cases i with
  | eventHead name => exact .inl ⟨name, rfl⟩
  | _ => exact .inr ⟨by simp, rfl⟩

theorem head_ne_indented (hx : isIdentifier x) : codeWords (.eventHead x) ≠ "        " ++ y := by
  intro h
  obtain ⟨c, cs, hl, hc, -⟩ := exists_head hx
  rw [codeWords, ← String.toList_inj] at h
  simp [hl] at h
  obtain ⟨rfl, -⟩ := h
  revert hc
  decide

theorem codeWords_inj {i j : Instr} (hi : i.isLegible) (hj : j.isLegible) (hi' : i.refs = [])
    (hj' : j.refs = []) (h : codeWords i = codeWords j) : i.withoutArity = j.withoutArity := by
  obtain ⟨x, rfl⟩ | ⟨hni, hwi⟩ := codeWords_cases i
  · obtain ⟨y, rfl⟩ | ⟨-, hwj⟩ := codeWords_cases j
    · rw [codeWords, codeWords, ← String.toList_inj] at h
      simp only [String.toList_append, List.append_assoc] at h
      obtain ⟨rfl, -⟩ := identifier_cut hi hj (by decide) (by decide) (List.append_cancel_left h)
      rfl
    · exact absurd (h.trans hwj) (head_ne_indented hi)
  · obtain ⟨y, rfl⟩ | ⟨hnj, hwj⟩ := codeWords_cases j
    · exact absurd (h.symm.trans hwi) (head_ne_indented hj)
    · rw [hwi, hwj] at h
      obtain ⟨hm, ho⟩ := mnemonic_cut ((String.append_right_inj _).mp h)
      rw [← Instr.ofWords_operand hi hi' hni, ← Instr.ofWords_operand hj hj' hnj, hm, ho]

theorem varWords_inj {v w : DataVar} (hv : v.isLegible) (hw : w.isLegible) (hv' : v.init.refs = [])
    (hw' : w.init.refs = []) (h : varWords v = varWords w) : v = w := by
  simp only [DataVar.isLegible, Bool.and_eq_true] at hv hw
  obtain ⟨⟨hvn, hvt⟩, hvi⟩ := hv
  obtain ⟨⟨hwn, hwt⟩, hwi⟩ := hw
  rw [varWords, varWords, ← String.toList_inj] at h
  simp only [String.toList_append, List.append_assoc] at h
  obtain ⟨hname, h⟩ := identifier_cut hvn hwn (by decide) (by decide) (List.append_cancel_left h)
  obtain ⟨htype, h⟩ := identifier_cut hvt hwt (by decide) (by decide) (List.append_cancel_left h)
  have hword := String.toList_inj.mp (List.append_cancel_left h)
  have hinit : v.init = w.init := by
    rw [← Init.ofWord_word hvi hv', hword, Init.ofWord_word hwi hw']
  obtain ⟨name, type, init⟩ := v
  obtain ⟨name', type', init'⟩ := w
  cases hname
  cases htype
  cases hinit
  rfl

theorem exportWords_inj : Function.Injective exportWords := by
  intro x y h
  exact (String.append_right_inj _).mp h

theorem break_notMem_exportWords (hx : isIdentifier x) : '\n' ∉ (exportWords x).toList := by
  have hb := break_notMem_of_isIdentifier hx
  simp [exportWords, hb]

theorem break_notMem_word {init : Init} (hl : init.isLegible) : '\n' ∉ init.word.toList := by
  cases init with
  | null | label _ => simp [Init.word]
  | literal t =>
      simp only [Init.isLegible, Bool.and_eq_true, Bool.not_eq_true', List.contains_eq_mem,
        decide_eq_false_iff_not] at hl
      exact hl.1.1
  | addr a => exact break_notMem_addressText a

theorem break_notMem_varWords {v : DataVar} (hv : v.isLegible) : '\n' ∉ (varWords v).toList := by
  simp only [DataVar.isLegible, Bool.and_eq_true] at hv
  have hname := break_notMem_of_isIdentifier hv.1.1
  have htype := break_notMem_of_isIdentifier hv.1.2
  have hword := break_notMem_word hv.2
  simp [varWords, hname, htype, hword]

theorem break_notMem_codeWords {i : Instr} (hi : i.isLegible) : '\n' ∉ (codeWords i).toList := by
  cases i with
  | pop | copy => decide
  | push x | jumpIndirect x | eventHead x =>
      have hb := break_notMem_of_isIdentifier (x := x) hi
      simp [codeWords, Instr.mnemonic, Instr.operand, hb]
  | pushAddr a =>
      have hb := break_notMem_addressText a
      simp [codeWords, Instr.mnemonic, Instr.operand, hb]
  | jump t | jumpIfFalse t =>
      cases t with
      | addr a =>
          have hb := break_notMem_addressText a
          simp [codeWords, Instr.mnemonic, Instr.operand, Target.word, hb]
      | label id => simp [codeWords, Instr.mnemonic, Instr.operand, Target.word]
  | invoke symbol arity =>
      simp only [Instr.isLegible, Bool.not_eq_true', List.contains_eq_mem, decide_eq_false_iff_not]
        at hi
      simp [codeWords, Instr.mnemonic, Instr.operand, hi]

def isExportLine (line : String) : Bool := line.toList[4]? == some '.'

def isItemLine (line : String) : Bool := line.toList.head? == some ' ' && !isExportLine line

theorem section_cut {es fs ls ms rest more : List String} (hl : ∀ l ∈ ls, isItemLine l)
    (hm : ∀ m ∈ ms, isItemLine m) (h : es.map exportWords ++ (ls ++ "" :: rest) =
      fs.map exportWords ++ (ms ++ "" :: more)) :
    es = fs ∧ ls = ms ∧ rest = more := by
  have hexport (xs : List String) : ∀ l ∈ xs.map exportWords, isExportLine l := by
    intro l hl
    obtain ⟨x, -, rfl⟩ := List.mem_map.mp hl
    simp [isExportLine, exportWords]
  have hitem {xs : List String} (hx : ∀ x ∈ xs, isItemLine x) (ys : List String) :
      ∀ x ∈ (xs ++ "" :: ys).head?, isExportLine x = false := by
    cases xs with
    | nil => simp [isExportLine]
    | cons x xs =>
        have hx := hx x (by simp)
        simp only [isItemLine, Bool.and_eq_true, Bool.not_eq_true'] at hx
        simp [hx.2]
  obtain ⟨he, hrest⟩ := cut_unique (hexport es) (hexport fs) (hitem hl rest) (hitem hm more) h
  obtain ⟨hlm, htail⟩ := cut_unique hl hm (by simp [isItemLine]) (by simp [isItemLine]) hrest
  exact ⟨exportWords_inj.list_map he, hlm, (List.cons.inj htail).2⟩

theorem isItemLine_varWords (v : DataVar) : isItemLine (varWords v) := by
  simp [isItemLine, isExportLine, varWords]

theorem isItemLine_codeWords {i : Instr} (hi : i.isLegible) : isItemLine (codeWords i) := by
  obtain ⟨name, rfl⟩ | ⟨-, hw⟩ := codeWords_cases i
  · obtain ⟨c, cs, hl, hc, -⟩ := exists_head (x := name) hi
    have hdot : c ≠ '.' := by
      rintro rfl
      revert hc
      decide
    simp [isItemLine, isExportLine, codeWords, hl, hdot]
  · simp [isItemLine, isExportLine, hw]

end Legible

theorem map_of_map_eq {α β γ : Type} {f : α → β} {g : α → γ} {xs ys : List α}
    (hinj : ∀ x ∈ xs, ∀ y ∈ ys, f x = f y → g x = g y) (h : xs.map f = ys.map f) :
    xs.map g = ys.map g := by
  induction xs generalizing ys with
  | nil =>
      cases ys with
      | nil => rfl
      | cons y ys => cases h
  | cons x xs ih =>
      cases ys with
      | nil => cases h
      | cons y ys =>
          obtain ⟨hxy, hrest⟩ := List.cons.inj h
          rw [List.map_cons, List.map_cons, hinj x (by simp) y (by simp) hxy,
            ih (fun x hx y hy => hinj x (by simp [hx]) y (by simp [hy])) hrest]

namespace Program

variable {p q : Program}

theorem break_notMem_lines (hp : p.isLegible) : ∀ l ∈ p.lines, '\n' ∉ l.toList := by
  simp only [isLegible, Bool.and_eq_true, List.all_eq_true] at hp
  obtain ⟨⟨⟨hexports, hvars⟩, hevents⟩, hcode⟩ := hp
  simp only [lines, List.forall_mem_append, List.forall_mem_map]
  refine ⟨by decide, fun x hx => ?_, fun v hv => ?_, by decide, fun x hx => ?_, fun i hi => ?_,
    by decide⟩
  · exact break_notMem_exportWords (hexports x hx)
  · exact break_notMem_varWords (hvars v hv)
  · exact break_notMem_exportWords (hevents x hx)
  · exact break_notMem_codeWords (hcode i hi)

/-- Two linked programs with the same assembly text have the same exports, variables, events and
instructions; only the arities of host operations are not written. -/
theorem text_injective (hp : p.isLinked) (hq : q.isLinked) (hp' : p.isLegible) (hq' : q.isLegible)
    (h : p.text = q.text) : p.exports = q.exports ∧ p.vars = q.vars ∧ p.events = q.events ∧
      p.code.map Instr.withoutArity = q.code.map Instr.withoutArity := by
  rw [text_eq hp, text_eq hq, Except.ok.injEq] at h
  have hlines := unlines_inj (break_notMem_lines hp') (break_notMem_lines hq') h
  simp only [isLegible, Bool.and_eq_true, List.all_eq_true] at hp' hq'
  obtain ⟨⟨⟨-, hpv⟩, -⟩, hpc⟩ := hp'
  obtain ⟨⟨⟨-, hqv⟩, -⟩, hqc⟩ := hq'
  have hitems {r : Program} : ∀ l ∈ r.vars.map varWords, isItemLine l := by
    simp only [List.forall_mem_map]
    exact fun v _ => isItemLine_varWords v
  have hcodes {r : Program} (hr : ∀ i ∈ r.code, i.isLegible) :
      ∀ l ∈ r.code.map codeWords, isItemLine l := by
    simp only [List.forall_mem_map]
    exact fun i hi => isItemLine_codeWords (hr i hi)
  obtain ⟨hexports, hvars, hrest⟩ := section_cut hitems hitems (List.append_cancel_left hlines)
  have hrest : [".data_end", "", ".code_start", ""] ++ _ =
    [".data_end", "", ".code_start", ""] ++ _ := hrest
  obtain ⟨hevents, hcode, -⟩ :=
    section_cut (hcodes hpc) (hcodes hqc) (List.append_cancel_left hrest)
  obtain ⟨hpc', hpv'⟩ := List.append_eq_nil_iff.mp (isLinked_iff.mp hp)
  obtain ⟨hqc', hqv'⟩ := List.append_eq_nil_iff.mp (isLinked_iff.mp hq)
  rw [List.flatMap_eq_nil_iff] at hpc' hpv' hqc' hqv'
  refine ⟨hexports, ?_, hevents, ?_⟩
  · rw [← List.map_id p.vars, ← List.map_id q.vars]
    refine map_of_map_eq (fun v hv w hw => ?_) hvars
    exact varWords_inj (hpv v hv) (hqv w hw) (hpv' v hv) (hqv' w hw)
  · refine map_of_map_eq (fun i hi j hj => ?_) hcode
    exact codeWords_inj (hpc i hi) (hqc j hj) (hpc' i hi) (hqc' j hj)

def notice (arity : Nat) (labels : List Label) : Program where
  exports := ["counter"]
  vars := [⟨"counter", "SystemInt32", .literal "0"⟩,
    ⟨"größe", "SystemString", .literal "\"a, b: %c\""⟩, ⟨"text", "SystemString", .null⟩,
    ⟨"__0_const_ret_addr", "SystemUInt32", .addr 26⟩]
  events := ["_start"]
  code := [.eventHead "_start", .push "counter", .pushAddr 26, .copy, .push "größe",
    .jumpIfFalse (.addr 26), .invoke "Debug.__Log__SystemObject__SystemVoid" arity, .pop,
    .jump (.addr haltAddress), .jumpIndirect "ret_addr"]
  labels := labels

theorem notice_text_injective : (notice 1 []).text = (notice 3 [⟨"f", some 26⟩]).text ∧
    (notice 1 []).vars = (notice 3 [⟨"f", some 26⟩]).vars ∧
    (notice 1 []).code.map Instr.withoutArity =
      (notice 3 [⟨"f", some 26⟩]).code.map Instr.withoutArity := by
  have hp : (notice 1 []).isLinked := by decide
  have hq : (notice 3 [⟨"f", some 26⟩]).isLinked := by decide
  have h : (notice 1 []).text = (notice 3 [⟨"f", some 26⟩]).text := by
    rw [text_eq hp, text_eq hq]
    rfl
  obtain ⟨-, hvars, -, hcode⟩ := text_injective hp hq (by decide) (by decide) h
  exact ⟨h, hvars, hcode⟩

end Program
end StackScript
