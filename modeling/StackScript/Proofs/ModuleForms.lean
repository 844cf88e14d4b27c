import StackScript.Proofs.Json.Reading
import StackScript.Proofs.ModuleContent

namespace StackScript

open Json Json.Content

theorem int?_int (n : Int) : (Json.int n).int? = some n := by
  change (if decide (n < 0) then if n.natAbs = 0 then none else some (-(n.natAbs : Int))
    else some (n.natAbs : Int)) = _
  by_cases hn : n < 0
  · rw [if_pos (decide_eq_true hn), if_neg (by omega), show -(n.natAbs : Int) = n by omega]
  · rw [if_neg (by simpa using hn), show (n.natAbs : Int) = n by omega]

theorem int64?_int (n : Int64) : int64? (.int n.toInt) = some n := by
  rw [int64?, int?_int, Option.bind_eq_bind, Option.bind_some,
    if_pos ⟨n.minValue_le_toInt, n.toInt_le⟩, Int64.ofInt_toInt]

theorem word?_int (n : UInt32) : word? 32 (.int n.toNat) = some n.toNat := by
  have hpow : Int.pow 2 32 = 4294967296 := by decide
  have hlt := n.toNat_lt
  rw [word?, int?_int, hpow, Option.bind_eq_bind, Option.bind_some, if_pos (by omega),
    Int.toNat_natCast]

theorem UnaryOp.mem_tags (op : UnaryOp) : op ∈ tags.map Prod.snd := by cases op <;> decide

theorem BinaryOp.mem_tags (op : BinaryOp) : op ∈ tags.map Prod.snd := by cases op <;> decide

theorem CompareOp.mem_tags (op : CompareOp) : op ∈ tags.map Prod.snd := by cases op <;> decide

theorem LogicOp.mem_tags (op : LogicOp) : op ∈ tags.map Prod.snd := by cases op <;> decide

theorem read_text (s : String) (n : Nat) : (Content.leaf (.text s)).Read n text? s := .leaf rfl rfl

theorem read_nullableText (s : Option String) (n : Nat) :
    (Content.leaf (nullable .text s)).Read n (orNull text?) s := by
  cases s <;> exact .leaf rfl rfl

theorem read_texts (ss : List String) (n : Nat) : (textsContent ss).Read n (textList? n) ss :=
  .list_map ss (fun n s _ => read_text s n) n

theorem read_word (n : UInt32) (k : Nat) :
    (Content.leaf (.int n.toNat)).Read k (word? 32) n.toNat :=
  .leaf rfl (word?_int n)

theorem Pos.read (p : Pos) (n : Nat) : p.content.Read n (Pos.ofJson? n) p := by
  have hp : (⟨p.line.toNat.toUInt32, p.col.toNat.toUInt32⟩ : Pos) = p := by simp
  have h : p.content.Read n (Pos.ofJson? n) ⟨p.line.toNat.toUInt32, p.col.toNat.toUInt32⟩ := by
    refine .record ["line", "col"] (fun _ => followed (Field.required (word? 32)) fun line =>
      followed (Field.required (word? 32)) fun col _ => some ⟨line.toUInt32, col.toUInt32⟩)
      rfl (by decide) (fun _ => rfl) ?_
      (fun n => .cons (read_word p.line n).required (.cons (read_word p.col n).required .nil)) n
    intro n w A B h
    simp only [Pos.ofJson?, h]
    rfl
  rwa [hp] at h

theorem Read.node {α : Type} {read : Nat → Json → Option α} {kind? : Nat → Pos → Json → Option α}
    {p : Pos} {c : Content} {a : α} (hz : ∀ w, read 0 w = none)
    (hs : ∀ n w A B, fields ["pos", "kind"] w = some [A, B] →
      read (n + 1) w = (A.orElse .unknown (Pos.ofJson? n)).bind fun p => B.required (kind? n p))
    (h : ∀ n, c.Read n (kind? n p) a) (n : Nat) : (nodeContent p c).Read n (read n) a := by
  refine .record ["pos", "kind"]
    (fun n =>
      followed (Field.orElse Pos.unknown (Pos.ofJson? n)) fun p =>
      followed (Field.required (kind? n p)) fun a _ => some a)
    rfl (by decide) hz ?_ (fun n =>
      .cons ((p.read n).orElse fun h => (of_decide_eq_true h).symm)
      (.cons (h n).required .nil)) n
  intro n w A B h
  simp only [hs n w A B h, followed, Option.bind_fun_some]

namespace Expr

variable {float : Binary64 → Json}

theorem read_node {p : Pos} {c : Content} {e : Expr} (h : ∀ n, c.Read n (kind? n p) e) (n : Nat) :
    (nodeContent p c).Read n (ofJson? n) e := by
  refine Read.node (fun _ => rfl) ?_ h n
  intro n w A B h
  simp only [ofJson?, h]
  rfl

theorem read_body {p : Pos} {t : String} {c : Content} {e : Expr}
    (h : ∀ n, c.Read n (body? n p t) e) (n : Nat) :
    (nodeContent p (.tagged t c)).Read n (ofJson? n) e :=
  read_node (Read.tagged (fun _ => rfl) (fun _ _ => rfl) h) n

theorem list?_eq (n : Nat) (v : Json) : list? n v = listOf ofJson? n v := by
  cases n with
  | zero => rfl
  | succ n => cases v <;> rfl

theorem read_list {cs : List Content} {es : List Expr}
    (h : ∀ n, List.Forall₂ (fun c e => c.Read n (ofJson? n) e) cs es) (n : Nat) :
    (Content.list cs).Read n (list? n) es := (Read.list h n).congr (list?_eq n)

mutual

theorem read : ∀ e : Expr, e.isFloatFree → ∀ n, (e.content float).Read n (ofJson? n) e
  | .int p k, _ =>
      read_body fun n => .leaf rfl (by cases n <;> simp [body?, leaf?, int64?_int, Expr.pos])
  | .float _ _, h => by cases h
  | .str _ _, _ | .bool _ _, _ | .name _ _, _ | .other _ _, _ =>
      read_body fun n => .leaf rfl (by cases n <;> rfl)
  | .null _, _ => read_node fun n => .leaf rfl (by cases n <;> rfl)
  | .member p e m, h => by
      refine read_body (.record ["value", "attr"]
        (fun n =>
          followed (Field.required (ofJson? n)) fun e =>
          followed (Field.required text?) fun m _ => some (.member p e m))
        rfl (by decide) (fun _ => rfl) ?_ fun n =>
          .cons (read e h n).required
          (.cons (read_text m n).required .nil))
      intro n w A B h
      simp only [body?, h]
      rfl
  | .subscript p e i, h => by
      obtain ⟨he, hi⟩ := Bool.and_eq_true_iff.mp h
      refine read_body (.record ["value", "index"]
        (fun n =>
          followed (Field.required (ofJson? n)) fun e =>
          followed (Field.required (ofJson? n)) fun i _ => some (.subscript p e i))
        rfl (by decide) (fun _ => rfl) ?_ fun n =>
          .cons (read e he n).required
          (.cons (read i hi n).required .nil))
      intro n w A B h
      simp only [body?, h]
      rfl
  | .call p f as, h => by
      obtain ⟨hf, has⟩ := Bool.and_eq_true_iff.mp h
      refine read_body (.record ["func", "args"]
        (fun n =>
          followed (Field.required (ofJson? n)) fun f =>
          followed (Field.required (list? n)) fun as _ => some (.call p f as))
        rfl (by decide) (fun _ => rfl) ?_ fun n =>
          .cons (read f hf n).required
          (.cons (read_list (readAll as has) n).required .nil))
      intro n w A B h
      simp only [body?, h]
      rfl
  | .unary p op e, h => by
      refine read_body (.record ["op", "operand"]
        (fun n =>
          followed (Field.required (choice UnaryOp.tags n)) fun op =>
          followed (Field.required (ofJson? n)) fun e _ => some (.unary p op e))
        rfl (by decide) (fun _ => rfl) ?_ fun n =>
          .cons (Read.tag (by decide) (UnaryOp.mem_tags op) n).required
          (.cons (read e h n).required .nil))
      intro n w A B h
      simp only [body?, h]
      rfl
  | .binary p l op r, h => by
      obtain ⟨hl, hr⟩ := Bool.and_eq_true_iff.mp h
      refine read_body (.record ["left", "op", "right"]
        (fun n =>
          followed (Field.required (ofJson? n)) fun l =>
          followed (Field.required (choice BinaryOp.tags n)) fun op =>
          followed (Field.required (ofJson? n)) fun r _ => some (.binary p l op r))
        rfl (by decide) (fun _ => rfl) ?_ fun n =>
          .cons (read l hl n).required
          (.cons (Read.tag (by decide) (BinaryOp.mem_tags op) n).required
          (.cons (read r hr n).required .nil)))
      intro n w A B C h
      simp only [body?, h]
      rfl
  | .compare p l ops rs, h => by
      obtain ⟨hl, hrs⟩ := Bool.and_eq_true_iff.mp h
      refine read_body (.record ["left", "ops", "comparators"]
        (fun n =>
          followed (Field.required (ofJson? n)) fun l =>
          followed (Field.required (listOf (choice CompareOp.tags) n)) fun ops =>
          followed (Field.required (list? n)) fun rs _ => some (.compare p l ops rs))
        rfl (by decide) (fun _ => rfl) ?_ fun n =>
          .cons (read l hl n).required
          (.cons (Read.list_map ops
            (fun n op _ => .tag (by decide) (CompareOp.mem_tags op) n) n).required
          (.cons (read_list (readAll rs hrs) n).required .nil)))
      intro n w A B C h
      simp only [body?, h]
      rfl
  | .logic p op es, h => by
      refine read_body (.record ["op", "values"]
        (fun n =>
          followed (Field.required (choice LogicOp.tags n)) fun op =>
          followed (Field.required (list? n)) fun es _ => some (.logic p op es))
        rfl (by decide) (fun _ => rfl) ?_ fun n =>
          .cons (Read.tag (by decide) (LogicOp.mem_tags op) n).required
          (.cons (read_list (readAll es h) n).required .nil))
      intro n w A B h
      simp only [body?, h]
      rfl

theorem readAll : ∀ es : List Expr, allFloatFree es → ∀ n,
    List.Forall₂ (fun c e => c.Read n (ofJson? n) e) (contents float es) es
  | [], _, _ => .nil
  | e :: es, h, n => by
      obtain ⟨he, hes⟩ := Bool.and_eq_true_iff.mp h
      exact .cons (read e he n) (readAll es hes n)

end

end Expr

theorem Param.read (p : Param) (n : Nat) : p.content.Read n (Param.ofJson? n) p := by
  obtain ⟨name, typeName⟩ := p
  refine .record ["name", "annotation"]
    (fun _ =>
      followed (Field.required text?) fun name =>
      followed (Field.orElse none (orNull text?)) fun typeName _ => some ⟨name, typeName⟩)
    rfl (by decide) (fun _ => rfl) ?_ (fun n =>
      .cons (read_text name n).required
      (.cons ((read_nullableText typeName n).orElse fun h =>
        (Option.isNone_iff_eq_none.mp h).symm) .nil)) n
  intro n w A B h
  simp only [Param.ofJson?, h]
  rfl

namespace Stmt

variable {float : Binary64 → Json}

theorem read_node {p : Pos} {c : Content} {s : Stmt} (h : ∀ n, c.Read n (kind? n p) s) (n : Nat) :
    (nodeContent p c).Read n (ofJson? n) s := by
  refine Read.node (fun _ => rfl) ?_ h n
  intro n w A B h
  simp only [ofJson?, h]
  rfl

theorem read_body {p : Pos} {t : String} {c : Content} {s : Stmt}
    (h : ∀ n, c.Read n (body? n p t) s) (n : Nat) :
    (nodeContent p (.tagged t c)).Read n (ofJson? n) s :=
  read_node (Read.tagged (fun _ => rfl) (fun _ _ => rfl) h) n

theorem block?_eq (n : Nat) (v : Json) : block? n v = listOf ofJson? n v := by
  cases n with
  | zero => rfl
  | succ n => cases v <;> rfl

theorem read_block {cs : List Content} {ss : List Stmt}
    (h : ∀ n, List.Forall₂ (fun c s => c.Read n (ofJson? n) s) cs ss) (n : Nat) :
    (Content.list cs).Read n (block? n) ss := (Read.list h n).congr (block?_eq n)

theorem read_result {value : Option Expr} (h : value.all Expr.isFloatFree) (n : Nat) :
    (value.elim (.leaf .null) (Expr.content float)).Read n (orNull (Expr.ofJson? n)) value := by
  cases value with
  | none => exact .leaf rfl rfl
  | some e =>
      refine (e.read h n).nonNull ?_ (by simp [Expr.content, nodeContent, full_record, Json.record])
      intro hf
      cases n with
      | zero => exact hf
      | succ n =>
          obtain ⟨vs, -, hw⟩ := hf
          cases hw

def tested (make : Expr → List Stmt → List Stmt → Stmt) (n : Nat) : List Field → Option Stmt :=
  followed (Field.required (Expr.ofJson? n)) fun test =>
  followed (Field.required (block? n)) fun body =>
  followed (Field.orElse [] (block? n)) fun orelse _ => some (make test body orelse)

theorem read_tested (make : Expr → List Stmt → List Stmt → Stmt) {test : Expr}
    {body orelse : List Stmt} {bs os : List Content} (ht : test.isFloatFree)
    (hb : ∀ n, List.Forall₂ (fun c s => c.Read n (ofJson? n) s) bs body)
    (ho : ∀ n, List.Forall₂ (fun c s => c.Read n (ofJson? n) s) os orelse) (n : Nat) :
    FieldsRead n (make test body orelse) [("test", false, test.content float),
      ("body", false, .list bs), ("orelse", orelse.isEmpty, .list os)] (tested make n) :=
  .cons (test.read ht n).required
  (.cons (read_block hb n).required
  (.cons ((read_block ho n).orElse fun h => (List.isEmpty_iff.mp h).symm) .nil))

mutual

theorem read : ∀ s : Stmt, s.isFloatFree → ∀ n, (s.content float).Read n (ofJson? n) s
  | .define p name params returns body, h => by
      refine read_body (.record ["name", "params", "returns", "body"]
        (fun n =>
          followed (Field.required text?) fun name =>
          followed (Field.required (listOf Param.ofJson? n)) fun params =>
          followed (Field.orElse none (orNull text?)) fun returns =>
          followed (Field.required (block? n)) fun body _ =>
            some (.define p name params returns body))
        rfl (by decide) (fun _ => by simp [body?, simple?, bare?]) ?_ fun n =>
          .cons (read_text name n).required
          (.cons (Read.list_map params (fun n p _ => p.read n) n).required
          (.cons ((read_nullableText returns n).orElse fun h =>
            (Option.isNone_iff_eq_none.mp h).symm)
          (.cons (read_block (readAll body h) n).required .nil))))
      intro n w A B C D h
      simp only [body?, h]
      rfl
  | .global p names, _ => read_body fun n =>
      ((read_texts names n).map (Stmt.global p)).congr fun v => by cases n <;> rfl
  | .assign p target value, h => by
      obtain ⟨ht, hv⟩ := Bool.and_eq_true_iff.mp h
      refine read_body (.record ["target", "value"]
        (fun n =>
          followed (Field.required (Expr.ofJson? n)) fun target =>
          followed (Field.required (Expr.ofJson? n)) fun value _ => some (.assign p target value))
        rfl (by decide) (fun _ => by simp [body?, simple?, bare?]) ?_ fun n =>
          .cons (target.read ht n).required
          (.cons (value.read hv n).required .nil))
      intro n w A B h
      simp only [body?, h]
      rfl
  | .update p target op value, h => by
      obtain ⟨ht, hv⟩ := Bool.and_eq_true_iff.mp h
      refine read_body (.record ["target", "op", "value"]
        (fun n =>
          followed (Field.required (Expr.ofJson? n)) fun target =>
          followed (Field.required (choice BinaryOp.tags n)) fun op =>
          followed (Field.required (Expr.ofJson? n)) fun value _ =>
            some (.update p target op value))
        rfl (by decide) (fun _ => by simp [body?, simple?, bare?]) ?_ fun n =>
          .cons (target.read ht n).required
          (.cons (Read.tag (by decide) (BinaryOp.mem_tags op) n).required
          (.cons (value.read hv n).required .nil)))
      intro n w A B C h
      simp only [body?, h]
      rfl
  | .branch p test body orelse, h => by
      obtain ⟨ht, hs⟩ := Bool.and_eq_true_iff.mp h
      obtain ⟨hb, ho⟩ := Bool.and_eq_true_iff.mp hs
      refine read_body (.record ["test", "body", "orelse"] (tested (.branch p)) rfl (by decide)
        (fun _ => by simp [body?, simple?, bare?]) ?_
        (read_tested _ ht (readAll body hb) (readAll orelse ho)))
      intro n w A B C h
      simp only [body?, h]
      rfl
  | .loop p test body orelse, h => by
      obtain ⟨ht, hs⟩ := Bool.and_eq_true_iff.mp h
      obtain ⟨hb, ho⟩ := Bool.and_eq_true_iff.mp hs
      refine read_body (.record ["test", "body", "orelse"] (tested (.loop p)) rfl (by decide)
        (fun _ => by simp [body?, simple?, bare?]) ?_
        (read_tested _ ht (readAll body hb) (readAll orelse ho)))
      intro n w A B C h
      simp only [body?, h]
      rfl
  | .ret p value, h => read_body fun n =>
      ((read_result h n).map (Stmt.ret p)).congr fun v => by cases n <;> rfl
  | .eval p value, h => read_body fun n =>
      ((value.read h n).map (Stmt.eval p)).congr fun v => by cases n <;> rfl
  | .imports p names, _ => read_body fun n =>
      ((read_texts names n).map (Stmt.imports p)).congr fun v => by cases n <;> rfl
  | .importsFrom p source names, _ => by
      refine read_body (.record ["module", "names"]
        (fun n =>
          followed (Field.optional text?) fun source =>
          followed (Field.required (textList? n)) fun names _ =>
            some (.importsFrom p source names))
        rfl (by decide) (fun _ => by simp [body?, simple?, bare?]) ?_ fun n =>
          .cons ((read_nullableText source n).optional Option.isNone_iff_eq_none.mp)
          (.cons (read_texts names n).required .nil))
      intro n w A B h
      simp only [body?, h]
      rfl
  | .pass p, _ | .forLoop p, _ | .breakLoop p, _ | .continueLoop p, _ =>
      read_node fun n => .leaf rfl (by cases n <;> rfl)
  | .other p k, _ => read_body fun n => .leaf rfl (by cases n <;> rfl)

theorem readAll : ∀ ss : List Stmt, allFloatFree ss → ∀ n,
    List.Forall₂ (fun c s => c.Read n (ofJson? n) s) (contents float ss) ss
  | [], _, _ => .nil
  | s :: ss, h, n => by
      obtain ⟨hs, hss⟩ := Bool.and_eq_true_iff.mp h
      exact .cons (read s hs n) (readAll ss hss n)

end

end Stmt

namespace Module

variable {float : Binary64 → Json}

theorem read {m : Module} (h : m.isFloatFree) (n : Nat) :
    (m.content float).Read n (ofJson? n) m := by
  obtain ⟨body⟩ := m
  refine .record ["body"]
    (fun n => followed (Field.required (Stmt.block? n)) fun body _ => some ⟨body⟩)
    rfl (by decide) (fun _ => rfl) ?_
    (fun n => .cons (Stmt.read_block (Stmt.readAll body h) n).required .nil) n
  intro n w A h
  simp only [ofJson?, h, Option.map_eq_bind]
  rfl

/-- A module without doubles is read from each of its forms. The full form is refused exactly when
it nests too deep; any other form is read if the full form or the form itself nests no deeper. -/
theorem forms_agree {m : Module} (hm : m.isFloatFree) (float : Binary64 → Json) :
    (m.content float).full = m.toJson float ∧
    (∀ s, (m.toJson float).Spelled s →
      parse? s = if (m.toJson float).depth ≤ nestingLimit then some m else none) ∧
    (∀ v s, (m.content float).HasForm v → v.Spelled s →
      (m.toJson float).depth ≤ nestingLimit ∨ v.depth ≤ nestingLimit → parse? s = some m) ∧
    ∀ v ∈ [(m.content float).full, (m.content float).compact, (m.content float).positional],
      (m.content float).HasForm v ∧ v.Spelled v.render := by
  have hfull := @full_content float m
  have hread := @read float m hm nestingLimit
  have hdecimal := @isDecimal_content float m hm
  have hforms (v : Json) (s : String) (hv : (m.content float).HasForm v) (hs : v.Spelled s)
      (hd : (m.toJson float).depth ≤ nestingLimit ∨ v.depth ≤ nestingLimit) :
      parse? s = some m := by
    obtain ⟨k, hk⟩ := hv
    rw [← hfull] at hd
    rw [parse?, parse?_of_spelled hs, Option.bind_some, hread.of_form (form_of_depth _ hk hd)]
  refine ⟨hfull, fun s hs => ?_, hforms, ?_⟩
  · by_cases hd : (m.toJson float).depth ≤ nestingLimit
    · rw [if_pos hd]
      exact hforms _ s (hfull ▸ hasForm_write lays_full _) hs (.inl hd)
    · rw [if_neg hd, parse?, parse?_of_spelled hs, Option.bind_some, ← hfull]
      rw [← Option.not_isSome_iff_eq_none]
      exact fun h => hd (hfull ▸ hread.depth_le h)
  · intro v hv
    rw [List.mem_cons, List.mem_cons, List.mem_singleton] at hv
    obtain rfl | rfl | rfl := hv
    · refine ⟨hasForm_write lays_full _,
        spelled_render (isDecimal_write (fun fs h => ?_) _ hdecimal)⟩
      rw [isDecimal_record, List.all_map, List.all_eq_true]
      exact h
    · refine ⟨hasForm_write lays_compact _,
        spelled_render (isDecimal_write (fun fs h => ?_) _ hdecimal)⟩
      rw [isDecimal_record, List.all_map, List.all_eq_true]
      exact fun f hf => h f (List.mem_of_mem_filter hf)
    · refine ⟨hasForm_write lays_positional _,
        spelled_render (isDecimal_write (fun fs h => ?_) _ hdecimal)⟩
      rw [isDecimal_arr, List.all_map, List.all_eq_true]
      exact h

def greeting : Module :=
  ⟨[.define ⟨1, 1⟩ "greet" [⟨"name", some "String"⟩, ⟨"loud", none⟩] none
    [.branch ⟨2, 5⟩ (.name .unknown "loud")
      [.eval .unknown
        (.call .unknown (.name .unknown "log") [.str ⟨3, 13⟩ "\t\"Hé!\"", .int ⟨3, 20⟩ (-7)])] []]]⟩

def greetingBody : Content := .list (Stmt.contents (fun _ => .null) greeting.body)

def signedGreeting : Json :=
  .record [("author", .arr [.null, .num ⟨true, 0, [5], some 3⟩]), ("body", greetingBody.compact)]

theorem greeting_forms_agree :
    greeting.isFloatFree ∧ (greeting.toJson fun _ => .null).depth ≤ nestingLimit ∧
      parse? (greeting.toJson fun _ => .null).render = some greeting ∧
      parse? (greeting.content fun _ => .null).compact.render = some greeting ∧
      parse? (greeting.content fun _ => .null).positional.render = some greeting ∧
      parse? signedGreeting.render = some greeting := by
  have hm : greeting.isFloatFree := by decide
  have hd : (greeting.toJson fun _ => .null).depth ≤ nestingLimit := by decide
  obtain ⟨hfull, hexact, hforms, hnamed⟩ := forms_agree hm fun _ => .null
  have hsigned : (greeting.content fun _ => .null).HasForm signedGreeting := by
    have hbody : greetingBody.Form 126 greetingBody.compact := form_write lays_compact _ (by decide)
    have hfields : FieldForms [("body", false, greetingBody)] 126
      [("body", some greetingBody.compact)] :=
      ⟨_, _, rfl, hbody, rfl⟩
    exact ⟨127, _, hfields, @LaysOut.object _ _ [_] (.swap ..) (by simp)⟩
  have hspelled : signedGreeting.Spelled signedGreeting.render := spelled_render (by decide)
  have hc := hnamed _ (List.mem_cons_of_mem _ (List.mem_cons_self ..))
  have hp := hnamed _ (List.mem_cons_of_mem _ (List.mem_cons_of_mem _ (List.mem_cons_self ..)))
  refine ⟨hm, hd, ?_, hforms _ _ hc.1 hc.2 (.inl hd), hforms _ _ hp.1 hp.2 (.inl hd),
    hforms _ _ hsigned hspelled (.inl hd)⟩
  rw [hexact _ (hfull ▸ (hnamed _ (List.mem_cons_self ..)).2), if_pos hd]

end Module

end StackScript
