import StackScript.Script.ModuleJson
import StackScript.Proofs.Json.Content

namespace StackScript

open Json Json.Content

def Pos.content (p : Pos) : Content :=
  .record [("line", false, .leaf (.int p.line.toNat)), ("col", false, .leaf (.int p.col.toNat))]

/-- A node of the tree, which need not tell its place when that is unknown. -/
def nodeContent (p : Pos) (kind : Content) : Content :=
  .record [("pos", decide (p = .unknown), p.content), ("kind", false, kind)]

def textsContent (ss : List String) : Content := .list (ss.map fun s => .leaf (.text s))

namespace Expr

mutual

def kindContent (float : Binary64 → Json) : Expr → Content
  | .int _ n => .tagged "Int" (.leaf (.int n.toInt))
  | .float _ x => .tagged "Float" (.leaf (float x))
  | .str _ s => .tagged "Str" (.leaf (.text s))
  | .bool _ b => .tagged "Bool" (.leaf (.bool b))
  | .null _ => .leaf (.text "NoneLit")
  | .name _ x => .tagged "Name" (.leaf (.text x))
  | .member _ e m =>
      .tagged "Attribute" (.record [("value", false, nodeContent e.pos (kindContent float e)),
        ("attr", false, .leaf (.text m))])
  | .subscript _ e i =>
      .tagged "Subscript" (.record [("value", false, nodeContent e.pos (kindContent float e)),
        ("index", false, nodeContent i.pos (kindContent float i))])
  | .call _ f as =>
      .tagged "Call" (.record [("func", false, nodeContent f.pos (kindContent float f)),
        ("args", false, .list (contents float as))])
  | .unary _ op e =>
      .tagged "UnaryOp" (.record [("op", false, .leaf (tagOf UnaryOp.tags op)),
        ("operand", false, nodeContent e.pos (kindContent float e))])
  | .binary _ l op r =>
      .tagged "BinOp" (.record [("left", false, nodeContent l.pos (kindContent float l)),
        ("op", false, .leaf (tagOf BinaryOp.tags op)),
        ("right", false, nodeContent r.pos (kindContent float r))])
  | .compare _ l ops rs =>
      .tagged "Compare" (.record [("left", false, nodeContent l.pos (kindContent float l)),
        ("ops", false, .list (ops.map fun op => .leaf (tagOf CompareOp.tags op))),
        ("comparators", false, .list (contents float rs))])
  | .logic _ op es =>
      .tagged "BoolOp" (.record [("op", false, .leaf (tagOf LogicOp.tags op)),
        ("values", false, .list (contents float es))])
  | .other _ k => .tagged "Other" (.leaf (.text k))

def contents (float : Binary64 → Json) : List Expr → List Content
  | [] => []
  | e :: es => nodeContent e.pos (kindContent float e) :: contents float es

end

/-- What an expression tells; `float` writes the literals that are doubles. -/
def content (float : Binary64 → Json) (e : Expr) : Content :=
  nodeContent e.pos (kindContent float e)

mutual

def isFloatFree : Expr → Bool
  | .float _ _ => false
  | .member _ e _ | .unary _ _ e => isFloatFree e
  | .subscript _ e e' | .binary _ e _ e' => isFloatFree e && isFloatFree e'
  | .call _ e es | .compare _ e _ es => isFloatFree e && allFloatFree es
  | .logic _ _ es => allFloatFree es
  | _ => true

def allFloatFree : List Expr → Bool
  | [] => true
  | e :: es => isFloatFree e && allFloatFree es

end

end Expr

def Param.content (p : Param) : Content :=
  .record [("name", false, .leaf (.text p.name)),
    ("annotation", p.typeName.isNone, .leaf (nullable .text p.typeName))]

namespace Stmt

mutual

def kindContent (float : Binary64 → Json) : Stmt → Content
  | .define _ name params returns body =>
      .tagged "FunctionDef" (.record [("name", false, .leaf (.text name)),
        ("params", false, .list (params.map Param.content)),
        ("returns", returns.isNone, .leaf (nullable .text returns)),
        ("body", false, .list (contents float body))])
  | .global _ names => .tagged "Global" (textsContent names)
  | .assign _ target value =>
      .tagged "Assign"
        (.record [("target", false, target.content float), ("value", false, value.content float)])
  | .update _ target op value =>
      .tagged "AugAssign" (.record [("target", false, target.content float),
        ("op", false, .leaf (tagOf BinaryOp.tags op)), ("value", false, value.content float)])
  | .branch _ test body orelse =>
      .tagged "If"
        (.record [("test", false, test.content float), ("body", false, .list (contents float body)),
          ("orelse", orelse.isEmpty, .list (contents float orelse))])
  | .loop _ test body orelse =>
      .tagged "While"
        (.record [("test", false, test.content float), ("body", false, .list (contents float body)),
          ("orelse", orelse.isEmpty, .list (contents float orelse))])
  | .ret _ value => .tagged "Return" (value.elim (.leaf .null) (Expr.content float))
  | .eval _ value => .tagged "Expr" (value.content float)
  | .imports _ names => .tagged "Import" (textsContent names)
  | .importsFrom _ source names =>
      .tagged "ImportFrom" (.record [("module", source.isNone, .leaf (nullable .text source)),
        ("names", false, textsContent names)])
  | .pass _ => .leaf (.text "Pass")
  | .forLoop _ => .leaf (.text "For")
  | .breakLoop _ => .leaf (.text "Break")
  | .continueLoop _ => .leaf (.text "Continue")
  | .other _ k => .tagged "Other" (.leaf (.text k))

def contents (float : Binary64 → Json) : List Stmt → List Content
  | [] => []
  | s :: ss => nodeContent s.pos (kindContent float s) :: contents float ss

end

def content (float : Binary64 → Json) (s : Stmt) : Content :=
  nodeContent s.pos (kindContent float s)

mutual

def isFloatFree : Stmt → Bool
  | .define _ _ _ _ body => allFloatFree body
  | .assign _ e e' | .update _ e _ e' => e.isFloatFree && e'.isFloatFree
  | .branch _ e ss ss' | .loop _ e ss ss' => e.isFloatFree && (allFloatFree ss && allFloatFree ss')
  | .ret _ value => value.all Expr.isFloatFree
  | .eval _ e => e.isFloatFree
  | _ => true

def allFloatFree : List Stmt → Bool
  | [] => true
  | s :: ss => isFloatFree s && allFloatFree ss

end

end Stmt

namespace Module

def content (float : Binary64 → Json) (m : Module) : Content :=
  .record [("body", false, .list (Stmt.contents float m.body))]

def isFloatFree (m : Module) : Bool := Stmt.allFloatFree m.body

end Module

section Full

variable {float : Binary64 → Json}

theorem full_leaves {α : Type} (f : α → Json) (as : List α) :
    (Content.list (as.map fun a => .leaf (f a))).full = .arr (as.map f) := by
  rw [full_list, List.map_map]
  rfl

namespace Expr

mutual

theorem full_kindContent : ∀ e : Expr, (kindContent float e).full = kindToJson float e
  | .int _ _ | .float _ _ | .str _ _ | .bool _ _ | .null _ | .name _ _ | .other _ _ => rfl
  | .member _ e _ | .unary _ _ e => by
      rw [kindToJson, ← full_kindContent e]
      rfl
  | .subscript _ e e' | .binary _ e _ e' => by
      rw [kindToJson, ← full_kindContent e, ← full_kindContent e']
      rfl
  | .call _ e es => by
      rw [kindToJson, ← full_kindContent e, ← full_contents es, ← full_list]
      rfl
  | .compare _ e ops es => by
      rw [kindToJson, ← full_kindContent e, ← full_contents es, ← full_list, ← full_leaves]
      rfl
  | .logic _ _ es => by
      rw [kindToJson, ← full_contents es, ← full_list]
      rfl

theorem full_contents : ∀ es : List Expr, (contents float es).map full = listToJson float es
  | [] => rfl
  | e :: es => by
      rw [listToJson, ← full_kindContent e, ← full_contents es]
      rfl

end

theorem full_content (e : Expr) : (e.content float).full = e.toJson float := by
  rw [toJson, ← full_kindContent e]
  rfl

end Expr

namespace Stmt

mutual

theorem full_kindContent : ∀ s : Stmt, (kindContent float s).full = kindToJson float s
  | .define _ _ params _ body => by
      have hp : (params.map Param.content).map full = params.map Param.toJson := by
        rw [List.map_map]
        rfl
      rw [kindToJson, ← full_contents body, ← hp, ← full_list, ← full_list]
      rfl
  | .global _ names | .imports _ names => by
      rw [kindToJson, texts, ← full_leaves]
      rfl
  | .importsFrom _ _ names => by
      rw [kindToJson, texts, ← full_leaves]
      rfl
  | .assign _ e e' | .update _ e _ e' => by
      rw [kindToJson, ← e.full_content, ← e'.full_content]
      rfl
  | .branch _ e ss ss' | .loop _ e ss ss' => by
      rw [kindToJson, ← e.full_content, ← full_contents ss, ← full_contents ss', ← full_list,
        ← full_list]
      rfl
  | .ret _ none => rfl
  | .ret _ (some e) | .eval _ e => by
      rw [kindToJson]
      exact congrArg _ e.full_content
  | .pass _ | .forLoop _ | .breakLoop _ | .continueLoop _ | .other _ _ => rfl

theorem full_contents : ∀ ss : List Stmt, (contents float ss).map full = blockToJson float ss
  | [] => rfl
  | s :: ss => by
      rw [blockToJson, ← full_kindContent s, ← full_contents ss]
      rfl

end

end Stmt

theorem Module.full_content (m : Module) : (m.content float).full = m.toJson float := by
  rw [toJson, ← Stmt.full_contents, ← full_list]
  rfl

end Full

section Decimal

variable {float : Binary64 → Json}

theorem isDecimal_nodeContent (p : Pos) (c : Content) :
    (nodeContent p c).isDecimal = c.isDecimal := by
  have hp : p.content.isDecimal = true := rfl
  simp [nodeContent, Content.isDecimal, fieldsDecimal, hp]

theorem isDecimal_text (s : String) : (Json.text s).isDecimal = true := rfl

theorem isDecimal_tagOf {α : Type} [DecidableEq α] (table : List (String × α)) (a : α) :
    (tagOf table a).isDecimal = true := rfl

theorem isDecimal_nullableText (s : Option String) : (nullable .text s).isDecimal = true := by
  cases s <;> rfl

theorem isDecimal_textsContent (ss : List String) : (textsContent ss).isDecimal := by
  rw [textsContent, Content.isDecimal, allDecimal_iff, List.forall_mem_map]
  exact fun _ _ => rfl

namespace Expr

mutual

theorem isDecimal_kindContent : ∀ e : Expr, e.isFloatFree → (kindContent float e).isDecimal
  | .int _ _, _ | .str _ _, _ | .bool _ _, _ | .null _, _ | .name _ _, _ | .other _ _, _ => rfl
  | .float _ _, h => by cases h
  | .member _ e _, h | .unary _ _ e, h => by
      have he := isDecimal_kindContent e h
      simp only [kindContent, Content.isDecimal, fieldsDecimal, isDecimal_nodeContent, he,
        isDecimal_text, isDecimal_tagOf, Bool.and_self]
  | .subscript _ e e', h | .binary _ e _ e', h => by
      obtain ⟨he, he'⟩ := Bool.and_eq_true_iff.mp h
      simp only [kindContent, Content.isDecimal, fieldsDecimal, isDecimal_nodeContent,
        isDecimal_kindContent e he, isDecimal_kindContent e' he', isDecimal_tagOf, Bool.and_self]
  | .call _ e es, h => by
      obtain ⟨he, hes⟩ := Bool.and_eq_true_iff.mp h
      simp only [kindContent, Content.isDecimal, fieldsDecimal, isDecimal_nodeContent,
        isDecimal_kindContent e he, allDecimal_contents es hes, Bool.and_self]
  | .compare _ e ops es, h => by
      obtain ⟨he, hes⟩ := Bool.and_eq_true_iff.mp h
      have hops : allDecimal (ops.map fun op => .leaf (tagOf CompareOp.tags op)) := by
        rw [allDecimal_iff, List.forall_mem_map]
        exact fun _ _ => rfl
      simp only [kindContent, Content.isDecimal, fieldsDecimal, isDecimal_nodeContent,
        isDecimal_kindContent e he, allDecimal_contents es hes, hops, Bool.and_self]
  | .logic _ _ es, h => by
      simp only [kindContent, Content.isDecimal, fieldsDecimal, allDecimal_contents es h,
        isDecimal_tagOf, Bool.and_self]

theorem allDecimal_contents : ∀ es : List Expr, allFloatFree es → allDecimal (contents float es)
  | [], _ => rfl
  | e :: es, h => by
      obtain ⟨he, hes⟩ := Bool.and_eq_true_iff.mp h
      rw [contents, allDecimal, isDecimal_nodeContent, isDecimal_kindContent e he,
        allDecimal_contents es hes, Bool.and_self]

end

theorem isDecimal_content {e : Expr} (h : e.isFloatFree) : (e.content float).isDecimal := by
  rw [content, isDecimal_nodeContent, isDecimal_kindContent e h]

end Expr

namespace Stmt

mutual

theorem isDecimal_kindContent : ∀ s : Stmt, s.isFloatFree → (kindContent float s).isDecimal
  | .define _ _ params returns body, h => by
      have hp : allDecimal (params.map Param.content) := by
        rw [allDecimal_iff, List.forall_mem_map]
        intro p _
        simp only [Param.content, Content.isDecimal, fieldsDecimal, isDecimal_text,
          isDecimal_nullableText, Bool.and_self]
      simp only [kindContent, Content.isDecimal, fieldsDecimal, isDecimal_text, hp,
        isDecimal_nullableText, allDecimal_contents body h, Bool.and_self]
  | .assign _ e e', h | .update _ e _ e', h => by
      obtain ⟨he, he'⟩ := Bool.and_eq_true_iff.mp h
      simp only [kindContent, Content.isDecimal, fieldsDecimal, Expr.isDecimal_content he,
        Expr.isDecimal_content he', isDecimal_tagOf, Bool.and_self]
  | .branch _ e ss ss', h | .loop _ e ss ss', h => by
      obtain ⟨he, hs⟩ := Bool.and_eq_true_iff.mp h
      obtain ⟨hss, hss'⟩ := Bool.and_eq_true_iff.mp hs
      simp only [kindContent, Content.isDecimal, fieldsDecimal, Expr.isDecimal_content he,
        allDecimal_contents ss hss, allDecimal_contents ss' hss', Bool.and_self]
  | .ret _ none, _ => rfl
  | .ret _ (some e), h | .eval _ e, h => Expr.isDecimal_content h
  | .global _ names, _ | .imports _ names, _ => isDecimal_textsContent names
  | .importsFrom _ source names, _ => by
      simp only [kindContent, Content.isDecimal, fieldsDecimal, isDecimal_nullableText,
        isDecimal_textsContent, Bool.and_self]
  | .pass _, _ | .forLoop _, _ | .breakLoop _, _ | .continueLoop _, _ | .other _ _, _ => rfl

theorem allDecimal_contents : ∀ ss : List Stmt, allFloatFree ss → allDecimal (contents float ss)
  | [], _ => rfl
  | s :: ss, h => by
      obtain ⟨hs, hss⟩ := Bool.and_eq_true_iff.mp h
      rw [contents, allDecimal, isDecimal_nodeContent, isDecimal_kindContent s hs,
        allDecimal_contents ss hss, Bool.and_self]

end

end Stmt

theorem Module.isDecimal_content {m : Module} (h : m.isFloatFree) :
    (m.content float).isDecimal := by
  simp only [content, Content.isDecimal, fieldsDecimal, Stmt.allDecimal_contents m.body h,
    Bool.and_self]

end Decimal

end StackScript
