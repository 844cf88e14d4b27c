import StackScript.Proofs.Lowering.Declarations
import StackScript.Proofs.TwoRuns.Basic

namespace StackScript

mutual

/-- The expression without its places. -/
def Expr.unplaced : Expr → Expr
  | .int _ n => .int .unknown n
  | .float _ x => .float .unknown x
  | .str _ s => .str .unknown s
  | .bool _ b => .bool .unknown b
  | .null _ => .null .unknown
  | .name _ ident => .name .unknown ident
  | .member _ owner field => .member .unknown owner.unplaced field
  | .subscript _ container index => .subscript .unknown container.unplaced index.unplaced
  | .call _ callee args => .call .unknown callee.unplaced (unplacedAll args)
  | .unary _ op operand => .unary .unknown op operand.unplaced
  | .binary _ left op right => .binary .unknown left.unplaced op right.unplaced
  | .compare _ left ops rights => .compare .unknown left.unplaced ops (unplacedAll rights)
  | .logic _ op operands => .logic .unknown op (unplacedAll operands)
  | .other _ kind => .other .unknown kind

def Expr.unplacedAll : List Expr → List Expr
  | [] => []
  | e :: es => e.unplaced :: unplacedAll es

end

mutual

def Stmt.unplaced : Stmt → Stmt
  | .define _ name params returns body => .define .unknown name params returns (unplacedAll body)
  | .global _ names => .global .unknown names
  | .assign _ target e => .assign .unknown target.unplaced e.unplaced
  | .update _ target op e => .update .unknown target.unplaced op e.unplaced
  | .branch _ test body orelse =>
      .branch .unknown test.unplaced (unplacedAll body) (unplacedAll orelse)
  | .loop _ test body orelse => .loop .unknown test.unplaced (unplacedAll body) (unplacedAll orelse)
  | .ret _ e => .ret .unknown (e.map Expr.unplaced)
  | .eval _ e => .eval .unknown e.unplaced
  | .imports _ names => .imports .unknown names
  | .importsFrom _ source names => .importsFrom .unknown source names
  | .pass _ => .pass .unknown
  | .forLoop _ => .forLoop .unknown
  | .breakLoop _ => .breakLoop .unknown
  | .continueLoop _ => .continueLoop .unknown
  | .other _ kind => .other .unknown kind

def Stmt.unplacedAll : List Stmt → List Stmt
  | [] => []
  | s :: ss => s.unplaced :: unplacedAll ss

end

def Module.unplaced (m : Module) : Module := ⟨Stmt.unplacedAll m.body⟩

@[simp] theorem Expr.pos_unplaced (e : Expr) : e.unplaced.pos = .unknown := by cases e <;> rfl

@[simp] theorem Expr.describe_unplaced (e : Expr) : e.unplaced.describe = e.describe := by
  cases e <;> rfl

@[simp] theorem Expr.length_unplacedAll (es : List Expr) : (unplacedAll es).length = es.length := by
  induction es with
  | nil => rfl
  | cons e es ih => rw [unplacedAll, List.length_cons, ih, List.length_cons]

def Catalog.withMembers (c : Catalog) (members : List Member) : Catalog :=
  { c with members := members }

def Context.withMembers (cx : Context) (members : List Member) : Context :=
  { cx with catalog := cx.catalog.withMembers members }

/-- The second lookup finds what the first one finds. With `both` it finds nothing else. -/
def Serves (both : Prop) (found found' : Option Method) : Prop :=
  found' = found ∨ found = none ∧ ¬ both

/-- Other members serve all that the catalog serves. -/
structure Catalog.Supplies (both : Prop) (c : Catalog) (members : List Member) : Prop where
  method : ∀ kind owner name args, Serves both (c.method? kind owner name args)
    ((c.withMembers members).method? kind owner name args)
  static : ∀ owner name args,
    Serves both ((c.method? .static owner name args).or (c.method? .ctor owner name args))
      (((c.withMembers members).method? .static owner name args).or
        ((c.withMembers members).method? .ctor owner name args))

theorem Catalog.supplies_members (c : Catalog) : c.Supplies True c.members :=
  ⟨fun _ _ _ _ => .inl rfl, fun _ _ _ => .inl rfl⟩

namespace Lower.Mirrors

variable {α : Type} {both : Prop} {cx : Context} {members : List Member}

section

variable (hs : cx.catalog.Supplies both members)
include hs

theorem operator (member left : String) (rest : List String) :
    Mirrors both (operator cx member left rest)
    (operator (cx.withMembers members) member left rest) := by
  refine (typeOf left).bind fun ty => (typesOf rest).bind fun types => ?_
  obtain h | ⟨h, hb⟩ := hs.method .static ty.name member (ty :: types)
  · simp only [Context.withMembers, h]
    split
    · exact hostCall ..
    · exact reject rfl
  · -- the first run fails here, and then the second one is free
    simp only [h]
    exact reject_free hb _ _

theorem methodCall (receiver member : String) (args : List String) :
    Mirrors both (methodCall cx receiver member args)
    (methodCall (cx.withMembers members) receiver member args) := by
  refine (typeOf receiver).bind fun owner => (typesOf args).bind fun types => ?_
  obtain h | ⟨h, hb⟩ := hs.method .method owner.name member types
  · simp only [Context.withMembers, h]
    split
    · exact hostCall ..
    · exact reject rfl
  · simp only [h]
    exact reject_free hb _ _

theorem staticCall (owner member : String) (args : List String) :
    Mirrors both (staticCall cx owner member args)
    (staticCall (cx.withMembers members) owner member args) := by
  refine (typesOf args).bind fun types => ?_
  obtain h | ⟨h, hb⟩ := hs.static owner member types
  · simp only [staticMember?, Context.withMembers, h]
    split
    · exact hostCall ..
    · exact reject rfl
  · simp only [staticMember?, h]
    exact reject_free hb _ _

theorem boolean (b : Bool) : Mirrors both (boolean cx b) (boolean (cx.withMembers members) b) := by
  rw [Lower.boolean, Lower.boolean]
  obtain h | ⟨h, hb⟩ := hs.method .static "SystemBoolean" "Parse" [.string]
  · simp only [Context.withMembers, h]
    split
    · exact (generate ..).bind fun _ => (generate ..).bind fun _ => (emit _).bind fun _ => pure _
    · exact reject rfl
  · simp only [h]
    exact reject_free hb _ _

theorem plainCall (name : String) (args : List String) (discard : Bool) :
    Mirrors both (plainCall cx name args discard)
    (plainCall (cx.withMembers members) name args discard) := by
  rw [Lower.plainCall, Lower.plainCall]
  split
  · split
    · exact staticCall hs ..
    · exact reject rfl
  · change Mirrors both _ (if cx.catalog.isType name then _ else _)
    split
    · exact cast ..
    · exact userCall ..

end

theorem literal (e : Expr) : Mirrors both (literal cx e)
    (literal (cx.withMembers members) e.unplaced) := by
  cases e with
  | int p n =>
      rw [Lower.literal, Lower.literal, Expr.unplaced, Expr.literal?, Expr.literal?]
      split
      · exact (generate ..).bind fun _ => pure _
      · exact reject_bind (by simp) _ _
  | float | str | null => exact (generate ..).bind fun _ => pure _
  | _ => exact reject rfl

theorem staticOwner? (e : Expr) :
    Mirrors both (staticOwner? cx e) (staticOwner? (cx.withMembers members) e.unplaced) := by
  cases e with
  | name p ident =>
      refine (resolve ident).bind fun x => (contains x).bind fun known => ?_
      split <;> exact pure _
  | _ => exact pure _

theorem operandOf (e : Expr) {x y : Lower Operand} (h : Mirrors both x y) :
    Mirrors both (operandOf e x) (operandOf e.unplaced y) := (note ..).bind fun _ => located _ _ h

theorem valueOf (e : Expr) {x y : Lower Operand} (h : Mirrors both x y) :
    Mirrors both (valueOf e x) (valueOf e.unplaced y) := by
  refine (operandOf e h).bind fun o => ?_
  cases o with
  | var name => exact pure name
  | nothing => exact located _ _ (reject (by simp [Diagnostic.noValue]))
  | type ty => exact located _ _ (reject rfl)

mutual

theorem lowerExpr (hs : cx.catalog.Supplies both members) (discard : Bool) : ∀ e : Expr,
    Mirrors both (lowerExpr cx discard e) (lowerExpr (cx.withMembers members) discard e.unplaced)
  | .int .. | .float .. | .str .. | .null _ => by
      rw [Expr.unplaced, Lower.lowerExpr, Lower.lowerExpr]
      exact literal _
  | .bool p b => by
      rw [Expr.unplaced, Lower.lowerExpr, Lower.lowerExpr]
      exact boolean hs b
  | .name p ident => by
      rw [Expr.unplaced, Lower.lowerExpr, Lower.lowerExpr]
      exact nameOperand ident
  | .call p callee args => by
      rw [Expr.unplaced]
      cases callee with
      | member q owner name =>
          rw [Expr.unplaced, Lower.lowerExpr, Lower.lowerExpr]
          refine (lowerValues hs args).bind fun xs => (staticOwner? owner).bind fun found => ?_
          cases found with
          | some ident => exact staticCall hs ..
          | none => exact (valueOf owner (lowerExpr hs false owner)).bind fun x => methodCall hs ..
      | name q ident =>
          rw [Expr.unplaced, Lower.lowerExpr, Lower.lowerExpr]
          exact (lowerValues hs args).bind fun xs => plainCall hs ..
      | _ =>
          simp only [Expr.unplaced, Lower.lowerExpr]
          exact (lowerValues hs args).bind fun xs => reject rfl
  | .subscript p container index => by
      rw [Expr.unplaced, Lower.lowerExpr, Lower.lowerExpr]
      exact (valueOf container (lowerExpr hs false container)).bind fun x =>
        (valueOf index (lowerExpr hs false index)).bind fun i => methodCall hs ..
  | .unary p op operand => by
      rw [Expr.unplaced, Lower.lowerExpr, Lower.lowerExpr]
      split
      · exact reject rfl
      · exact (valueOf operand (lowerExpr hs false operand)).bind fun x => operator hs ..
  | .binary p left op right => by
      rw [Expr.unplaced, Lower.lowerExpr, Lower.lowerExpr]
      split
      · exact reject rfl
      · exact (valueOf left (lowerExpr hs false left)).bind fun x =>
          (valueOf right (lowerExpr hs false right)).bind fun y => operator hs ..
  | .compare p left [op] [right] => by
      rw [Expr.unplaced, Expr.unplacedAll, Expr.unplacedAll, Lower.lowerExpr, Lower.lowerExpr]
      split
      · exact reject rfl
      · exact (valueOf left (lowerExpr hs false left)).bind fun x =>
          (valueOf right (lowerExpr hs false right)).bind fun y => operator hs ..
  | .logic p op [left, right] => by
      simp only [Expr.unplaced, Expr.unplacedAll, Lower.lowerExpr]
      exact (valueOf left (lowerExpr hs false left)).bind fun x =>
        (valueOf right (lowerExpr hs false right)).bind fun y => operator hs ..
  | .compare p left [] _ | .compare p left (_ :: _ :: _) _ | .compare p left [_] []
  | .compare p left [_] (_ :: _ :: _) | .logic p op [] | .logic p op [_] | .member p owner name
  | .other p kind => by
      simp only [Expr.unplaced, Expr.unplacedAll, Lower.lowerExpr]
      exact reject rfl
  | .logic p op (_ :: _ :: _ :: _) => by
      simp only [Expr.unplaced, Expr.unplacedAll, Lower.lowerExpr]
      exact reject (by simp)

theorem lowerValues (hs : cx.catalog.Supplies both members) : ∀ es : List Expr,
    Mirrors both (lowerValues cx es) (lowerValues (cx.withMembers members) (Expr.unplacedAll es))
  | [] => by
      rw [Expr.unplacedAll, Lower.lowerValues, Lower.lowerValues]
      exact pure _
  | e :: es => by
      rw [Expr.unplacedAll, Lower.lowerValues, Lower.lowerValues]
      exact (valueOf e (lowerExpr hs false e)).bind fun x =>
        (lowerValues hs es).bind fun xs => pure _

end

section

variable (hs : cx.catalog.Supplies both members)
include hs

theorem expr (e : Expr) : Mirrors both (expr cx e) (expr (cx.withMembers members) e.unplaced) :=
  operandOf e (lowerExpr hs false e)

theorem value (e : Expr) : Mirrors both (value cx e) (value (cx.withMembers members) e.unplaced) :=
  valueOf e (lowerExpr hs false e)

theorem assignName (name : String) (e : Expr) :
    Mirrors both (assignName cx name e) (assignName (cx.withMembers members) name e.unplaced) := by
  refine (expr hs e).bind fun src => (resolve name).bind fun dst => ?_
  cases src with
  | nothing =>
      refine (contains dst).bind fun known => ?_
      split
      · exact reject rfl
      · exact declare ..
  | type ty => exact declare ..
  | var src =>
      refine (typeOf src).bind fun ty => get_bind fun vars emitter j j' => ?_
      dsimp only
      split
      · exact (declare ..).bind fun _ => emit _
      · exact emit _
      · exact (typeOf dst).bind fun _ => reject_bind rfl _ _

theorem assign (target e : Expr) :
    Mirrors both (assign cx target e)
    (assign (cx.withMembers members) target.unplaced e.unplaced) := by
  cases target with
  | name p name => exact assignName hs name e
  | subscript p container index =>
      exact (value hs container).bind fun x => (value hs index).bind fun i =>
        (value hs e).bind fun y =>
        (located _ _ (methodCall hs ..)).bind fun _ => pure _
  | _ => exact located _ _ (reject rfl)

theorem condition (test : Expr) :
    Mirrors both (condition cx test) (condition (cx.withMembers members) test.unplaced) := by
  refine (value hs test).bind fun x => (typeOf x).bind fun ty => ?_
  split
  · exact pure _
  · exact located _ _ (reject rfl)

theorem returnValue (ret : Ty) (e : Expr) :
    Mirrors both (returnValue cx ret e) (returnValue (cx.withMembers members) ret e.unplaced) := by
  refine (emit _).bind fun _ => (value hs e).bind fun x => (typeOf x).bind fun ty => ?_
  split
  · exact emit _
  · exact located _ _ (reject rfl)

theorem lowerReturn (e : Option Expr) :
    Mirrors both (lowerReturn cx e) (lowerReturn (cx.withMembers members) (e.map Expr.unplaced)) :=
    by
  have hscope : (cx.withMembers members).scope = cx.scope := rfl
  cases hp : cx.scope.place with
  | module =>
      simp only [Lower.lowerReturn, hscope, hp]
      exact reject rfl
  | event =>
      cases e with
      | none =>
          simp only [Option.map_none, Lower.lowerReturn, hscope, hp]
          exact emit _
      | some e =>
          simp only [Option.map_some, Lower.lowerReturn, hscope, hp]
          exact reject rfl
  | function ret =>
      cases e with
      | none =>
          simp only [Option.map_none, Lower.lowerReturn, hscope, hp]
          split
          · exact emit _
          · exact reject rfl
      | some e =>
          simp only [Option.map_some, Lower.lowerReturn, hscope, hp]
          split
          · exact reject rfl
          · exact returnValue hs ret e

theorem effects (e : Expr) : Mirrors both (effects cx e)
    (effects (cx.withMembers members) e.unplaced) := by
  cases e with
  | call p callee args =>
      have h := lowerExpr hs true (.call p callee args)
      rw [Expr.unplaced] at h ⊢
      exact (located _ _ h).bind fun _ => pure _
  | _ => exact (expr hs _).bind fun _ => pure _

end

mutual

theorem lowerStmt (hs : cx.catalog.Supplies both members) : ∀ st : Stmt,
    Mirrors both (lowerStmt cx st) (lowerStmt (cx.withMembers members) st.unplaced)
  | .assign p target e => by
      rw [Stmt.unplaced, Lower.lowerStmt, Lower.lowerStmt]
      exact assign hs target e
  | .update p target op e => by
      rw [Stmt.unplaced, Lower.lowerStmt, Lower.lowerStmt, Expr.pos_unplaced]
      exact assign hs target (.binary target.pos target op e)
  | .branch p test body orelse => by
      rw [Stmt.unplaced, Lower.lowerStmt, Lower.lowerStmt]
      exact (freshLabel _).bind fun _ => (freshLabel _).bind fun _ =>
        (condition hs test).bind fun _ =>
        (emit _).bind fun _ => (block hs body).bind fun _ => (emit _).bind fun _ =>
          (bindLabel _).bind fun _ =>
          (block hs orelse).bind fun _ => bindLabel _
  | .loop p test body [] => by
      rw [Stmt.unplaced, Stmt.unplacedAll, Lower.lowerStmt, Lower.lowerStmt]
      exact (freshLabel _).bind fun _ => (freshLabel _).bind fun _ => (bindLabel _).bind fun _ =>
        (condition hs test).bind fun _ => (emit _).bind fun _ => (block hs body).bind fun _ =>
          (emit _).bind fun _ => bindLabel _
  | .loop p test body (_ :: _) => by
      rw [Stmt.unplaced, Stmt.unplacedAll, Lower.lowerStmt, Lower.lowerStmt]
      exact reject rfl
  | .ret p e => by
      rw [Stmt.unplaced, Lower.lowerStmt, Lower.lowerStmt]
      exact lowerReturn hs e
  | .eval p e => by
      rw [Stmt.unplaced, Lower.lowerStmt, Lower.lowerStmt]
      exact effects hs e
  | .global p names => by
      rw [Stmt.unplaced, Lower.lowerStmt, Lower.lowerStmt]
      exact of_alike fun _ _ _ _ => .ok (.mk ..)
  | .imports .. | .importsFrom .. | .pass _ => by
      rw [Stmt.unplaced, Lower.lowerStmt, Lower.lowerStmt]
      exact pure _
  | .define .. | .forLoop _ | .breakLoop _ | .continueLoop _ | .other .. => by
      rw [Stmt.unplaced, Lower.lowerStmt, Lower.lowerStmt]
      exact reject rfl

theorem block (hs : cx.catalog.Supplies both members) : ∀ ss : List Stmt,
    Mirrors both (block cx ss) (block (cx.withMembers members) (Stmt.unplacedAll ss))
  | [] => by
      rw [Stmt.unplacedAll, Lower.block, Lower.block]
      exact pure _
  | st :: ss => by
      rw [Stmt.unplacedAll, Lower.block, Lower.block]
      exact (located _ _ ((note ..).bind fun _ => lowerStmt hs st)).bind fun _ => block hs ss

end

theorem stmt (hs : cx.catalog.Supplies both members) (st : Stmt) :
    Mirrors both (stmt cx st) (stmt (cx.withMembers members) st.unplaced) :=
  (note ..).bind fun _ => lowerStmt hs st

theorem dataInit (target e : Expr) :
    Mirrors both (dataInit target e) (dataInit target.unplaced e.unplaced) := by
  cases target with
  | name p name =>
      refine (contains name).bind fun known => ?_
      split
      · exact pure _
      · cases e with
        | int p n =>
            rw [Expr.unplaced, Expr.literal?, Expr.literal?]
            split
            · exact (declare ..).bind fun _ => pure _
            · exact reject_bind (by simp) _ _
        | float | str | null => exact (declare ..).bind fun _ => pure _
        | _ => exact pure _
  | _ => exact pure _

theorem declareReserved (c : Catalog) : Mirrors both (declareReserved c) (declareReserved c) := by
  refine (declare ..).bind fun _ => (forIn (fun entry _ => ?_) _ _).bind fun _ => pure _
  dsimp only
  split
  · exact (declare ..).bind fun _ => pure _
  · exact pure _

theorem declareAll (vars : List (String × Ty)) :
    Mirrors both (declareAll vars) (declareAll vars) := by
  induction vars with
  | nil => exact pure _
  | cons v vars ih => exact (declare ..).bind fun _ => ih

theorem declareSlots (name : String) (slots : List (Slot × Ty)) :
    Mirrors both (declareSlots name slots) (declareSlots name slots) := by
  induction slots with
  | nil => exact pure _
  | cons slot slots ih =>
      rw [Lower.declareSlots]
      split
      · exact reject_bind rfl _ _
      · refine (contains _).bind fun known => ?_
        split
        · exact (declare ..).bind fun _ => ih
        · exact ih

theorem declareEvent (c : Catalog) (name : String) (params : List Param) (returns : Option String) :
    Mirrors both (declareEvent c name params returns) (declareEvent c name params returns) := by
  have hend (types : List Ty) : Mirrors both _ _ :=
    (declareAll ((params.map fun p => Names.qualify name p.name).zip types)).bind fun _ =>
      (addEvent name).bind fun _ => note (.event name types) (.event name types)
  refine (accept _).bind fun (types, ret) => ?_
  dsimp only
  split
  · exact reject_bind rfl _ _
  · split
    · split
      · exact reject_bind rfl _ _
      · exact (declareSlots ..).bind fun _ => hend types
    · split
      · exact reject_bind rfl _ _
      · exact hend types

theorem declareFunction (c : Catalog) (fs : Functions) (name : String) (params : List Param)
    (returns : Option String) :
    Mirrors both (declareFunction c fs name params returns)
    (declareFunction c fs name params returns) :=
  (accept _).bind fun _ => (accept _).bind fun _ => (declareAll _).bind fun _ =>
    (note ..).bind fun _ => pure _

theorem declareDefinitions (c : Catalog) (fs : Functions) (ss : List Stmt) :
    Mirrors both (declareDefinitions c fs ss)
      (declareDefinitions (c.withMembers members) fs (Stmt.unplacedAll ss)) := by
  induction ss generalizing fs with
  | nil => exact pure _
  | cons st ss ih =>
      rw [Stmt.unplacedAll]
      cases st with
      | define p name params returns body =>
          rw [Stmt.unplaced, Lower.declareDefinitions, Lower.declareDefinitions]
          refine (located _ _ ?_).bind fun gs => ih gs
          split
          · refine get_bind fun vars emitter j j' => ?_
            dsimp only
            split
            · exact reject_bind rfl _ _
            · exact (declareEvent c name params returns).bind fun _ => pure _
          · exact declareFunction c fs name params returns
      | _ => exact ih fs

section

variable {c : Catalog} (hs : c.Supplies both members)
include hs

theorem event (fs : Functions) (name : String) (params : List Param) (body : List Stmt) :
    Mirrors both (event c fs name params body)
      (event (c.withMembers members) fs name params (Stmt.unplacedAll body)) := by
  have hbody : Mirrors both (Lower.block ⟨c, fs, .event name⟩ body) _ := block hs body
  exact (emit _).bind fun _ => (emit _).bind fun _ => (emit _).bind fun _ =>
    hbody.bind fun _ => emit _

theorem function (fs : Functions) (name : String) (params : List Param) (returns : Option String)
    (body : List Stmt) :
    Mirrors both (function c fs name params returns body)
      (function (c.withMembers members) fs name params returns (Stmt.unplacedAll body)) := by
  refine (accept (signature c params returns)).bind fun (types, ret) => ?_
  dsimp only
  split
  · exact reject rfl
  · next f _ =>
    have hbody : Mirrors both
      (Lower.block ⟨c, fs, .function (Names.functionId name types) ret f.params⟩ body) _ :=
      block hs body
    exact (namedLabel _).bind fun _ => (bindLabel _).bind fun _ => (emit _).bind fun _ =>
      hbody.bind fun _ => emit _

theorem topLevel (fs : Functions) (st : Stmt) :
    Mirrors both (topLevel c fs st) (topLevel (c.withMembers members) fs st.unplaced) := by
  have hstmt : Mirrors both (Lower.stmt ⟨c, fs, .module⟩ st) _ := stmt hs st
  cases st with
  | define p name params returns body =>
      rw [Stmt.unplaced, Lower.topLevel, Lower.topLevel]
      split
      · exact event hs fs name params body
      · exact function hs fs name params returns body
  | assign p target e =>
      refine (dataInit target e).bind fun done => ?_
      split
      · exact pure _
      · exact hstmt
  | _ => exact hstmt

theorem topLevelAll (fs : Functions) (ss : List Stmt) :
    Mirrors both (topLevelAll c fs ss)
    (topLevelAll (c.withMembers members) fs (Stmt.unplacedAll ss)) := by
  induction ss with
  | nil => exact pure _
  | cons st ss ih => exact (located _ _ (topLevel hs fs st)).bind fun _ => ih

end

theorem finish (c : Catalog) : Mirrors both (finish c) (finish (c.withMembers members)) := by
  refine get_bind fun vars emitter j j' => (accept (vars.dataSegment c)).bind fun (exports, vars) =>
    (note ..).bind fun _ => ?_
  dsimp only
  cases (emitter.toProgram exports vars).link with
  | error f => exact ⟨fun _ => .error rfl⟩
  | ok p => exact (note ..).bind fun _ => pure _

theorem module {c : Catalog} (hs : c.Supplies both members) (m : Module) :
    Mirrors both (module c m) (module (c.withMembers members) m.unplaced) :=
  (declareReserved c).bind fun _ => (note ..).bind fun _ =>
    (declareDefinitions c [] m.body).bind fun fs =>
    (note ..).bind fun _ => (topLevelAll hs fs m.body).bind fun _ => finish c

end Lower.Mirrors

namespace Module

variable {both : Prop} {c : Catalog} {members : List Member} {m : Module}

theorem matches_unplaced (hs : c.Supplies both members) (m : Module) :
    Lower.Matches both (Lower.module c m .empty)
    (Lower.module (c.withMembers members) m.unplaced .empty) :=
  (Lower.Mirrors.module hs m).run (.mk ..)

theorem compile_unplaced_of_ok {p : Program} (hs : c.Supplies both members)
    (h : m.compile c = .ok p) :
    m.unplaced.compile (c.withMembers members) = .ok p := by
  have hm := matches_unplaced hs m
  rw [compile, compileNoted] at h ⊢
  generalize Lower.module c m .empty = r, Lower.module (c.withMembers members) m.unplaced .empty =
    r' at hm h ⊢
  cases hm with
  | ok => exact h
  | error => cases h
  | free => cases h

theorem compile_unplaced_of_error {f : Fault} (h : m.compile c = .error f) :
    ∃ f', m.unplaced.compile c = .error f' ∧ f.cause = f'.cause := by
  have hm := matches_unplaced c.supplies_members m
  rw [compile, compileNoted] at h ⊢
  change Lower.Matches True _ (Lower.module c m.unplaced .empty) at hm
  generalize Lower.module c m .empty = r, Lower.module c m.unplaced .empty = r' at hm h ⊢
  cases hm with
  | ok => cases h
  | error hf =>
      cases h
      exact ⟨_, rfl, hf⟩
  | free hb => exact absurd trivial hb

theorem compile_unplaced_eq_ok {p : Program} :
    m.unplaced.compile c = .ok p ↔ m.compile c = .ok p := by
  refine ⟨fun h => ?_, fun h => ?_⟩
  · cases hm : m.compile c with
    | ok q =>
        exact (compile_unplaced_of_ok c.supplies_members hm).symm.trans h
    | error f =>
        obtain ⟨f', hf', _⟩ := compile_unplaced_of_error hm
        rw [hf'] at h
        cases h
  · exact compile_unplaced_of_ok c.supplies_members h

end Module
end StackScript
