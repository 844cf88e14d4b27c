import StackScript.Code.Resolve
import StackScript.Lowering.Stmt

namespace StackScript

namespace Lower

variable (c : Catalog)

def declareReserved : Lower Unit := do
  declare Names.returnAddress .uint32 (.addr haltAddress)
  for (name, ty) in
      [("this_trans", "UnityEngineTransform"), ("this_gameObj", "UnityEngineGameObject")] do
    if c.isType ty then declare name (.named ty) (.literal "this")

def annotationType (typeName : Option String) : Except Diagnostic Ty :=
  match Ty.ofTypeName typeName with
  | .void => .ok .void
  | .named name => if c.isType name then .ok (.named name) else .error (.unknownType name)

def paramType (p : Param) : Except Diagnostic Ty :=
  match p.typeName with
  | none => .error (.untypedParam p.name)
  | some typeName => do
    let ty ← annotationType c (some typeName)
    if ty.isVoid then .error (.voidParam p.name) else .ok ty

def signature (params : List Param) (returns : Option String) :
    Except Diagnostic (List Ty × Ty) := do
  let types ← params.mapM (paramType c)
  let ret ← annotationType c returns
  return (types, ret)

def declareAll : List (String × Ty) → Lower Unit
  | [] => return
  | (name, ty) :: rest => do
    declare name ty .null
    declareAll rest

def declareSlots (event : String) : List (Slot × Ty) → Lower Unit
  | [] => return
  | (slot, ty) :: rest => do
    if slot.ty ≠ ty.name then reject (.eventArgument event slot ty)
    if !(← contains slot.name) then declare slot.name ty .null
    declareSlots event rest

def declareEvent (name : String) (params : List Param) (returns : Option String) : Lower Unit := do
  let (types, ret) ← accept (signature c params returns)
  if !ret.isVoid then reject (.eventReturns name ret)
  match c.event? name with
  | some slots =>
    if slots.length ≠ types.length then reject (.eventArity name slots.length types.length)
    declareSlots name (slots.zip types)
  | none => if !types.isEmpty then reject (.customEventArguments name)
  declareAll ((params.map fun p => Names.qualify name p.name).zip types)
  addEvent name
  note (.event name types)

def declareFunction (functions : Functions) (name : String) (params : List Param)
    (returns : Option String) : Lower Functions := do
  let (types, ret) ← accept (signature c params returns)
  let id := Names.functionId name types
  let locals := params.map fun p => Names.qualify id p.name
  let functions ← accept (functions.add ⟨name, types, ret, locals⟩)
  declareAll (locals.zip types)
  note (.function id ret)
  return functions

/-- Events and functions of a script, before any code: a call may stand before the function. -/
def declareDefinitions (functions : Functions) : List Stmt → Lower Functions
  | [] => return functions
  | .define p name params returns _ :: rest => do
    let functions ← located p do
      if Names.isEvent name then
        if (← get).emitter.events.contains name then reject (.eventTwice name)
        declareEvent c name params returns
        return functions
      else declareFunction c functions name params returns
    declareDefinitions functions rest
  | _ :: rest => declareDefinitions functions rest

def receiveSlots (event : String) (params : List Param) : List Instr :=
  (((c.event? event).getD []).zip params).flatMap fun (slot, p) =>
    Block.assign (Names.qualify event p.name) slot.name

def event (functions : Functions) (name : String) (params : List Param) (body : List Stmt) :
    Lower Unit := do
  emit [.eventHead name]
  emit (.pushAddr haltAddress :: Block.popInto Names.returnAddress)
  emit (receiveSlots c name params)
  block ⟨c, functions, .event name⟩ body
  emit Block.halt

def function (functions : Functions) (name : String) (params : List Param) (returns : Option String)
    (body : List Stmt) : Lower Unit := do
  let (types, ret) ← accept (signature c params returns)
  let id := Names.functionId name types
  match functions.find? name types with
  | none => reject (.unknownFunction id)
  | some f =>
    bindLabel (← namedLabel id)
    emit (Block.popIntoAll f.params)
    block ⟨c, functions, .function id ret f.params⟩ body
    emit (Block.ret Names.returnAddress none)

def topLevel (functions : Functions) (s : Stmt) : Lower Unit :=
  match s with
  | .define _ name params returns body =>
    if Names.isEvent name then event c functions name params body
    else function c functions name params returns body
  | .assign _ target e => do
    if ← dataInit target e then return else stmt ⟨c, functions, .module⟩ s
  | s => stmt ⟨c, functions, .module⟩ s

def topLevelAll (functions : Functions) : List Stmt → Lower Unit
  | [] => return
  | s :: ss => do
    located s.pos (topLevel c functions s)
    topLevelAll functions ss

def finish : Lower Program := do
  let s ← get
  let (exports, vars) ← accept (s.vars.dataSegment c)
  let p := s.emitter.toProgram exports vars
  note (.finished p.vars.length p.events.length p.code.length)
  match p.link with
  | .error f => throw f
  | .ok linked =>
    note (.linked p.references linked.codeSize)
    return linked

def module (m : Module) : Lower Program := do
  declareReserved c
  note (.declarations m.body.length)
  let functions ← declareDefinitions c [] m.body
  note .generation
  topLevelAll c functions m.body
  finish c

end Lower

def Module.compileNoted (c : Catalog) (m : Module) : Except Fault Program × List Entry :=
  match Lower.module c m .empty with
  | .ok p s => (.ok p, s.journal.reverse)
  | .error f s => (.error f, s.journal.reverse)

def Module.compile (c : Catalog) (m : Module) : Except Fault Program := (m.compileNoted c).1

end StackScript
