import StackScript.Ty

namespace StackScript

inductive MemberKind where
  | static
  | ctor
  | method
  deriving DecidableEq

def MemberKind.text : MemberKind → String
  | .static => "static function"
  | .ctor => "constructor"
  | .method => "instance function"

/-- A host member. Neither a missing result nor one called `SystemVoid` is a value. -/
structure Member where
  kind : MemberKind
  owner : String
  name : String
  args : List String
  ret : Option String
  symbol : String
  deriving DecidableEq

structure Slot where
  ty : String
  name : String
  deriving DecidableEq

structure Overlay where
  types : List (String × String)
  members : List Member
  events : List (String × List Slot)
  deriving DecidableEq

/-- What the host offers, the latest entries first. A type has a name in scripts and one in the
machine. -/
structure Catalog where
  types : List (String × String)
  members : List Member
  events : List (String × List Slot)

structure Method where
  ret : Ty
  symbol : String
  deriving DecidableEq

def Ty.ofTypeName : Option String → Ty
  | none => .void
  | some name => if name = voidName then .void else .named name

namespace Member

def answers (m : Member) (kind : MemberKind) (owner name : String) (args : List Ty) : Bool :=
  m.kind = kind && m.owner = owner && m.name = name && m.args.map Ty.named = args

def toMethod (m : Member) : Method := ⟨Ty.ofTypeName m.ret, m.symbol⟩

end Member

namespace Catalog

def empty : Catalog := ⟨[], [], []⟩

/-- Lays an overlay over a catalog: its entries hide earlier ones with the same key. -/
def merge (c : Catalog) (o : Overlay) : Catalog :=
  ⟨o.types.reverse ++ c.types, o.members.reverse ++ c.members, o.events.reverse ++ c.events⟩

def machineType? (c : Catalog) (name : String) : Option String := c.types.lookup name

def isType (c : Catalog) (name : String) : Bool := (c.machineType? name).isSome

def method? (c : Catalog) (kind : MemberKind) (owner name : String) (args : List Ty) :
    Option Method :=
  (c.members.find? (·.answers kind owner name args)).map Member.toMethod

def event? (c : Catalog) (name : String) : Option (List Slot) := c.events.lookup name

end StackScript.Catalog
