import StackScript.Command.Run

namespace StackScript.Command

/-- Files kept in memory, with what was printed. A file is named by the parts of its path. -/
structure Memory where
  files : List (List String × Record.Bytes)
  out : String
  err : String

/-- A path taken apart: the names on the way, whether the way starts outside of the directory that
the files are in, and whether a slash ends it. -/
structure Path where
  names : List String
  absolute : Bool
  slashed : Bool

namespace Path

def ofString (s : String) : Path :=
  let pieces := s.splitOn "/"
  ⟨pieces.filter (· ≠ ""), pieces.head? = some "", pieces.getLast? = some ""⟩

end Path

/-- Where a way leads: to a directory or a file, each given by its names from the top, or outside of
the directory that the files are in. -/
inductive Spot where
  | directory (names : List String)
  | file (names : List String) (bytes : Record.Bytes)
  | outside

def Spot.above : Spot → Spot
  | .directory names => if names.isEmpty then .outside else .directory names.dropLast
  | spot => spot

def nameLimit : Nat := 255

namespace Memory

def ofFiles (files : List (String × Record.Bytes)) : Memory :=
  ⟨files.map fun (name, bytes) => ((Path.ofString name).names, bytes), "", ""⟩

def file? (s : Memory) (names : List String) : Option Record.Bytes := s.files.lookup names

def isDirectory (s : Memory) (names : List String) : Bool :=
  names.isEmpty || s.files.any fun (name, _) => names.isPrefixOf name && names ≠ name

def child (s : Memory) (name : String) : Spot → Except FileError Spot
  | .directory names =>
    match s.file? (names ++ [name]) with
    | some bytes => .ok (.file (names ++ [name]) bytes)
    | none =>
      if s.isDirectory (names ++ [name]) then .ok (.directory (names ++ [name]))
      else .error .notFound
  | _ => .error .notFound

/-- One name further. Only a directory leads on, also to itself and to the one above. -/
def enter (s : Memory) (name : String) : Spot → Except FileError Spot
  | .file _ _ => .error .notDirectory
  | spot =>
    if name = "." then .ok spot
    else if name = ".." then .ok spot.above
    else if nameLimit < name.utf8ByteSize then .error .nameTooLong
    else s.child name spot

def walk (s : Memory) : Spot → List String → Except FileError Spot
  | spot, [] => .ok spot
  | spot, name :: names => do
    let spot ← s.enter name spot
    s.walk spot names

def start (p : Path) : Spot := if p.absolute then .outside else .directory []

def read (s : Memory) (path : String) : Except FileError Record.Bytes := do
  let p := Path.ofString path
  match ← s.walk (start p) p.names with
  | .file _ bytes => if p.slashed then .error .notDirectory else .ok bytes
  | _ => .error .isDirectory

def put (s : Memory) (names : List String) (bytes : Record.Bytes) : Memory :=
  if (s.file? names).isSome then
    { s with files := s.files.map fun f => if f.1 = names then (f.1, bytes) else f }
  else { s with files := s.files ++ [(names, bytes)] }

/-- Writes the file `name` in the place that the rest of its path leads to. A name that can only be
a directory's is refused as one, whether it is there or not. What is written outside is out of
sight. -/
def writeIn (s : Memory) (spot : Spot) (name : String) (slashed : Bool) (bytes : Record.Bytes) :
    Except FileError Memory :=
  match spot with
  | .file _ _ => .error .notDirectory
  | spot =>
    if slashed ∨ name = "." ∨ name = ".." then .error .isDirectory
    else match s.enter name spot, spot with
      | .ok (.file names _), _ => .ok (s.put names bytes)
      | .ok _, _ => .error .isDirectory
      | .error .notFound, .directory names => .ok (s.put (names ++ [name]) bytes)
      | .error .notFound, _ => .ok s
      | .error e, _ => .error e

def write (s : Memory) (path : String) (bytes : Record.Bytes) : Except FileError Memory := do
  let p := Path.ofString path
  match p.names.getLast? with
  | none => .error .isDirectory
  | some name =>
    let spot ← s.walk (start p) p.names.dropLast
    s.writeIn spot name p.slashed bytes

def textOf (bytes : Record.Bytes) : Except FileError String :=
  match String.fromUTF8? ⟨bytes.toArray⟩ with
  | some text => .ok text
  | none => .error .notText

def host : Host (StateM Memory) where
  readText path := fun s => (s.read path >>= textOf, s)
  writeFile path bytes := fun s =>
    match s.write path bytes with
    | .ok s => (.ok (), s)
    | .error e => (.error e, s)
  out text := modify fun s => { s with out := s.out ++ text }
  err text := modify fun s => { s with err := s.err ++ text }

def execute (s : Memory) (args : List String) : End × Memory := Command.execute host args s

end StackScript.Command.Memory
