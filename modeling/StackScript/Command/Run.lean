import StackScript.Catalog.OverlayJson
import StackScript.Catalog.Seed
import StackScript.Code.Listing
import StackScript.Code.Record
import StackScript.Command.Options
import StackScript.Lowering.Module
import StackScript.Script.ModuleJson

namespace StackScript.Command

inductive FileError where
  | notFound
  | isDirectory
  | notDirectory
  | nameTooLong
  | notText
  | other (text : String)
  deriving DecidableEq

def FileError.text : FileError → String
  | .notFound => "No such file or directory (os error 2)"
  | .isDirectory => "Is a directory (os error 21)"
  | .notDirectory => "Not a directory (os error 20)"
  | .nameTooLong => "File name too long (os error 36)"
  | .notText => "stream did not contain valid UTF-8"
  | .other text => text

/-- What the command needs of the system it runs on. -/
structure Host (m : Type → Type) where
  readText : String → m (Except FileError String)
  writeFile : String → Record.Bytes → m (Except FileError Unit)
  out : String → m Unit
  err : String → m Unit

inductive Failure where
  | reading (path : String) (e : FileError)
  | parsing
  | readingCatalog (path : String) (e : FileError)
  | parsingCatalog (path : String)
  | compiling (path : String) (f : Fault)
  | writing (path : String) (e : FileError)
  deriving DecidableEq

namespace Failure

def context : Failure → String
  | .reading path _ => "Reading " ++ path
  | .parsing => "Parsing input AST"
  | .readingCatalog path _ => "Reading catalog " ++ path
  | .parsingCatalog path => "Parsing catalog " ++ path
  | .compiling path _ => "Compiling " ++ path
  | .writing path _ => "Writing " ++ path

/-- The reason, where one is known: of a text that does not parse, none is. -/
def cause? : Failure → Option String
  | .reading _ e | .readingCatalog _ e | .writing _ e => some e.text
  | .parsing | .parsingCatalog _ => none
  | .compiling _ (.rejected d) => some d.message
  | .compiling _ (.dangling label) => some ("no label " ++ toString label)

def message (f : Failure) : String :=
  "Error: " ++ f.context ++ (match f.cause? with
    | some cause => ": " ++ cause
    | none => "")

end Failure

def detail (verbose : Nat) : Detail :=
  match verbose with
  | 0 => .silent
  | 1 => .steps
  | _ => .everything

section

variable {m : Type → Type} [Monad m] (h : Host m)

def attempt (wrap : FileError → Failure) (action : m (Except FileError α)) : ExceptT Failure m α :=
  .mk do
    match ← action with
    | .ok a => return .ok a
    | .error e => return .error (wrap e)

def require (failure : Failure) : Option α → ExceptT Failure m α
  | some a => pure a
  | none => throw failure

def loadCatalogs (c : Catalog) : List String → ExceptT Failure m Catalog
  | [] => return c
  | path :: paths => do
    let text ← attempt (.readingCatalog path) (h.readText path)
    let overlay ← require (.parsingCatalog path) (Overlay.parse? text)
    loadCatalogs (c.merge overlay) paths

def shown (o : Options) (view : Except Fault α) : ExceptT Failure m α :=
  match view with
  | .ok a => pure a
  | .error f => throw (.compiling o.input f)

def compile (o : Options) : ExceptT Failure m Program := do
  let text ← attempt (.reading o.input) (h.readText o.input)
  let tree ← require .parsing (Module.parse? text)
  let catalog ← loadCatalogs h .builtin o.catalogs
  let (result, journal) := tree.compileNoted catalog
  h.err (journalText (detail o.verbose) journal)
  shown o result

def run (o : Options) : ExceptT Failure m Unit := do
  let p ← compile h o
  let text ← shown o p.text
  match o.output with
  | some path => attempt (.writing path) (h.writeFile path text.toUTF8.data.toList)
  | none => h.out text
  if let some path := o.records then
    attempt (.writing path) (h.writeFile path p.toRecord)
  if o.listing then
    h.err (← shown o p.listing)

end

def versionText : String := "uasmc 0.1.0\n"

def usageText : String :=
  "Usage: uasmc [OPTIONS] <INPUT>\n\nOptions:\n" ++
  "  -o, --output <OUTPUT>  Assembly file; standard output when omitted\n" ++
  "      --catalog <FILE>   Catalog laid over the built-in one\n" ++
  "      --records <FILE>   Also write the program as records\n" ++
  "      --listing          Print an address listing to standard error\n" ++
  "  -v, --verbose...       Print the journal, twice for all of it\n" ++
  "  -h, --help             Print help\n" ++
  "  -V, --version          Print version\n"

inductive End where
  | done
  | failed (f : Failure)
  | misused
  deriving DecidableEq

def End.code : End → UInt32
  | .done => 0
  | .failed _ => 1
  | .misused => 2

def execute {m : Type → Type} [Monad m] (h : Host m) (args : List String) : m End :=
  match Request.ofArgs? args with
  | none => return .misused
  | some .version => do
    h.out versionText
    return .done
  | some .help => do
    h.out usageText
    return .done
  | some (.compile o) => do
    match ← (run h o).run with
    | .ok _ => return .done
    | .error f => return .failed f

end StackScript.Command
