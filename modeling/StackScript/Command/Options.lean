namespace StackScript.Command

structure Options where
  input : String
  output : Option String
  catalogs : List String
  records : Option String
  listing : Bool
  verbose : Nat
  deriving DecidableEq

inductive Request where
  | compile (o : Options)
  | version
  | help
  deriving DecidableEq

inductive Flag where
  | output
  | catalog
  | records
  | listing
  | verbose
  | version
  | help
  deriving DecidableEq

namespace Flag

def ofLong? : String → Option Flag
  | "output" => some .output
  | "catalog" => some .catalog
  | "records" => some .records
  | "listing" => some .listing
  | "verbose" => some .verbose
  | "version" => some .version
  | "help" => some .help
  | _ => none

def ofShort? : Char → Option Flag
  | 'o' => some .output
  | 'v' => some .verbose
  | 'V' => some .version
  | 'h' => some .help
  | _ => none

def takesValue : Flag → Bool
  | .output | .catalog | .records => true
  | _ => false

end Flag

structure Collected where
  input : Option String
  output : Option String
  catalogs : List String
  records : Option String
  listing : Bool
  verbose : Nat

/-- Where an argument leads: on to the next one, to the value of a flag, to a request that needs no
more arguments, or nowhere. -/
inductive Step where
  | next (c : Collected)
  | needs (f : Flag) (c : Collected)
  | stop (r : Request)
  | wrong

namespace Collected

def empty : Collected := ⟨none, none, [], none, false, 0⟩

/-- Gives a flag its value. Only `catalog` may come more than once, and no value is empty. -/
def setValue (c : Collected) (f : Flag) (v : String) : Step :=
  if v.isEmpty then .wrong
  else match f with
    | .catalog => .next { c with catalogs := c.catalogs ++ [v] }
    | .output => if c.output.isSome then .wrong else .next { c with output := some v }
    | .records => if c.records.isSome then .wrong else .next { c with records := some v }
    | _ => .wrong

def switch (c : Collected) : Flag → Step
  | .verbose => .next { c with verbose := c.verbose + 1 }
  | .listing => if c.listing then .wrong else .next { c with listing := true }
  | .version => .stop .version
  | .help => .stop .help
  | _ => .wrong

def positional (c : Collected) (v : String) : Step :=
  if v.isEmpty || c.input.isSome then .wrong else .next { c with input := some v }

/-- Flags of one letter in one argument; the first that takes a value takes the rest. -/
def letters (c : Collected) : List Char → Step
  | [] => .next c
  | x :: xs =>
    match Flag.ofShort? x with
    | none => .wrong
    | some f =>
      if f.takesValue then
        match xs with
        | [] => .needs f c
        | '=' :: v => c.setValue f (String.ofList v)
        | v => c.setValue f (String.ofList v)
      else match c.switch f with
        | .next c => letters c xs
        | s => s

def word (c : Collected) (arg : List Char) : Step :=
  let name := String.ofList (arg.takeWhile (· != '='))
  match Flag.ofLong? name, arg.dropWhile (· != '=') with
  | none, _ => .wrong
  | some f, [] => if f.takesValue then .needs f c else c.switch f
  | some f, _ :: v => if f.takesValue then c.setValue f (String.ofList v) else .wrong

def argument (c : Collected) (arg : String) : Step :=
  match arg.toList with
  | '-' :: '-' :: name => c.word name
  | '-' :: x :: xs => c.letters (x :: xs)
  | _ => c.positional arg

def finish (c : Collected) : Option Request :=
  c.input.map fun input => .compile ⟨input, c.output, c.catalogs, c.records, c.listing, c.verbose⟩

def positionals (c : Collected) : List String → Option Request
  | [] => c.finish
  | v :: vs =>
    match c.positional v with
    | .next c => positionals c vs
    | _ => none

def isValue (arg : String) : Bool :=
  match arg.toList with
  | '-' :: _ :: _ => false
  | _ => true

/-- Reads arguments from left to right; the first that is wrong or asks to stop decides. -/
def read (c : Collected) : List String → Option Request
  | [] => c.finish
  | arg :: rest =>
    if arg = "--" then c.positionals rest
    else match c.argument arg with
      | .next c => read c rest
      | .stop r => some r
      | .wrong => none
      | .needs f c =>
        match rest with
        | [] => none
        | v :: rest =>
          if isValue v then
            match c.setValue f v with
            | .next c => read c rest
            | _ => none
          else none

end Collected

def Request.ofArgs? (args : List String) : Option Request := Collected.empty.read args

end StackScript.Command
