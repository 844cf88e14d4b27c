import StackScript.Command.Run

namespace StackScript.Command

def FileError.ofSystem : IO.Error → FileError
  | .noFileOrDirectory _ _ _ => .notFound
  | .inappropriateType _ 21 _ => .isDirectory
  | .inappropriateType _ 20 _ => .notDirectory
  | .invalidArgument _ 36 _ => .nameTooLong
  | e => .other (toString e)

def processHost : Host IO where
  readText path := do
    match ← (IO.FS.readBinFile path).toBaseIO with
    | .ok bytes =>
      match String.fromUTF8? bytes with
      | some text => return .ok text
      | none => return .error .notText
    | .error e => return .error (.ofSystem e)
  writeFile path bytes := do
    match ← (IO.FS.writeBinFile path ⟨bytes.toArray⟩).toBaseIO with
    | .ok _ => return .ok ()
    | .error e => return .error (.ofSystem e)
  out := IO.print
  err := IO.eprint

end StackScript.Command

open StackScript.Command

def main (args : List String) : IO UInt32 := do
  let last ← execute processHost args
  match last with
  | .failed f => IO.eprintln f.message
  | .misused => IO.eprint usageText
  | .done => pure ()
  return last.code
