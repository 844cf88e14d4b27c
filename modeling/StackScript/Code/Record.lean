import StackScript.Code.Program

namespace StackScript

inductive RecordError where
  | unexpectedEnd
  | badNumber
  | badText
  | badOption
  | badVariant
  deriving DecidableEq

namespace Record

abbrev Bytes := List UInt8

abbrev Reader (α : Type) := Bytes → Except RecordError (α × Bytes)

/-- Seven bits a byte, the lowest first; all bytes but the last have the top bit. -/
def putNat (n : Nat) : Bytes :=
  if n < 128 then [n.toUInt8] else (n % 128 + 128).toUInt8 :: putNat (n / 128)
termination_by n

/-- A number of at most `left + 1` bytes, the last of which is at most `top`. -/
def getNat (top : Nat) : Nat → Reader Nat
  | _, [] => .error .unexpectedEnd
  | 0, b :: bs => if b.toNat ≤ top then .ok (b.toNat, bs) else .error .badNumber
  | left + 1, b :: bs =>
    if b.toNat < 128 then .ok (b.toNat, bs)
    else do
      let (n, rest) ← getNat top left bs
      return (b.toNat - 128 + 128 * n, rest)

def getWord32 : Reader Nat := getNat 15 4

def getWord64 : Reader Nat := getNat 1 9

def putText (s : String) : Bytes := putNat s.utf8ByteSize ++ s.toUTF8.data.toList

def getText : Reader String := fun bs => do
  let (n, bs) ← getWord64 bs
  let taken := bs.take n
  if taken.length < n then .error .unexpectedEnd
  else match String.fromUTF8? ⟨taken.toArray⟩ with
    | some s => .ok (s, bs.drop n)
    | none => .error .badText

def putList (put : α → Bytes) (xs : List α) : Bytes := putNat xs.length ++ xs.flatMap put

def getMany (get : Reader α) : Nat → Reader (List α)
  | 0, bs => .ok ([], bs)
  | n + 1, bs => do
    let (x, bs) ← get bs
    let (xs, bs) ← getMany get n bs
    return (x :: xs, bs)

def getList (get : Reader α) : Reader (List α) := fun bs => do
  let (n, bs) ← getWord64 bs
  getMany get n bs

def putOption (put : α → Bytes) : Option α → Bytes
  | none => [0]
  | some x => 1 :: put x

def getOption (get : Reader α) : Reader (Option α)
  | [] => .error .unexpectedEnd
  | b :: bs =>
    if b = 0 then .ok (none, bs)
    else if b = 1 then do
      let (x, bs) ← get bs
      return (some x, bs)
    else .error .badOption

def mapGet (f : α → β) (get : Reader α) : Reader β := fun bs => do
  let (x, bs) ← get bs
  return (f x, bs)

def putTarget : Target → Bytes
  | .addr a => putNat 0 ++ putNat a
  | .label id => putNat 1 ++ putNat id

def getTarget : Reader Target := fun bs => do
  let (tag, bs) ← getWord32 bs
  match tag with
  | 0 => mapGet .addr getWord32 bs
  | 1 => mapGet .label getWord64 bs
  | _ => .error .badVariant

def putInit : Init → Bytes
  | .null => putNat 0
  | .literal t => putNat 1 ++ putText t
  | .label id => putNat 2 ++ putNat id
  | .addr a => putNat 3 ++ putNat a

def getInit : Reader Init := fun bs => do
  let (tag, bs) ← getWord32 bs
  match tag with
  | 0 => .ok (.null, bs)
  | 1 => mapGet .literal getText bs
  | 2 => mapGet .label getWord64 bs
  | 3 => mapGet .addr getWord32 bs
  | _ => .error .badVariant

def putInstr : Instr → Bytes
  | .pop => putNat 0
  | .copy => putNat 1
  | .push x => putNat 2 ++ putText x
  | .pushAddr a => putNat 3 ++ putNat a
  | .jump t => putNat 4 ++ putTarget t
  | .jumpIfFalse t => putNat 5 ++ putTarget t
  | .jumpIndirect x => putNat 6 ++ putText x
  | .invoke symbol arity => putNat 7 ++ putText symbol ++ putNat arity
  | .eventHead name => putNat 8 ++ putText name

def getInvoke : Reader Instr := fun bs => do
  let (symbol, bs) ← getText bs
  let (arity, bs) ← getWord64 bs
  return (.invoke symbol arity, bs)

def getInstr : Reader Instr := fun bs => do
  let (tag, bs) ← getWord32 bs
  match tag with
  | 0 => .ok (.pop, bs)
  | 1 => .ok (.copy, bs)
  | 2 => mapGet .push getText bs
  | 3 => mapGet .pushAddr getWord32 bs
  | 4 => mapGet .jump getTarget bs
  | 5 => mapGet .jumpIfFalse getTarget bs
  | 6 => mapGet .jumpIndirect getText bs
  | 7 => getInvoke bs
  | 8 => mapGet .eventHead getText bs
  | _ => .error .badVariant

def putVar (v : DataVar) : Bytes := putText v.name ++ putText v.machineType ++ putInit v.init

def getVar : Reader DataVar := fun bs => do
  let (name, bs) ← getText bs
  let (machineType, bs) ← getText bs
  let (init, bs) ← getInit bs
  return (⟨name, machineType, init⟩, bs)

def putLabel (l : Label) : Bytes := putText l.name ++ putOption putNat l.addr

def getLabel : Reader Label := fun bs => do
  let (name, bs) ← getText bs
  let (addr, bs) ← getOption getWord32 bs
  return (⟨name, addr⟩, bs)

end Record

namespace Program

open Record

def toRecord (p : Program) : Bytes :=
  putList putText p.exports ++ putList putVar p.vars ++ putList putText p.events ++
    putList putInstr p.code ++ putList putLabel p.labels

def ofRecord (bs : Bytes) : Except RecordError Program := do
  let (exports, bs) ← getList getText bs
  let (vars, bs) ← getList getVar bs
  let (events, bs) ← getList getText bs
  let (code, bs) ← getList getInstr bs
  let (labels, _) ← getList getLabel bs
  return ⟨exports, vars, events, code, labels⟩

end Program
end StackScript
