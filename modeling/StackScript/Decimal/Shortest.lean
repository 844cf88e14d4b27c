import StackScript.Decimal.Binary64

namespace StackScript.Binary64

def compareScaled (a : Nat) (s : Int) (b : Nat) (q : Int) : Ordering :=
  compare ((a * Nat.pow 10 s.toNat) <<< (-q).toNat) ((b * Nat.pow 10 (-s).toNat) <<< q.toNat)

/-- The ends of the interval of reals that round to `x`, in units of a quarter of its last place.
Below a power of two the neighbour is nearer. -/
def ends (x : Binary64) : Nat × Nat :=
  let low := if x.significand = 1 <<< 52 ∧ -1074 < x.exponent then 1 else 2
  (4 * x.significand - low, 4 * x.significand + 2)

/-- Does `d * 10 ^ s` round to `x`? The ends of the interval count when the significand is even. -/
def readsBack (x : Binary64) (d : Nat) (s : Int) : Bool :=
  let even := x.significand % 2 = 0
  let low := compareScaled d s x.ends.1 (x.exponent - 2)
  let high := compareScaled d s x.ends.2 (x.exponent - 2)
  (low == .gt || (even && low == .eq)) && (high == .lt || (even && high == .eq))

def quotient (x : Binary64) (s : Int) : Nat :=
  (x.significand * Nat.pow 10 (-s).toNat) <<< x.exponent.toNat /
    Nat.pow 10 s.toNat <<< (-x.exponent).toNat

/-- The `k` for which `10 ^ (k - 1) ≤ |x| < 10 ^ k`, read off a quotient that keeps a digit for
every nonzero double. -/
def magnitude (x : Binary64) : Int :=
  (Nat.toDigits 10 (x.quotient (-400))).length - 400

/-- Of the two neighbours of `|x|` on the grid of multiples of `10 ^ s`, the one that reads back;
the nearer if both do, the upper in the middle. -/
def onGrid? (x : Binary64) (s : Int) : Option Nat :=
  let d := x.quotient s
  match x.readsBack d s, x.readsBack (d + 1) s with
  | true, true =>
    if compareScaled (2 * d + 1) s (2 * x.significand) x.exponent == .gt then some d
    else some (d + 1)
  | true, false => some d
  | false, true => some (d + 1)
  | false, false => none

/-- The fewest digits that read back, with the exponent of the last of them. -/
def shortest (x : Binary64) : Nat × Int :=
  let k := x.magnitude
  let grid (n : Nat) : Option (Nat × Int) := (x.onGrid? (k - n)).map (·, k - n)
  ((List.range' 1 17).findSome? grid).getD (x.quotient (k - 17), k - 17)

/-- Digits without trailing zeros and the place of the point: the value is
`0.digits * 10 ^ point`. -/
def digits (x : Binary64) : List Char × Int :=
  let (d, s) := x.shortest
  let ds := Nat.toDigits 10 d
  ((ds.reverse.dropWhile (· == '0')).reverse, ds.length + s)

/-- From `1e-4` up to `1e16` digits stand around a point with one digit at least on each side;
outside, one digit stands before the point and a power of ten follows. -/
def layout (ds : List Char) (point : Int) : List Char :=
  let n : Int := ds.length
  if point < -3 ∨ 16 < point then
    let tail := match ds.drop 1 with
      | [] => []
      | rest => '.' :: rest
    ds.take 1 ++ tail ++ 'e' :: (toString (point - 1)).toList
  else if point ≤ 0 then '0' :: '.' :: List.replicate (-point).toNat '0' ++ ds
  else if point < n then ds.take point.toNat ++ '.' :: ds.drop point.toNat
  else ds ++ List.replicate (point - n).toNat '0' ++ ['.', '0']

def text (x : Binary64) : String :=
  let body := if x.significand = 0 then ['0', '.', '0'] else layout x.digits.1 x.digits.2
  String.ofList (if x.negative then '-' :: body else body)

end StackScript.Binary64
