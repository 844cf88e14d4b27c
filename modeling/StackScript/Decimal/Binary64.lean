namespace StackScript

/-- A finite double: `significand * 2 ^ exponent`, negated if `negative`. The significand has 53
bits, or fewer when the exponent is the least one, `-1074`. -/
structure Binary64 where
  negative : Bool
  significand : Nat
  exponent : Int
  deriving DecidableEq

namespace Binary64

def zero (negative : Bool) : Binary64 := ⟨negative, 0, -1074⟩

/-- The quotient as an integer, a half going to the even neighbour. -/
def roundHalfEven (num den : Nat) : Nat :=
  let q := num / den
  let r := num % den
  if den < 2 * r ∨ (2 * r = den ∧ q % 2 = 1) then q + 1 else q

def leadingBit (num den : Nat) : Int :=
  let e : Int := (num.log2 : Int) - den.log2
  if den <<< e.toNat ≤ num <<< (-e).toNat then e else e - 1

/-- The double nearest to `num / den`; none when it would pass the largest one. -/
def ofRatio? (negative : Bool) (num den : Nat) : Option Binary64 :=
  let q := max (leadingBit num den - 52) (-1074)
  let m := roundHalfEven (num <<< (-q).toNat) (den <<< q.toNat)
  let x : Binary64 := if m = 1 <<< 53 then ⟨negative, 1 <<< 52, q + 1⟩ else ⟨negative, m, q⟩
  if x.exponent ≤ 971 then some x else none

/-- The double nearest to `digits * 10 ^ scale`; none when it would pass the largest one. The
number of digits settles the far ends, so no power is formed there. -/
def ofDecimal? (negative : Bool) (digits : Nat) (scale : Int) : Option Binary64 :=
  if digits = 0 then some (zero negative)
  else
    let top := (Nat.toDigits 10 digits).length + scale
    if 310 < top then none
    else if top < -330 then some (zero negative)
    else ofRatio? negative (digits * Nat.pow 10 scale.toNat) (Nat.pow 10 (-scale).toNat)

end StackScript.Binary64
