import CallScript.Number.Basic

/- The number nearest to a ratio of whole numbers; a ratio halfway between two numbers goes to the
   one whose last bit is zero. -/
namespace CallScript

def roundDiv (num den : Nat) : Nat :=
  let quotient := num / den
  let twice := 2 * (num % den)
  if den < twice || (twice == den && quotient % 2 == 1) then quotient + 1 else quotient

namespace Number

/-- The whole part of `num / den / 2 ^ (e - 1074)`. -/
def unitsIn (num den e : Nat) : Nat :=
  if e ≤ 1074 then num * Nat.pow 2 (1074 - e) / den else num / (den * Nat.pow 2 (e - 1074))

/-- The least exponent whose unit leaves the ratio fewer than 54 bits before the point. -/
def scaleOf (num den : Nat) : Nat :=
  let guess := num.log2 + 1074 - den.log2 - 53
  if unitsIn num den guess < Nat.pow 2 53 then guess else guess + 1

def nearest (num den : Nat) : Nat :=
  if num = 0 then 0
  else
    let e := scaleOf num den
    let m := if e ≤ 1074 then roundDiv (num * Nat.pow 2 (1074 - e)) den
      else roundDiv num (den * Nat.pow 2 (e - 1074))
    min infiniteMagnitude (e * Nat.pow 2 52 + m)

def ofRatio (negative : Bool) (num den : Nat) : Number := ofMagnitude negative (nearest num den)

def ofNat (n : Nat) : Number := ofRatio false n 1

end Number
end CallScript
