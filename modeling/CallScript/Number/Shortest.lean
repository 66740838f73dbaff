import CallScript.Number.Basic

/- The shortest decimal that reads back as a given number: of all decimals that round to it, those
   with the fewest digits, and of these the nearest. -/
namespace CallScript

structure Decimal where
  digits : Nat
  exponent : Int
  deriving DecidableEq, Repr

/-- The values that round to a number, times `den`: from `low` to `high`, the ends included when
`closed`, with the number itself at `value`. -/
structure RoundingInterval where
  low : Nat
  value : Nat
  high : Nat
  den : Nat
  closed : Bool
  deriving DecidableEq, Repr

namespace RoundingInterval

def ofNumber (x : Number) : RoundingInterval :=
  let m := x.significand
  let below := if m = Nat.pow 2 52 && 0 < x.scale then 1 else 2
  let den := 4 * Nat.pow 2 (1074 - x.scale)
  let factor := Nat.pow 2 (x.scale - 1074)
  ⟨(4 * m - below) * factor, 4 * m * factor, (4 * m + 2) * factor, den, m % 2 = 0⟩

/-- How often `10 ^ exponent` goes into `10 ^ e`, for the two powers that keep a comparison whole:
the first multiplies candidates, the second multiplies the interval. -/
def powers (exponent : Int) : Nat × Nat := (Nat.pow 10 exponent.toNat, Nat.pow 10 (-exponent).toNat)

def contains (r : RoundingInterval) (d : Decimal) : Bool :=
  let (up, down) := powers d.exponent
  let here := d.digits * up * r.den
  if r.closed then r.low * down ≤ here && here ≤ r.high * down
  else r.low * down < here && here < r.high * down

def isBelowPower (r : RoundingInterval) (e : Int) : Bool :=
  let (up, down) := powers e
  r.value * down < up * r.den

def magnitude (r : RoundingInterval) : Int :=
  let guess := ((r.value.log2 : Int) - r.den.log2) * 30103 / 100000
  ([guess - 1, guess, guess + 1, guess + 2].find? r.isBelowPower).getD (guess + 3)

/-- The decimals of `count` digits on either side of the value that round to it: the nearer of two,
on a tie the even one. -/
def candidate? (r : RoundingInterval) (count : Nat) : Option Decimal :=
  let exponent := r.magnitude - count
  let (up, down) := powers exponent
  let under := r.value * down / (up * r.den)
  let left := r.value * down - under * (up * r.den)
  let low : Decimal := ⟨under, exponent⟩
  let high : Decimal := ⟨under + 1, exponent⟩
  match r.contains low, r.contains high with
  | true, true =>
    if 2 * left < up * r.den || (2 * left == up * r.den && under % 2 == 0) then some low
    else some high
  | true, false => some low
  | false, true => some high
  | false, false => none

end RoundingInterval

def Number.shortest (x : Number) : Decimal :=
  let r := RoundingInterval.ofNumber x
  ((List.range 17).findSome? fun n => r.candidate? (n + 1)).getD ⟨0, 0⟩

end CallScript
