import CallScript.Number.Rounding

/- The remainder of a truncated division. It is exact, and has the sign of the dividend. -/
namespace CallScript.Number

def finiteRemainder (x y : Number) : Number :=
  let e := min x.scale y.scale
  let r := (x.significand * Nat.pow 2 (x.scale - e)) % (y.significand * Nat.pow 2 (y.scale - e))
  if e ≤ 1074 then ofRatio x.isNegative r (Nat.pow 2 (1074 - e))
  else ofRatio x.isNegative (r * Nat.pow 2 (e - 1074)) 1

def remainder (x y : Number) : Number :=
  if x.isNaN || y.isNaN || x.isInfinite || y.isZero then nan
  else if y.isInfinite then x
  else finiteRemainder x y

end CallScript.Number
