import CallScript.Text.Bytes
import CallScript.Number.Shortest

/- The text of a number: its shortest decimal in positional notation, never with an exponent. -/
namespace CallScript

namespace Decimal

def stripZeros : Nat → Decimal → Decimal
  | 0, d => d
  | n + 1, d =>
    if d.digits ≠ 0 && d.digits % 10 = 0 then stripZeros n ⟨d.digits / 10, d.exponent + 1⟩ else d

def zeros (n : Nat) : Bytes := List.replicate n (ascii '0')

/-- Positional notation; a fraction has no zeros at its end, a whole number no point. -/
def render (d : Decimal) : Bytes :=
  let d := stripZeros 20 d
  let text := Bytes.decimal d.digits
  let point := (text.length : Int) + d.exponent
  if point ≤ 0 then utf8 "0." ++ zeros (-point).toNat ++ text
  else if text.length ≤ point.toNat then text ++ zeros (point.toNat - text.length)
  else text.take point.toNat ++ ascii '.' :: text.drop point.toNat

end Decimal

def Number.renderMagnitude (x : Number) : Bytes :=
  if x.isInfinite then utf8 "inf"
  else if x.isZero then utf8 "0"
  else x.shortest.render

def Number.render (x : Number) : Bytes :=
  if x.isNaN then utf8 "NaN"
  else if x.isNegative then ascii '-' :: x.renderMagnitude
  else x.renderMagnitude

end CallScript
