import CallScript.Text.Bytes

/- Bytes written as base64 digits. -/
namespace CallScript

def base64Value? (c : UInt8) : Option Nat :=
  if Bytes.isUpper c then some (c.toNat - 65)
  else if Bytes.isLower c then some (c.toNat - 71)
  else if Bytes.isDigit c then some (c.toNat + 4)
  else if c = ascii '+' then some 62
  else if c = ascii '/' then some 63
  else none

def decodeBase64 : Bytes → Option Bytes
  | [] => some []
  | a :: b :: c :: d :: rest => do
    let w ← base64Value? a
    let x ← base64Value? b
    let first := (w * 4 + x / 16).toUInt8
    if c = ascii '=' then
      if d = ascii '=' && rest.isEmpty then some [first] else none
    else
      let y ← base64Value? c
      let second := (x % 16 * 16 + y / 4).toUInt8
      if d = ascii '=' then
        if rest.isEmpty then some [first, second] else none
      else
        let z ← base64Value? d
        let tail ← decodeBase64 rest
        some (first :: second :: (y % 4 * 64 + z).toUInt8 :: tail)
  | _ => none

end CallScript
