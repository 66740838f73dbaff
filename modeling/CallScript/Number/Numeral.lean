import CallScript.Text.Bytes
import CallScript.Number.Rounding

/- Numerals, the texts that can be read as numbers: decimal and hexadecimal numerals with an
   optional exponent, and the names of the infinities and of NaN. Underscores may stand between
   digits. The number read is the one nearest to the value written. -/
namespace CallScript

inductive Radix where
  | decimal
  | hexadecimal
  deriving DecidableEq, Repr

/-- An unsigned numeral taken apart: the value is `digits * base ^ (-places)` times the power that
`exponent` gives, of ten for decimal numerals and of two for hexadecimal ones. -/
structure Numeral where
  radix : Radix
  digits : Nat
  places : Nat
  exponent : Int
  deriving DecidableEq, Repr

namespace Radix

def base : Radix → Nat
  | .decimal => 10
  | .hexadecimal => 16

def digitValue? : Radix → UInt8 → Option Nat
  | .decimal, c => if Bytes.isDigit c then some (c.toNat - 48) else none
  | .hexadecimal, c => Bytes.hexValue? c

def exponentMark : Radix → UInt8
  | .decimal => ascii 'e'
  | .hexadecimal => ascii 'p'

end Radix

structure Mantissa where
  digits : Nat
  places : Nat
  point : Bool
  seen : Bool

namespace Mantissa

def empty : Mantissa := ⟨0, 0, false, false⟩

def read (radix : Radix) (m : Mantissa) : Bytes → Mantissa × Bytes
  | [] => (m, [])
  | c :: rest =>
    if c = ascii '_' then read radix m rest
    else if c = ascii '.' then
      if m.point then (m, c :: rest) else read radix { m with point := true } rest
    else match radix.digitValue? c with
      | some d =>
        read radix ⟨m.digits * radix.base + d, if m.point then m.places + 1 else m.places,
          m.point, true⟩ rest
      | none => (m, c :: rest)

end Mantissa

namespace Numeral

/-- The digits of an exponent and what follows them. Digits that would carry it far beyond the range
of numbers are dropped. -/
def readExponent (acc : Nat) : Bytes → Nat × Bytes
  | [] => (acc, [])
  | c :: rest =>
    if c = ascii '_' then readExponent acc rest
    else if Bytes.isDigit c then
      readExponent (if acc < 10000 then acc * 10 + (c.toNat - 48) else acc) rest
    else (acc, c :: rest)

def exponent? (text : Bytes) : Option Int :=
  let (negative, text) := match text with
    | c :: rest =>
      if c = ascii '-' then (true, rest) else if c = ascii '+' then (false, rest) else (false, text)
    | [] => (false, text)
  match text with
  | [] => none
  | c :: _ =>
    if Bytes.isDigit c then
      match readExponent 0 text with
      | (value, []) => some (if negative then -(value : Int) else value)
      | _ => none
    else none

inductive Previous where
  | nothing
  | digit
  | underscore
  | other
  deriving DecidableEq

/-- Each underscore has a digit on either side; the mark of a hexadecimal numeral counts as one. -/
def underscoresSeparate (isDigit : UInt8 → Bool) (before : Previous) : Bytes → Bool
  | [] => before ≠ .underscore
  | c :: rest =>
    if isDigit c then underscoresSeparate isDigit .digit rest
    else if c = ascii '_' then before == .digit && underscoresSeparate isDigit .underscore rest
    else before ≠ .underscore && underscoresSeparate isDigit .other rest

def body? (radix : Radix) (text : Bytes) : Option Numeral :=
  match Mantissa.read radix .empty text with
  | (m, rest) =>
    if !m.seen then none
    else match radix, rest with
      | .decimal, [] => some ⟨radix, m.digits, m.places, 0⟩
      | .hexadecimal, [] => none
      | _, c :: rest =>
        if Bytes.toLower c = radix.exponentMark then
          (exponent? rest).map fun e => ⟨radix, m.digits, m.places, e⟩
        else none

def ofText? (text : Bytes) : Option Numeral :=
  match text with
  | zero :: mark :: first :: rest =>
    if zero = ascii '0' && Bytes.toLower mark = ascii 'x' then
      if underscoresSeparate (fun c => (Bytes.hexValue? c).isSome) .digit (first :: rest) then
        body? .hexadecimal (first :: rest)
      else none
    else if underscoresSeparate Bytes.isDigit .nothing text then body? .decimal text else none
  | _ => if underscoresSeparate Bytes.isDigit .nothing text then body? .decimal text else none

/-- The number nearest to a decimal numeral. A numeral far outside the range of numbers is not
computed. -/
def decimalMagnitude (digits : Nat) (exponent : Int) : Nat :=
  let size := ((Nat.toDigits 10 digits).length : Int) + exponent
  if digits = 0 || size < -400 then 0
  else if 400 < size then Number.infiniteMagnitude
  else Number.nearest (digits * Nat.pow 10 exponent.toNat) (Nat.pow 10 (-exponent).toNat)

def binaryMagnitude (digits : Nat) (exponent : Int) : Nat :=
  let size := (digits.log2 : Int) + exponent
  if digits = 0 || size < -1200 then 0
  else if 1200 < size then Number.infiniteMagnitude
  else Number.nearest (digits * Nat.pow 2 exponent.toNat) (Nat.pow 2 (-exponent).toNat)

def magnitude (n : Numeral) : Nat :=
  match n.radix with
  | .decimal => decimalMagnitude n.digits (n.exponent - n.places)
  | .hexadecimal => binaryMagnitude n.digits (n.exponent - 4 * n.places)

end Numeral

namespace Number

def infinityNames : List Bytes := [utf8 "inf", utf8 "infinity"]

def unsigned? (negative : Bool) (text : Bytes) : Option Number :=
  if infinityNames.contains (text.map Bytes.toLower) then
    some (ofMagnitude negative infiniteMagnitude)
  else (Numeral.ofText? text).map fun n => ofMagnitude negative n.magnitude

def parse? (text : Bytes) : Option Number :=
  match text with
  | [] => none
  | c :: rest =>
    if c = ascii '-' then unsigned? true rest
    else if c = ascii '+' then unsigned? false rest
    else if text.map Bytes.toLower = utf8 "nan" then some nan
    else unsigned? false text

end Number
end CallScript
