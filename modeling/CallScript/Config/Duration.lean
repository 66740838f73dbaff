import CallScript.Text.Bytes
import CallScript.Number.Rounding

/- Lengths of time such as `1h30m5s`: numbers with units, one after the other, with a sign before
   them all if there is one. They are counted in nanoseconds. -/
namespace CallScript.Duration

def units : List (Bytes × Nat) :=
  [(utf8 "ns", 1), (utf8 "us", 1000), (utf8 "µs", 1000), (utf8 "μs", 1000), (utf8 "ms", 1000000),
    (utf8 "s", 1000000000), (utf8 "m", 60000000000), (utf8 "h", 3600000000000)]

def bound : Nat := Nat.pow 2 63

/-- The digits of a fraction as a whole number and the power of ten it is over. Digits that make the
whole number too large are dropped. -/
def fraction (digits : Bytes) : Nat × Number :=
  let (value, scale, _) := digits.foldl (fun (value, scale, full) c =>
    let next := value * 10 + (c.toNat - 48)
    if full || bound < next then (value, scale, true)
    else (next, Number.multiply scale (.ofNat 10), false)) (0, Number.ofNat 1, false)
  (value, scale)

def fractionOf (unit : Nat) (digits : Bytes) : Nat :=
  let (value, scale) := fraction digits
  if value = 0 then 0
  else (Number.multiply (.ofNat value) (Number.divide (.ofNat unit) scale)).floor

def item? (text : Bytes) : Option (Nat × Bytes) := do
  let whole := text.takeWhile Bytes.isDigit
  let rest := text.dropWhile Bytes.isDigit
  let (part, rest) := match rest with
    | c :: after =>
      if c = ascii '.' then (after.takeWhile Bytes.isDigit, after.dropWhile Bytes.isDigit)
      else ([], rest)
    | [] => ([], rest)
  if whole.isEmpty && part.isEmpty then none
  else
    let isUnit := fun c => c ≠ ascii '.' && !Bytes.isDigit c
    let unit ← units.lookup (rest.takeWhile isUnit)
    let value := Bytes.natValue whole * unit + fractionOf unit part
    if value ≤ bound then some (value, rest.dropWhile isUnit) else none

def items? : Nat → Bytes → Option Nat
  | _, [] => some 0
  | 0, _ => none
  | fuel + 1, text => do
    let (value, rest) ← item? text
    let sum ← items? fuel rest
    if value + sum ≤ bound then some (value + sum) else none

def parse? (text : Bytes) : Option Int :=
  let (negative, text) := match text with
    | c :: rest => if c = ascii '-' then (true, rest) else if c = ascii '+' then (false, rest)
      else (false, text)
    | [] => (false, text)
  if text = utf8 "0" then some 0
  else if text.isEmpty then none
  else match items? text.length text with
    | none => none
    | some n => if negative then some (-(n : Int)) else if n < bound then some n else none

def decimalOver (places value : Nat) : Bytes :=
  let digits := Bytes.decimal (value % Nat.pow 10 places + Nat.pow 10 places)
  let part := (digits.tail.reverse.dropWhile (· = ascii '0')).reverse
  Bytes.decimal (value / Nat.pow 10 places) ++ if part.isEmpty then [] else ascii '.' :: part

def render (n : Nat) : Bytes :=
  if n = 0 then utf8 "0s"
  else if n < 1000 then Bytes.decimal n ++ utf8 "ns"
  else if n < 1000000 then decimalOver 3 n ++ utf8 "µs"
  else if n < 1000000000 then decimalOver 6 n ++ utf8 "ms"
  else
    let minutes := n / 60000000000
    (if 60 ≤ minutes then Bytes.decimal (minutes / 60) ++ utf8 "h" else []) ++
      (if 0 < minutes then Bytes.decimal (minutes % 60) ++ utf8 "m" else []) ++
      decimalOver 9 (n % 60000000000) ++ utf8 "s"

end CallScript.Duration
