/- Numbers are 64 bit binary floating point values, kept as their bits. Classes and order are read
   off the bits; arithmetic is the correctly rounded arithmetic of `Float`. -/
namespace CallScript

structure Number where
  bits : UInt64
  deriving DecidableEq, Repr

namespace Number

instance : Inhabited Number := ⟨⟨0⟩⟩

def magnitude (x : Number) : Nat := x.bits.toNat % Nat.pow 2 63

def isNegative (x : Number) : Bool := Nat.pow 2 63 ≤ x.bits.toNat

/-- The magnitude of the infinities; a larger one belongs to no number. -/
def infiniteMagnitude : Nat := 2047 * Nat.pow 2 52

def isNaN (x : Number) : Bool := infiniteMagnitude < x.magnitude

def isInfinite (x : Number) : Bool := x.magnitude = infiniteMagnitude

def isZero (x : Number) : Bool := x.magnitude = 0

def ofMagnitude (negative : Bool) (magnitude : Nat) : Number :=
  ⟨((if negative then Nat.pow 2 63 else 0) + magnitude % Nat.pow 2 63).toUInt64⟩

def infinity : Number := ofMagnitude false infiniteMagnitude

def nan : Number := ofMagnitude false (infiniteMagnitude + Nat.pow 2 51)

/-- The place of a number in the order; both zeros have place zero. -/
def rank (x : Number) : Int := if x.isNegative then -(x.magnitude : Int) else x.magnitude

/-- The whole number `m` of the finite value `m * 2 ^ (e - 1074)`. -/
def significand (x : Number) : Nat :=
  if x.magnitude < Nat.pow 2 52 then x.magnitude else Nat.pow 2 52 + x.magnitude % Nat.pow 2 52

def scale (x : Number) : Nat :=
  if x.magnitude < Nat.pow 2 52 then 0 else x.magnitude / Nat.pow 2 52 - 1

/-- Equality of values: the two zeros are equal, and a NaN equals nothing. -/
def equals (x y : Number) : Bool := !x.isNaN && !y.isNaN && x.rank == y.rank

def less (x y : Number) : Bool := !x.isNaN && !y.isNaN && decide (x.rank < y.rank)

def lessOrEqual (x y : Number) : Bool := !x.isNaN && !y.isNaN && decide (x.rank ≤ y.rank)

def toFloat (x : Number) : Float := Float.ofBits x.bits

def ofFloat (f : Float) : Number := ⟨f.toBits⟩

def add (x y : Number) : Number := ofFloat (x.toFloat + y.toFloat)

def subtract (x y : Number) : Number := ofFloat (x.toFloat - y.toFloat)

def multiply (x y : Number) : Number := ofFloat (x.toFloat * y.toFloat)

def divide (x y : Number) : Number := ofFloat (x.toFloat / y.toFloat)

def floor (x : Number) : Nat :=
  if x.scale ≤ 1074 then x.significand / Nat.pow 2 (1074 - x.scale)
  else x.significand * Nat.pow 2 (x.scale - 1074)

end Number
end CallScript
