/- Text is a list of bytes. Most of it is UTF-8, but a program may hold any bytes,
   and positions, columns and cursors all count bytes. -/
namespace CallScript

abbrev Bytes := List UInt8

def utf8 (s : String) : Bytes := s.toByteArray.data.toList

def ascii (c : Char) : UInt8 := c.toNat.toUInt8

namespace Bytes

def newline : UInt8 := ascii '\n'

def isDigit (c : UInt8) : Bool := ascii '0' ≤ c && c ≤ ascii '9'

def isLower (c : UInt8) : Bool := ascii 'a' ≤ c && c ≤ ascii 'z'

def isUpper (c : UInt8) : Bool := ascii 'A' ≤ c && c ≤ ascii 'Z'

def isLetter (c : UInt8) : Bool := isLower c || isUpper c

def toLower (c : UInt8) : UInt8 := if isUpper c then c + 32 else c

def hexValue? (c : UInt8) : Option Nat :=
  if isDigit c then some (c.toNat - 48)
  else if ascii 'a' ≤ toLower c && toLower c ≤ ascii 'f' then some ((toLower c).toNat - 87)
  else none

def hexDigit (n : Nat) : UInt8 := (if n < 10 then 48 + n else 87 + n).toUInt8

def hex : Nat → Nat → Bytes
  | 0, _ => []
  | width + 1, n => hex width (n / 16) ++ [hexDigit (n % 16)]

def decimal (n : Nat) : Bytes := (Nat.toDigits 10 n).map ascii

def decimalInt (n : Int) : Bytes :=
  if n < 0 then ascii '-' :: decimal n.natAbs else decimal n.natAbs

def natValue (digits : Bytes) : Nat :=
  digits.foldl (fun acc c => 10 * acc + (c.toNat - 48)) 0

def splitAt (sep : UInt8) : Bytes → List Bytes
  | [] => [[]]
  | c :: rest =>
    if c = sep then [] :: splitAt sep rest
    else match splitAt sep rest with
      | [] => [[c]]
      | part :: parts => (c :: part) :: parts

def splitLast? (sep : UInt8) (s : Bytes) : Option (Bytes × Bytes) :=
  if sep ∈ s then
    let back := s.reverse
    some ((back.dropWhile (· ≠ sep)).tail.reverse, (back.takeWhile (· ≠ sep)).reverse)
  else none

def join (sep : Bytes) (parts : List Bytes) : Bytes := sep.intercalate parts

def spaces (n : Nat) : Bytes := List.replicate n 32

end Bytes
end CallScript
