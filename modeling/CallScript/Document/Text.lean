import CallScript.Text.Glyph

/- The text of a document as characters with their places. -/
namespace CallScript.Document

def isPermitted (code : Nat) : Bool :=
  code = 9 || code = 10 || code = 13 || (0x20 ≤ code && code ≤ 0x7e) || code = 0x85 ||
    (0xa0 ≤ code && code ≤ 0xd7ff) || (0xe000 ≤ code && code ≤ 0xfffd) ||
    (0x10000 ≤ code && code ≤ 0x10ffff)

def units? (littleEndian : Bool) : Bytes → Option (List Nat)
  | [] => some []
  | [_] => none
  | a :: b :: rest =>
    let unit := if littleEndian then 256 * b.toNat + a.toNat else 256 * a.toNat + b.toNat
    (units? littleEndian rest).map (unit :: ·)

def unitCodes? : List Nat → Option (List Nat)
  | [] => some []
  | [u] => if 0xd800 ≤ u && u < 0xe000 then none else some [u]
  | u :: v :: rest =>
    if 0xd800 ≤ u && u < 0xdc00 then
      if 0xdc00 ≤ v && v < 0xe000 then
        (unitCodes? rest).map ((0x10000 + 0x400 * (u - 0xd800) + (v - 0xdc00)) :: ·)
      else none
    else if 0xdc00 ≤ u && u < 0xe000 then none
    else (unitCodes? (v :: rest)).map (u :: ·)

/-- The code points of a document. The mark before the text tells how it is encoded; without one it
is UTF-8. -/
def codes? : Bytes → Option (List Nat)
  | 0xff :: 0xfe :: rest => units? true rest >>= unitCodes?
  | 0xfe :: 0xff :: rest => units? false rest >>= unitCodes?
  | 0xef :: 0xbb :: 0xbf :: rest => (Glyph.ofText rest).mapM Glyph.code
  | text => (Glyph.ofText text).mapM Glyph.code

def characters? (text : Bytes) : Option (List Char) := do
  let codes ← codes? text
  if codes.all isPermitted then some (codes.map Char.ofNat) else none

def bytesOf (text : List Char) : Bytes := text.flatMap fun c => Glyph.encode c.toNat

/-! Kinds of characters -/

def endMark : Char := '\x00'

def encodingMark : Char := Char.ofNat 0xfeff

def lineMark : Char := Char.ofNat 0x2028

def paragraphMark : Char := Char.ofNat 0x2029

def nextLine : Char := Char.ofNat 0x85

def singleQuote : Char := Char.ofNat 39

def doubleQuote : Char := Char.ofNat 34

def isBlank (c : Char) : Bool := c = ' ' || c = '\t'

def isBreak (c : Char) : Bool :=
  c = '\n' || c = '\r' || c = nextLine || c = lineMark || c = paragraphMark

def isBreakOrEnd (c : Char) : Bool := isBreak c || c = endMark

def isGap (c : Char) : Bool := isBlank c || isBreakOrEnd c

def isNameChar (c : Char) : Bool := c.isAlphanum || c = '_' || c = '-'

def breakChar (c : Char) : Char := if c = nextLine || c = '\r' then '\n' else c

/-! Places -/

structure Spot where
  char : Char
  index : Nat
  line : Nat
  column : Nat
  deriving DecidableEq, Repr

abbrev Spots := List Spot

/-- Gives characters their places. A carriage return with its newline is one break, and the end
stands on a line of its own. -/
def place (index line column : Nat) : List Char → Spots
  | [] => [⟨endMark, index, if column = 0 then line else line + 1, 0⟩]
  | '\r' :: '\n' :: rest => ⟨'\n', index, line, column⟩ :: place (index + 2) (line + 1) 0 rest
  | c :: rest =>
    if isBreak c then
      ⟨if c = '\r' then '\n' else c, index, line, column⟩ :: place (index + 1) (line + 1) 0 rest
    else ⟨c, index, line, column⟩ :: place (index + 1) line (column + 1) rest

def spots? (text : Bytes) : Option Spots := (characters? text).map (place 0 0 0)

namespace Spots

def here (s : Spots) : Spot := s.head?.getD ⟨endMark, 0, 0, 0⟩

def ahead (s : Spots) (n : Nat) : Char := (s[n]?.map Spot.char).getD endMark

def dropWhile (s : Spots) (p : Char → Bool) : Spots := List.dropWhile (fun spot => p spot.char) s

def takeWhile (s : Spots) (p : Char → Bool) : List Char :=
  (List.takeWhile (fun spot => p spot.char) s).map Spot.char

def skip (s : Spots) (n : Nat) : Spots := List.drop n s

def atLineMark (s : Spots) (c : Char) : Bool :=
  s.here.column = 0 && s.ahead 0 = c && s.ahead 1 = c && s.ahead 2 = c && isGap (s.ahead 3)

def atDocumentMark (s : Spots) : Bool := s.atLineMark '-' || s.atLineMark '.'

end Spots
end CallScript.Document
