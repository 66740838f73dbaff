import CallScript.Text.Glyph
import CallScript.Text.Printable

/- Quoted text: printable characters stand for themselves, all others are written as escapes. Which
   characters are printable is a matter of the edition of the character tables, and so a
   parameter. -/
namespace CallScript

def escapeLetter? (code : Nat) : Option UInt8 :=
  match code with
  | 7 => some (ascii 'a')
  | 8 => some (ascii 'b')
  | 9 => some (ascii 't')
  | 10 => some (ascii 'n')
  | 11 => some (ascii 'v')
  | 12 => some (ascii 'f')
  | 13 => some (ascii 'r')
  | _ => none

def quoteCode (printable : Nat → Bool) (mark : UInt8) (code : Nat) : Bytes :=
  if code = mark.toNat || code = 92 then [92, code.toUInt8]
  else if printable code then Glyph.encode code
  else match escapeLetter? code with
    | some letter => [92, letter]
    | none =>
      if code < 0x20 || code = 0x7f then 92 :: ascii 'x' :: Bytes.hex 2 code
      else if code < 0x10000 then 92 :: ascii 'u' :: Bytes.hex 4 code
      else 92 :: ascii 'U' :: Bytes.hex 8 code

def quoteGlyph (printable : Nat → Bool) (mark : UInt8) (g : Glyph) : Bytes :=
  match g.code with
  | some code => quoteCode printable mark code
  | none => g.bytes.flatMap fun c => 92 :: ascii 'x' :: Bytes.hex 2 c.toNat

namespace Bytes

def quote (s : Bytes) (printable : Nat → Bool := isPrintable) : Bytes :=
  34 :: (Glyph.ofText s).flatMap (quoteGlyph printable 34) ++ [34]

def quoteByte (c : UInt8) : Bytes := 39 :: quoteCode isPrintable 39 c.toNat ++ [39]

end Bytes
end CallScript
