import CallScript.Text.Bytes

/- A text as a sequence of glyphs: characters encoded in UTF-8, and stray bytes that belong
   to no character. Every byte of the text belongs to exactly one glyph. -/
namespace CallScript

/-- A piece of a text with its code point; a stray byte has none. -/
structure Glyph where
  bytes : Bytes
  code : Option Nat
  deriving DecidableEq, Repr

namespace Glyph

def isContinuation (c : UInt8) : Bool := 0x80 ≤ c && c ≤ 0xbf

/-- The range of second bytes that a three byte character with this first byte may have.
Overlong forms and surrogates are excluded. -/
def second3 (c : UInt8) : UInt8 × UInt8 :=
  if c = 0xe0 then (0xa0, 0xbf) else if c = 0xed then (0x80, 0x9f) else (0x80, 0xbf)

def second4 (c : UInt8) : UInt8 × UInt8 :=
  if c = 0xf0 then (0x90, 0xbf) else if c = 0xf4 then (0x80, 0x8f) else (0x80, 0xbf)

def within (range : UInt8 × UInt8) (c : UInt8) : Bool := range.1 ≤ c && c ≤ range.2

def first (c : UInt8) (rest : Bytes) : Glyph :=
  if c < 0x80 then ⟨[c], some c.toNat⟩
  else if 0xc2 ≤ c && c ≤ 0xdf then
    match rest with
    | d :: _ =>
      if isContinuation d then ⟨[c, d], some ((c.toNat % 32) * 64 + d.toNat % 64)⟩ else ⟨[c], none⟩
    | _ => ⟨[c], none⟩
  else if 0xe0 ≤ c && c ≤ 0xef then
    match rest with
    | d :: e :: _ =>
      if within (second3 c) d && isContinuation e then
        ⟨[c, d, e], some ((c.toNat % 16) * 4096 + (d.toNat % 64) * 64 + e.toNat % 64)⟩
      else ⟨[c], none⟩
    | _ => ⟨[c], none⟩
  else if 0xf0 ≤ c && c ≤ 0xf4 then
    match rest with
    | d :: e :: f :: _ =>
      if within (second4 c) d && isContinuation e && isContinuation f then
        ⟨[c, d, e, f], some ((c.toNat % 8) * 262144 + (d.toNat % 64) * 4096 +
          (e.toNat % 64) * 64 + f.toNat % 64)⟩
      else ⟨[c], none⟩
    | _ => ⟨[c], none⟩
  else ⟨[c], none⟩

def split : Nat → Bytes → List Glyph
  | _, [] => []
  | skip + 1, _ :: rest => split skip rest
  | 0, c :: rest =>
    let g := first c rest
    g :: split (g.bytes.length - 1) rest

def ofText (s : Bytes) : List Glyph := split 0 s

def toText (gs : List Glyph) : Bytes := gs.flatMap Glyph.bytes

def encode (code : Nat) : Bytes :=
  if code < 0x80 then [code.toUInt8]
  else if code < 0x800 then [(0xc0 + code / 64).toUInt8, (0x80 + code % 64).toUInt8]
  else if code < 0x10000 then
    [(0xe0 + code / 4096).toUInt8, (0x80 + code / 64 % 64).toUInt8, (0x80 + code % 64).toUInt8]
  else
    [(0xf0 + code / 262144).toUInt8, (0x80 + code / 4096 % 64).toUInt8,
      (0x80 + code / 64 % 64).toUInt8, (0x80 + code % 64).toUInt8]

end Glyph

def Bytes.isUtf8 (s : Bytes) : Bool := (Glyph.ofText s).all (·.code.isSome)

end CallScript
