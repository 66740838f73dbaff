import CallScript.Text.Glyph

/- White space, and a text without the white space at its ends. -/
namespace CallScript

/-- The code points with the Unicode property White_Space. -/
def isBlankCode (code : Nat) : Bool :=
  (9 ≤ code && code ≤ 13) || code == 32 || code == 0x85 || code == 0xa0 || code == 0x1680 ||
    (0x2000 ≤ code && code ≤ 0x200a) || code == 0x2028 || code == 0x2029 || code == 0x202f ||
    code == 0x205f || code == 0x3000

def Glyph.isBlank (g : Glyph) : Bool := g.code.any isBlankCode

namespace Bytes

def trim (s : Bytes) : Bytes :=
  Glyph.toText
    (((Glyph.ofText s).dropWhile Glyph.isBlank).reverse.dropWhile Glyph.isBlank).reverse

def trimSpacesRight (s : Bytes) : Bytes := (s.reverse.dropWhile (· = 32)).reverse

end Bytes
end CallScript
