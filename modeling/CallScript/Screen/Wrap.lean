import CallScript.Screen.Pen
import CallScript.Screen.Width

/- Text broken into lines that fit a width. Lines end at spaces and after hyphens where they
   can. A style or a link that is open at the end of a line is closed there and opened again on
   the next. -/
namespace CallScript

inductive SequencePart where
  | escape
  | markers (device : Bool)
  | parameters (device : Bool)
  | middle (device : Bool)
  | string (command : Bool)
  deriving DecidableEq, Repr

namespace SequencePart

/-- What a byte after the introducer of a sequence does: it goes on in some part, or it is the last
one. Other bytes do not belong to the sequence. -/
def step (part : SequencePart) (c : UInt8) : Option (Option SequencePart) :=
  let inMiddle (device : Bool) :=
    if 0x20 ≤ c && c ≤ 0x2f then some (some (.middle device))
    else if 0x40 ≤ c && c ≤ 0x7e then some (if device then some (.string false) else none)
    else none
  let inParameters (device : Bool) :=
    if Bytes.isDigit c || c = ascii ';' || c = ascii ':' then some (some (.parameters device))
    else inMiddle device
  match part with
  | .escape =>
    if c = ascii '[' then some (some (.markers false))
    else if c = ascii 'P' then some (some (.markers true))
    else if c = ascii ']' then some (some (.string true))
    else if c = ascii 'X' || c = ascii '^' || c = ascii '_' then some (some (.string false))
    else if 0x20 ≤ c && c ≤ 0x2f then some (some .escape)
    else if 0x30 ≤ c && c ≤ 0x7e then some none
    else none
  | .markers device =>
    if 0x3c ≤ c && c ≤ 0x3f then some (some (.markers device)) else inParameters device
  | .parameters device => inParameters device
  | .middle device => inMiddle device
  | .string command =>
    if c = 0x18 || c = 0x1a then none
    else if c = 0x9c || (c = 0x07 && command) then some none
    else some (some (.string command))

end SequencePart

namespace Glyph

def firstByte (g : Glyph) : UInt8 := g.bytes.head?.getD 0

def sequenceTail (part : SequencePart) : List Glyph → List Glyph
  | [] => []
  | g :: rest =>
    match part, g.firstByte, rest with
    | .string _, 0x1b, next :: _ => if next.firstByte = 0x5c then [g, next] else []
    | .string _, 0x1b, [] => []
    | _, c, _ =>
      match part.step c with
      | none => []
      | some none => [g]
      | some (some next) => g :: sequenceTail next rest

def clusterTail (cluster : OpenCluster) : List Glyph → List Glyph × Nat
  | [] => ([], cluster.width)
  | g :: rest =>
    match cluster.grow? g with
    | some grown =>
      let (more, width) := clusterTail grown rest
      (g :: more, width)
    | none => ([], cluster.width)

end Glyph

structure Piece where
  glyphs : List Glyph
  width : Nat
  deriving DecidableEq, Repr

namespace Piece

def bytes (p : Piece) : Bytes := Glyph.toText p.glyphs

def introduced? (c : UInt8) : Option SequencePart :=
  if c = 0x1b then some .escape
  else if c = 0x9b then some (.markers false)
  else if c = 0x90 then some (.markers true)
  else if c = 0x9d then some (.string true)
  else if c = 0x98 || c = 0x9e || c = 0x9f then some (.string false)
  else none

def first (g : Glyph) (rest : List Glyph) : Piece :=
  match introduced? g.firstByte with
  | some part => ⟨g :: Glyph.sequenceTail part rest, 0⟩
  | none =>
    if g.isDrawn then ⟨[g], 1⟩
    else if g.firstByte < 0xc0 then ⟨[g], 0⟩
    else
      let (more, width) := Glyph.clusterTail (.start g) rest
      ⟨g :: more, width⟩

def split : Nat → List Glyph → List Piece
  | _, [] => []
  | skip + 1, _ :: rest => split skip rest
  | 0, g :: rest =>
    let p := first g rest
    p :: split (p.glyphs.length - 1) rest

def ofText (s : Bytes) : List Piece := split 0 (Glyph.ofText s)

def body? (byte : UInt8) (letter : Char) (p : Piece) : Option Bytes :=
  match p.bytes with
  | 0x1b :: c :: rest => if c = ascii letter then some rest else none
  | c :: rest => if c = byte then some rest else none
  | [] => none

def penParameters? (p : Piece) : Option (List Parameter) := do
  let body ← p.body? 0x9b '['
  let parameters := body.dropLast
  if body.getLast? = some (ascii 'm') &&
      parameters.all fun c => Bytes.isDigit c || c = ascii ';' || c = ascii ':' then
    some (Parameter.list parameters)
  else none

def command? (p : Piece) : Option Bytes := do
  let body ← p.body? 0x9d ']'
  some (body.takeWhile fun c => c ≠ 0x07 && c ≠ 0x1b && c ≠ 0x9c)

end Piece

/-- A text while it is broken into lines. The word and the spaces before it are not yet written;
the pen and the link are those of the last word that is. -/
structure Wrapping where
  out : Bytes := []
  spaces : Bytes := []
  word : Bytes := []
  wordWidth : Nat := 0
  column : Nat := 0
  pen : Pen := {}
  link : Link := {}
  writtenPen : Pen := {}
  writtenLink : Link := {}

namespace Wrapping

def writeSpaces (w : Wrapping) : Wrapping :=
  { w with out := w.out ++ w.spaces, column := w.column + w.spaces.length, spaces := [] }

def writeWord (w : Wrapping) : Wrapping :=
  if w.word.isEmpty then w
  else
    let w := { w with writtenPen := w.pen, writtenLink := w.link }.writeSpaces
    { w with out := w.out ++ w.word, column := w.column + w.wordWidth, word := [], wordWidth := 0 }

def breakLine (w : Wrapping) : Wrapping :=
  let closing := (if w.writtenPen.isPlain then [] else Pen.reset) ++
    if w.writtenLink.isNone then [] else Link.sequence {}
  let opening := (if w.writtenLink.isNone then [] else w.writtenLink.sequence) ++
    if w.writtenPen.isPlain then [] else w.writtenPen.sequence
  { w with out := w.out ++ closing ++ Bytes.newline :: opening, column := 0, spaces := [] }

def writeLastSpaces (limit : Nat) (w : Wrapping) : Wrapping :=
  if w.wordWidth = 0 then
    if limit < w.column + w.spaces.length then { w with column := 0, spaces := [] }
    else { w with out := w.out ++ w.spaces, spaces := [] }
  else w

def addControl (limit : Nat) (w : Wrapping) (p : Piece) : Wrapping :=
  if p.bytes = [Bytes.newline] then ((w.writeLastSpaces limit).writeWord).breakLine
  else
    let w := match p.penParameters?, p.command? with
      | some parameters, _ => { w with pen := w.pen.apply parameters }
      | none, some text => { w with link := w.link.apply text }
      | none, none => w
    { w with word := w.word ++ p.bytes }

/-- A piece that becomes part of the word. A word that is wider than a line is cut. -/
def addToWord (limit : Nat) (w : Wrapping) (p : Piece) : Wrapping :=
  let w := if limit < w.wordWidth + p.width then w.writeWord else w
  let w := { w with word := w.word ++ p.bytes, wordWidth := w.wordWidth + p.width }
  if limit < w.column + w.wordWidth + w.spaces.length then w.breakLine else w

def add (limit : Nat) (w : Wrapping) (p : Piece) : Wrapping :=
  if p.width = 0 then w.addControl limit p
  else if p.bytes = [32] && w.pen.hidesSpaces then
    let w := w.writeWord
    { w with spaces := w.spaces ++ [32] }
  else if p.bytes = [ascii '-'] then
    let w := w.writeSpaces
    if limit < w.column + w.wordWidth + p.width then w.addToWord limit p
    else
      let w := w.writeWord
      { w with out := w.out ++ p.bytes, column := w.column + p.width }
  else w.addToWord limit p

def finish (limit : Nat) (w : Wrapping) : Bytes :=
  let w := (w.writeLastSpaces limit).writeWord
  w.out ++ (if w.writtenLink.isNone then [] else Link.sequence {}) ++
    if w.writtenPen.isPlain then [] else Pen.reset

end Wrapping

def Bytes.wrap (limit : Nat) (s : Bytes) : Bytes :=
  if limit = 0 then s else ((Piece.ofText s).foldl (Wrapping.add limit) {}).finish limit

end CallScript
