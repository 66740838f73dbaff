import CallScript.Document.Text

/- The scalars of a document: plain ones, quoted ones, and blocks of lines. -/
namespace CallScript.Document

/-- Blanks and line breaks that are read but not yet known to stand inside a scalar. Blanks on the
last line are kept until a break makes them vanish; after a break, blanks do not count. -/
structure Gap where
  blanks : List Char := []
  broken : Bool := false
  first : Option Char := none
  further : List Char := []
  deriving Repr

namespace Gap

def isEmpty (g : Gap) : Bool := g.blanks.isEmpty && !g.broken

def addBlank (g : Gap) (c : Char) : Gap :=
  if g.broken then g else { g with blanks := g.blanks ++ [c] }

def addBreak (g : Gap) (c : Char) : Gap :=
  if g.broken then { g with further := g.further ++ [breakChar c] }
  else { blanks := [], broken := true, first := some (breakChar c) }

def text (g : Gap) : List Char :=
  if !g.broken then g.blanks
  else match g.first with
    | some '\n' => if g.further.isEmpty then [' '] else g.further
    | some c => c :: g.further
    | none => g.further

end Gap

structure Scanned where
  text : List Char
  broken : Bool
  rest : Spots
  deriving Repr

/-! Plain scalars -/

def endsInBrackets (c : Char) : Bool :=
  c = ',' || c = '?' || c = '[' || c = ']' || c = '\x7b' || c = '\x7d'

/-- Whether a plain scalar ends before its next character, which is not blank. After a gap, it also
ends at a comment, at the mark of a document, and where a line starts left of the margin. -/
def plainEnds (inBrackets : Bool) (margin : Int) (gap : Gap) (s : Spots) : Bool :=
  (!gap.isEmpty && ((!inBrackets && s.here.column < margin) || s.ahead 0 = '#')) ||
    s.atDocumentMark || (s.ahead 0 = ':' && isGap (s.ahead 1)) ||
    (inBrackets && endsInBrackets (s.ahead 0))

def plain? (inBrackets : Bool) (margin : Int) (gap : Gap) (text : List Char) :
    Spots → Option Scanned
  | [] => some ⟨text.reverse, gap.broken, []⟩
  | s :: rest =>
    if isBlank s.char then
      if gap.broken && s.char = '\t' && s.column < margin then none
      else plain? inBrackets margin (gap.addBlank s.char) text rest
    else if isBreak s.char then plain? inBrackets margin (gap.addBreak s.char) text rest
    else if s.char = endMark || plainEnds inBrackets margin gap (s :: rest) then
      some ⟨text.reverse, gap.broken, s :: rest⟩
    else plain? inBrackets margin {} (s.char :: (gap.text.reverse ++ text)) rest

/-! Quoted scalars -/

def singleQuoted? (gap : Gap) (text : List Char) : Spots → Option Scanned
  | [] => none
  | s :: rest =>
    if isBlank s.char then singleQuoted? (gap.addBlank s.char) text rest
    else if isBreak s.char then singleQuoted? (gap.addBreak s.char) text rest
    else if s.char = endMark || Spots.atDocumentMark (s :: rest) then none
    else
      let text := gap.text.reverse ++ text
      if s.char = singleQuote then
        match rest with
        | t :: more =>
          if t.char = singleQuote then singleQuoted? {} (singleQuote :: text) more
          else some ⟨text.reverse, false, rest⟩
        | [] => some ⟨text.reverse, false, []⟩
      else singleQuoted? {} (s.char :: text) rest

def escapes : List (Char × Nat) :=
  [('0', 0), ('a', 7), ('b', 8), ('t', 9), ('\t', 9), ('n', 10), ('v', 11), ('f', 12), ('r', 13),
    ('e', 27), (' ', 32), (doubleQuote, 34), (singleQuote, 39), ('\\', 92), ('N', 0x85),
    ('_', 0xa0), ('L', 0x2028), ('P', 0x2029)]

def codeWidth? (c : Char) : Option Nat :=
  if c = 'x' then some 2 else if c = 'u' then some 4 else if c = 'U' then some 8 else none

def hexValue? (c : Char) : Option Nat := if c.toNat < 128 then Bytes.hexValue? (ascii c) else none

def isCharacter (code : Nat) : Bool := code < 0x110000 && !(0xd800 ≤ code && code < 0xe000)

/-- Reads a scalar in double quotes after the opening one. While the digits of a code point are
read, `code` holds how many are missing and the value so far. -/
def doubleQuoted? (code : Option (Nat × Nat)) (gap : Gap) (text : List Char) :
    Spots → Option Scanned
  | [] => none
  | s :: rest =>
    match code with
    | some (missing, value) => do
      let value := 16 * value + (← hexValue? s.char)
      if 1 < missing then doubleQuoted? (some (missing - 1, value)) {} text rest
      else if isCharacter value then doubleQuoted? none {} (Char.ofNat value :: text) rest
      else none
    | none =>
      if isBlank s.char then doubleQuoted? none (gap.addBlank s.char) text rest
      else if isBreak s.char then doubleQuoted? none (gap.addBreak s.char) text rest
      else if s.char = endMark || Spots.atDocumentMark (s :: rest) then none
      else
        let text := gap.text.reverse ++ text
        if s.char = doubleQuote then some ⟨text.reverse, false, rest⟩
        else if s.char = '\\' then
          match rest with
          | [] => none
          | t :: more =>
            if isBreak t.char then doubleQuoted? none { broken := true } text more
            else match codeWidth? t.char, escapes.lookup t.char with
              | some width, _ => doubleQuoted? (some (width, 0)) {} text more
              | none, some value => doubleQuoted? none {} (Char.ofNat value :: text) more
              | none, none => none
        else doubleQuoted? none {} (s.char :: text) rest

/-! Blocks of lines -/

inductive Chomping where
  | strip
  | clip
  | keep
  deriving DecidableEq, Repr

structure BlockHeader where
  chomping : Chomping := .clip
  depth : Option Nat := none
  deriving Repr

def chomping? (c : Char) : Option Chomping :=
  if c = '+' then some .keep else if c = '-' then some .strip else none

def depth? (s : Spots) : Option (Option Nat × Spots) :=
  let c := s.ahead 0
  if c = '0' then none
  else if c.isDigit then some (some (c.toNat - 48), s.skip 1)
  else some (none, s)

def blockHeader? (s : Spots) : Option (BlockHeader × Spots) := do
  let (header, s) ← match chomping? (s.ahead 0) with
    | some chomping => do
      let (depth, s) ← depth? (s.skip 1)
      some (({ chomping, depth } : BlockHeader), s)
    | none => do
      let (depth, s) ← depth? s
      match depth, chomping? (s.ahead 0) with
      | some _, some chomping => some (({ chomping, depth } : BlockHeader), s.skip 1)
      | _, _ => some (({ depth } : BlockHeader), s)
  let s := s.dropWhile isBlank
  let s := if s.ahead 0 = '#' then s.dropWhile fun c => !isBreakOrEnd c else s
  if isBreak (s.ahead 0) then some (header, s.skip 1)
  else if s.ahead 0 = endMark then some (header, s)
  else none

/-- Reads the blank lines before a block, and finds the deepest column that they or the first line
reach. -/
def blockMargin? (margin : Nat) (deepest : Nat) (breaks : List Char) :
    Spots → Option (Nat × List Char × Spots)
  | [] => some (deepest, breaks, [])
  | s :: rest =>
    let inMargin := margin = 0 || s.column < margin
    if s.char = ' ' && inMargin then blockMargin? margin deepest breaks rest
    else
      let deepest := max deepest s.column
      if s.char = '\t' && inMargin then none
      else if isBreak s.char then blockMargin? margin deepest (breaks ++ [breakChar s.char]) rest
      else some (deepest, breaks, s :: rest)

/-- A block while it is read: its text so far, the break after its last line, the blank lines after
that, and whether its last line started with a blank. -/
structure BlockText where
  text : List Char := []
  lead : List Char := []
  trail : List Char := []
  indented : Bool := false
  deriving Repr

namespace BlockText

/-- Starts a line. In a folded block a newline between two lines becomes a space, unless one of
them starts with a blank. -/
def startLine (b : BlockText) (folded : Bool) (c : Char) : BlockText :=
  let lead :=
    if folded && !b.indented && !isBlank c && b.lead.head? = some '\n' then
      if b.trail.isEmpty then [' '] else []
    else b.lead
  { text := c :: ((lead ++ b.trail).reverse ++ b.text), indented := isBlank c }

def finish (b : BlockText) (chomping : Chomping) : List Char :=
  b.text.reverse ++ match chomping with
    | .strip => []
    | .clip => b.lead
    | .keep => b.lead ++ b.trail

end BlockText

def blockLines? (folded : Bool) (margin : Nat) (inLine : Bool) (b : BlockText) :
    Spots → Option (BlockText × Spots)
  | [] => some (b, [])
  | s :: rest =>
    if inLine then
      if isBreak s.char then
        blockLines? folded margin false { b with lead := [breakChar s.char] } rest
      else if s.char = endMark then some (b, s :: rest)
      else blockLines? folded margin true { b with text := s.char :: b.text } rest
    else if s.char = ' ' && s.column < margin then blockLines? folded margin false b rest
    else if s.char = '\t' && s.column < margin then none
    else if isBreak s.char then
      blockLines? folded margin false { b with trail := b.trail ++ [breakChar s.char] } rest
    else if s.column = margin && s.char ≠ endMark then
      blockLines? folded margin true (b.startLine folded s.char) rest
    else some (b, s :: rest)

def block? (folded : Bool) (indent : Int) (s : Spots) : Option Scanned := do
  let (header, s) ← blockHeader? s
  let said := match header.depth with
    | some depth => (max indent 0).toNat + depth
    | none => 0
  let (deepest, breaks, s) ← blockMargin? said 0 [] s
  let margin := if said = 0 then max deepest (max (indent + 1) 1).toNat else said
  let (b, s) ← blockLines? folded margin false { trail := breaks } s
  some ⟨b.finish header.chomping, true, s⟩

end CallScript.Document
