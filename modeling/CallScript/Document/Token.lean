import CallScript.Document.Scalar

/- The tokens of a document. Indentation shows where collections start and end, and whether a
   node is the key of a mapping is known only when the colon after it is read. -/
namespace CallScript.Document

inductive Token where
  | streamEnd
  | version (major minor : Nat)
  | tagHandle (handle expansion : List Char)
  | documentStart
  | documentEnd
  | blockSequence
  | blockMapping
  | blockEnd
  | sequenceStart
  | sequenceEnd
  | mappingStart
  | mappingEnd
  | entry
  | comma
  | key
  | value
  | reference (name : List Char)
  | anchor (name : List Char)
  | tag (handle suffix : List Char)
  | scalar (text : List Char) (plain : Bool)
  deriving DecidableEq, Repr

/-! Names, tags and directives -/

def name? (s : Spots) : Option (List Char × Spots) :=
  let name := s.takeWhile isNameChar
  let rest := s.skip name.length
  let c := rest.ahead 0
  if name.isEmpty then none
  else if isGap c || ['?', ':', ',', ']', '\x7d', '%', '@', Char.ofNat 96].contains c then
    some (name, rest)
  else none

def isAddressChar (c : Char) : Bool :=
  isNameChar c || (";/?:@&=+$,.%!~*()[]".toList).contains c || c = singleQuote

def encodedLength? (first : Nat) : Option Nat :=
  if first < 0x80 then some 1
  else if 0xc0 ≤ first && first < 0xe0 then some 2
  else if 0xe0 ≤ first && first < 0xf0 then some 3
  else if 0xf0 ≤ first && first < 0xf8 then some 4
  else none

def escapedByte? : Spots → Option (Nat × Spots)
  | p :: a :: b :: rest => do
    if p.char ≠ '%' then none
    else some (16 * (← hexValue? a.char) + (← hexValue? b.char), rest)
  | _ => none

def escapedTail? : Nat → Nat → Spots → Option (Nat × Spots)
  | 0, code, s => some (code, s)
  | missing + 1, code, s => do
    let (byte, s) ← escapedByte? s
    if byte / 64 = 2 then escapedTail? missing (64 * code + byte % 64) s else none

def escapedChar? (s : Spots) : Option (Char × Spots) := do
  let (first, s) ← escapedByte? s
  let length ← encodedLength? first
  let low := if length = 1 then first else first % Nat.pow 2 (7 - length)
  let (code, s) ← escapedTail? (length - 1) low s
  some (Char.ofNat code, s)

def address? : Nat → Spots → Option (List Char × Spots)
  | 0, s => some ([], s)
  | fuel + 1, s =>
    let c := s.ahead 0
    if !isAddressChar c then some ([], s)
    else do
      let (c, s) ← if c = '%' then escapedChar? s else some (c, s.skip 1)
      let (more, s) ← address? fuel s
      some (c :: more, s)

def handle (s : Spots) : List Char × Spots :=
  let name := (s.skip 1).takeWhile isNameChar
  let rest := s.skip (name.length + 1)
  if rest.ahead 0 = '!' then ('!' :: name ++ ['!'], rest.skip 1) else ('!' :: name, rest)

def tag? (s : Spots) : Option (Token × Spots) := do
  let (token, s) ←
    if s.ahead 1 = '<' then do
      let (address, s) ← address? s.length (s.skip 2)
      if address.isEmpty || s.ahead 0 ≠ '>' then none else some (Token.tag [] address, s.skip 1)
    else do
      let (head, s) := handle s
      let (suffix, s) ← address? s.length s
      if 1 < head.length && head.getLast? = some '!' then
        if suffix.isEmpty then none else some (Token.tag head suffix, s)
      else
        let suffix := head.tail ++ suffix
        some (if suffix.isEmpty then Token.tag [] ['!'] else Token.tag ['!'] suffix, s)
  if isGap (s.ahead 0) then some (token, s) else none

def smallNumber? (s : Spots) : Option (Nat × Spots) :=
  let digits := s.takeWhile Char.isDigit
  if digits.isEmpty || 2 < digits.length then none
  else some (digits.foldl (fun n c => 10 * n + (c.toNat - 48)) 0, s.skip digits.length)

def version? (s : Spots) : Option (Token × Spots) := do
  let (major, s) ← smallNumber? (s.dropWhile isBlank)
  if s.ahead 0 ≠ '.' then none
  else
    let (minor, s) ← smallNumber? (s.skip 1)
    some (.version major minor, s)

def tagHandle? (s : Spots) : Option (Token × Spots) := do
  let s := s.dropWhile isBlank
  if s.ahead 0 ≠ '!' then none
  else
    let (head, s) := handle s
    if head ≠ ['!'] && head.getLast? ≠ some '!' then none
    else if !isBlank (s.ahead 0) then none
    else
      let s := s.dropWhile isBlank
      let (address, s) ← address? s.length s
      if address.isEmpty || !isGap (s.ahead 0) then none else some (.tagHandle head address, s)

def directive? (s : Spots) : Option (Token × Spots) := do
  let s := s.skip 1
  let name := s.takeWhile isNameChar
  let s := s.skip name.length
  if name.isEmpty || !isGap (s.ahead 0) then none
  else
    let (token, s) ←
      if name = "YAML".toList then version? s
      else if name = "TAG".toList then tagHandle? s
      else none
    let s := s.dropWhile isBlank
    let s := if s.ahead 0 = '#' then s.dropWhile fun c => !isBreakOrEnd c else s
    if isBreak (s.ahead 0) then some (token, s.skip 1)
    else if s.ahead 0 = endMark then some (token, s)
    else none

/-! Between tokens -/

inductive Between where
  | gap
  | comment
  | comments
  deriving DecidableEq

def lookahead : Nat := 512

def commentFollows (s : Spots) : Bool :=
  let gap := s.takeWhile fun c => isBlank c || c = '\n'
  s.ahead 0 = '\n' && gap.length < lookahead && s.ahead gap.length = '#'

/-- Drops blanks, comments and line breaks before a token. Outside of brackets a tab cannot stand
where a key could start, a line that starts with one is accepted only between comments, and a new
line may start with a key. -/
def dropBetween (inBrackets : Bool) : Between → Bool → Spots → Bool × Spots
  | _, keyAllowed, [] => (keyAllowed, [])
  | .gap, keyAllowed, s :: rest =>
    if (s.char = encodingMark && s.column = 0) || s.char = ' ' ||
        (s.char = '\t' && (inBrackets || !keyAllowed)) then
      dropBetween inBrackets .gap keyAllowed rest
    else if s.char = '#' then dropBetween inBrackets .comment keyAllowed rest
    else if isBreak s.char then dropBetween inBrackets .gap (keyAllowed || !inBrackets) rest
    else (keyAllowed, s :: rest)
  | .comment, keyAllowed, s :: rest =>
    if isBreak s.char then
      if commentFollows (s :: rest) then dropBetween inBrackets .comments keyAllowed rest
      else dropBetween inBrackets .gap (keyAllowed || !inBrackets) rest
    else if s.char = endMark then (keyAllowed, s :: rest)
    else dropBetween inBrackets .comment keyAllowed rest
  | .comments, keyAllowed, s :: rest =>
    dropBetween inBrackets (if s.char = '#' then .comment else .comments) keyAllowed rest

def dropLineComment (s : Spots) : Spots :=
  let blanks := s.takeWhile isBlank
  if blanks.length < lookahead && s.ahead blanks.length = '#' then
    (s.skip blanks.length).dropWhile fun c => !isBreakOrEnd c
  else s

/-! The tokens in order -/

/-- A token that is a key if a colon follows. A required one can be nothing else. The token is held
back until that is known, if it is awaited. -/
structure KeyPlace where
  token : Nat
  required : Bool
  start : Spot
  awaited : Bool := true
  deriving Repr

def longestKey : Nat := 1024

/-- Whether a colon here would still belong to the key: keys end on the line where they start. -/
def KeyPlace.stands (k : KeyPlace) (here : Spot) : Bool :=
  here.line ≤ k.start.line && here.index ≤ k.start.index + longestKey

/-- The place for a key inside of a bracket. The number is that of the last token that could be a
key, at first that of the bracket itself. -/
structure Level where
  key : Option KeyPlace := none
  number : Nat := 0
  deriving Repr

def Level.release (l : Level) (number : Nat) : Level :=
  { l with key := l.key.map fun k => if k.token = number then { k with awaited := false } else k }

def deepest : Nat := 10000

/-- The tokens of a document and what is left of its text. The tokens in the queue are read, but
not yet taken; `taken` counts those that are. Each bracket that is open has a place for a key, the
innermost first. -/
structure Tokens where
  text : Spots
  queue : List Token := []
  taken : Nat := 0
  indent : Int := -1
  outerIndents : List Int := []
  keys : List Level := [{}]
  keyAllowed : Bool := true
  deriving Repr

namespace Tokens

def inBrackets (t : Tokens) : Bool := 1 < t.keys.length

def here (t : Tokens) : Spot := t.text.here

def push (t : Tokens) (token : Token) : Tokens := { t with queue := t.queue ++ [token] }

def insertAt (t : Tokens) (number : Nat) (token : Token) : Tokens :=
  if number < t.taken then t.push token
  else { t with queue := t.queue.insertIdx (number - t.taken) token }

def closeTo (t : Tokens) (column : Int) : Tokens :=
  if t.inBrackets then t
  else close t.indent t.outerIndents t.queue
where
  close (indent : Int) : List Int → List Token → Tokens
    | [], queue => { t with indent, outerIndents := [], queue }
    | outer :: rest, queue =>
      if column < indent then close outer rest (queue ++ [.blockEnd])
      else { t with indent, outerIndents := outer :: rest, queue }

def openAt (t : Tokens) (column : Nat) (number : Nat) (token : Token) : Option Tokens :=
  if t.inBrackets || (column : Int) ≤ t.indent then some t
  else if deepest ≤ t.outerIndents.length then none
  else
    let inner := { t with indent := column, outerIndents := t.indent :: t.outerIndents }
    some (inner.insertAt number token)

def nextNumber (t : Tokens) : Nat := t.taken + t.queue.length

def dropKey (t : Tokens) : Option Tokens :=
  match t.keys with
  | ⟨some k, number⟩ :: rest =>
    if k.required then none else some { t with keys := ⟨none, number⟩ :: rest }
  | _ => some t

def saveKey (t : Tokens) : Option Tokens :=
  if t.keyAllowed then do
    let place : KeyPlace :=
      { token := t.nextNumber, required := !t.inBrackets && t.indent = (t.here.column : Int),
        start := t.here }
    let t ← t.dropKey
    some { t with keys := ⟨some place, t.nextNumber⟩ :: t.keys.tail }
  else some t

def pushChar (t : Tokens) (token : Token) : Tokens := { t.push token with text := t.text.skip 1 }

def streamEnd (t : Tokens) : Option Tokens := do
  let t ← (t.closeTo (-1)).dropKey
  some ({ t with keyAllowed := false }.push .streamEnd)

def directive (t : Tokens) : Option Tokens := do
  let t ← (t.closeTo (-1)).dropKey
  let (token, text) ← directive? t.text
  some ({ t with keyAllowed := false, text }.push token)

def documentMark (t : Tokens) (token : Token) : Option Tokens := do
  let t ← (t.closeTo (-1)).dropKey
  some ({ t with keyAllowed := false, text := t.text.skip 3 }.push token)

def bracketStart (t : Tokens) (token : Token) : Option Tokens := do
  let t ← t.saveKey
  if deepest < t.keys.length then none
  else
    let inner := { t with keys := { number := t.nextNumber } :: t.keys, keyAllowed := true }
    some (inner.pushChar token)

def bracketEnd (t : Tokens) (token : Token) : Option Tokens := do
  let t ← t.dropKey
  let keys := match t.keys with
    | inner :: outer :: rest => (outer :: rest).map (·.release inner.number)
    | keys => keys
  some ({ t with keys, keyAllowed := false }.pushChar token)

def comma (t : Tokens) : Option Tokens := do
  let t ← t.dropKey
  some ({ t with keyAllowed := true }.pushChar .comma)

def entry (t : Tokens) : Option Tokens := do
  let t ←
    if t.inBrackets then some t
    else if t.keyAllowed then t.openAt t.here.column t.nextNumber .blockSequence
    else none
  let t ← t.dropKey
  some ({ t with keyAllowed := true }.pushChar .entry)

def key (t : Tokens) : Option Tokens := do
  let t ←
    if t.inBrackets then some t
    else if t.keyAllowed then t.openAt t.here.column t.nextNumber .blockMapping
    else none
  let t ← t.dropKey
  some ({ t with keyAllowed := !t.inBrackets }.pushChar .key)

def bareValue (t : Tokens) : Option Tokens := do
  let t ←
    if t.inBrackets then some t
    else if t.keyAllowed then t.openAt t.here.column t.nextNumber .blockMapping
    else none
  some { t with keyAllowed := !t.inBrackets }

def value (t : Tokens) : Option Tokens := do
  let t ← match t.keys with
    | ⟨some k, number⟩ :: rest =>
      if k.stands t.here then
        let t := t.insertAt k.token .key
        let t ← t.openAt k.start.column k.token .blockMapping
        some { t with keys := ⟨none, number⟩ :: rest, keyAllowed := false }
      else if k.required then none
      else bareValue { t with keys := ⟨none, number⟩ :: rest }
    | _ => t.bareValue
  some (t.pushChar .value)

def node (t : Tokens) (read : Spots → Option (Token × Spots)) : Option Tokens := do
  let t ← t.saveKey
  let (token, text) ← read t.text
  some ({ t with keyAllowed := false, text }.push token)

def quoted (t : Tokens) (read : Spots → Option Scanned) : Option Tokens :=
  t.node fun s => (read (s.skip 1)).map fun found => (.scalar found.text false, found.rest)

def plain (t : Tokens) : Option Tokens := do
  let t ← t.saveKey
  let found ← plain? t.inBrackets (t.indent + 1) {} [] t.text
  some ({ t with keyAllowed := found.broken, text := found.rest }.push (.scalar found.text true))

def block (t : Tokens) (folded : Bool) : Option Tokens := do
  let t ← t.dropKey
  let found ← block? folded t.indent (t.text.skip 1)
  some ({ t with keyAllowed := true, text := found.rest }.push (.scalar found.text false))

/-- Characters that do not start a plain scalar. A dash, a question mark and a colon do if more
follows. -/
def isIndicator (c : Char) : Bool :=
  ("-?:,[]#&*!|>%@".toList).contains c || c = '\x7b' || c = '\x7d' || c = singleQuote ||
    c = doubleQuote || c = Char.ofNat 96

def startsPlain (t : Tokens) : Bool :=
  let c := t.text.ahead 0
  let d := t.text.ahead 1
  !(isGap c || isIndicator c) || (c = '-' && !isBlank d) ||
    (!t.inBrackets && (c = '?' || c = ':') && !isGap d)

def readToken (t : Tokens) : Option Tokens :=
  let c := t.text.ahead 0
  let loose := t.inBrackets || isGap (t.text.ahead 1)
  if c = '[' then t.bracketStart .sequenceStart
  else if c = '\x7b' then t.bracketStart .mappingStart
  else if c = ']' then t.bracketEnd .sequenceEnd
  else if c = '\x7d' then t.bracketEnd .mappingEnd
  else if c = ',' then t.comma
  else if c = '-' && isGap (t.text.ahead 1) then t.entry
  else if c = '?' && loose then t.key
  else if c = ':' && loose then t.value
  else if c = '*' then t.node fun s => (name? (s.skip 1)).map fun (name, s) => (.reference name, s)
  else if c = '&' then t.node fun s => (name? (s.skip 1)).map fun (name, s) => (.anchor name, s)
  else if c = '!' then t.node tag?
  else if c = '|' && !t.inBrackets then t.block false
  else if c = '>' && !t.inBrackets then t.block true
  else if c = singleQuote then t.quoted (singleQuoted? {} [])
  else if c = doubleQuote then t.quoted (doubleQuoted? none {} [])
  else if t.startsPlain then t.plain
  else none

/-- Whether the last token is a scalar after which line breaks were read: only after these can a
key follow it. -/
def passedBreak (t : Tokens) : Bool :=
  match t.queue.getLast? with
  | some (.scalar _ _) => t.keyAllowed
  | _ => false

def read (t : Tokens) : Option Tokens := do
  let (keyAllowed, text) := dropBetween t.inBrackets .gap t.keyAllowed t.text
  let t := { t with keyAllowed, text }.closeTo text.here.column
  if text.ahead 0 = endMark then t.streamEnd
  else if text.here.column = 0 && text.ahead 0 = '%' then t.directive
  else if text.atLineMark '-' then t.documentMark .documentStart
  else if text.atLineMark '.' then t.documentMark .documentEnd
  else
    let after ← t.readToken
    if after.queue.getLast? = some .entry || after.passedBreak then some after
    else some { after with text := dropLineComment after.text }

def awaitsNext (t : Tokens) (l : Level) : Bool := l.key.any fun k => k.awaited && k.token = t.taken

def nextKey? (t : Tokens) : Option KeyPlace := t.keys.find? t.awaitsNext >>= Level.key

def forgetNextKey (t : Tokens) : Tokens :=
  { t with keys := t.keys.map fun l => if t.awaitsNext l then { l with key := none } else l }

/-- Reads ahead until the next token is known: two more follow it in the queue, and no key can
start with it. The first argument bounds the tokens to read. -/
def fill : Nat → Tokens → Option Tokens
  | 0, _ => none
  | fuel + 1, t =>
    if t.queue.length ≤ 2 then t.read >>= fill fuel
    else match t.nextKey? with
      | none => some t
      | some k =>
        if k.stands t.here then t.read >>= fill fuel
        else if k.required then none
        else some t.forgetNextKey

def peek? (t : Tokens) : Option (Token × Tokens) := do
  let t ← t.fill (t.text.length + 4)
  some (← t.queue.head?, t)

def tail (t : Tokens) : Tokens := { t with queue := t.queue.tail, taken := t.taken + 1 }

end Tokens
end CallScript.Document
