import CallScript.Text.Bytes

/- How a terminal draws characters: their colours and attributes, which sequences in a text
   change. -/
namespace CallScript

inductive Colour where
  | basic (number : Nat)
  | palette (number : Nat)
  | direct (red green blue : Nat)
  deriving DecidableEq, Repr

structure Pen where
  bold : Bool := false
  faint : Bool := false
  italic : Bool := false
  slowBlink : Bool := false
  rapidBlink : Bool := false
  reversed : Bool := false
  concealed : Bool := false
  struck : Bool := false
  /-- The style of the line below characters, from none at 0 to dashed at 5. -/
  underline : Nat := 0
  ink : Option Colour := none
  paper : Option Colour := none
  lineInk : Option Colour := none
  deriving DecidableEq, Repr

/-- A parameter of a sequence, and whether a colon joins it to the next one. -/
structure Parameter where
  value : Option Nat
  joined : Bool
  deriving DecidableEq, Repr

namespace Parameter

def number (p : Parameter) : Nat := p.value.getD 0

def ofBytes (digits : Bytes) : Bytes → List Parameter
  | [] => [⟨value digits, false⟩]
  | c :: rest =>
    if c = ascii ':' then ⟨value digits, true⟩ :: ofBytes [] rest
    else if c = ascii ';' then ⟨value digits, false⟩ :: ofBytes [] rest
    else ofBytes (digits ++ [c]) rest
where
  value (digits : Bytes) : Option Nat :=
    if digits.isEmpty then none else some (Bytes.natValue digits)

def list (text : Bytes) : List Parameter := if text.isEmpty then [] else ofBytes [] text

end Parameter

namespace Colour

def part (p : Parameter) : Nat := p.number % 256

/-- The colour that parameters after the one that asks for it denote, and how many of them. Either
all of them are joined or none is, and joined parts may have a colour space before them. -/
def ofParameters? (first : Parameter) : List Parameter → Option (Option Colour × Nat)
  | kind :: rest =>
    let evenly := first.joined = kind.joined
    match kind.number, rest with
    | 0, _ => some (none, 1)
    | 1, _ => some (some (.direct 0 0 0), 1)
    | 2, a :: b :: c :: more =>
      let all := first.joined && kind.joined && a.joined && b.joined
      match more with
      | d :: _ =>
        if all && c.joined && !d.joined then some (some (.direct (part b) (part c) (part d)), 5)
        else threeParts all evenly a b c
      | [] => threeParts all evenly a b c
    | 5, a :: _ => if evenly && !a.joined then some (some (.palette (part a)), 2) else none
    | _, _ => none
  | [] => none
where
  threeParts (all evenly : Bool) (a b c : Parameter) : Option (Option Colour × Nat) :=
    if !c.joined && (all || (evenly && !first.joined && !a.joined && !b.joined)) then
      some (some (.direct (part a) (part b) (part c)), 4)
    else none

/-- The codes that set a colour, given the first digit of the basic ones, that of the bright ones,
and the code before others. -/
def codes (dark bright extended : Nat) : Colour → Bytes
  | .basic n =>
    if dark = 0 then Bytes.decimal extended ++ utf8 ";5;" ++ Bytes.decimal n
    else if n < 8 then Bytes.decimal (dark + n)
    else Bytes.decimal (bright + n - 8)
  | .palette n => Bytes.decimal extended ++ utf8 ";5;" ++ Bytes.decimal n
  | .direct r g b =>
    Bytes.decimal extended ++ utf8 ";2;" ++
      Bytes.join [ascii ';'] [Bytes.decimal r, Bytes.decimal g, Bytes.decimal b]

end Colour

namespace Pen

def applyCode (p : Pen) (code : Nat) : Pen :=
  match code with
  | 0 => {}
  | 1 => { p with bold := true }
  | 2 => { p with faint := true }
  | 3 => { p with italic := true }
  | 4 => { p with underline := 1 }
  | 5 => { p with slowBlink := true }
  | 6 => { p with rapidBlink := true }
  | 7 => { p with reversed := true }
  | 8 => { p with concealed := true }
  | 9 => { p with struck := true }
  | 22 => { p with bold := false, faint := false }
  | 23 => { p with italic := false }
  | 24 => { p with underline := 0 }
  | 25 => { p with slowBlink := false, rapidBlink := false }
  | 27 => { p with reversed := false }
  | 28 => { p with concealed := false }
  | 29 => { p with struck := false }
  | 39 => { p with ink := none }
  | 49 => { p with paper := none }
  | 59 => { p with lineInk := none }
  | _ =>
    if 30 ≤ code && code ≤ 37 then { p with ink := some (.basic (code - 30)) }
    else if 40 ≤ code && code ≤ 47 then { p with paper := some (.basic (code - 40)) }
    else if 90 ≤ code && code ≤ 97 then { p with ink := some (.basic (code - 82)) }
    else if 100 ≤ code && code ≤ 107 then { p with paper := some (.basic (code - 92)) }
    else p

def setColour (p : Pen) (code : Nat) (colour : Option Colour) : Pen :=
  if code = 38 then { p with ink := colour }
  else if code = 48 then { p with paper := colour }
  else { p with lineInk := colour }

def applyList (p : Pen) : Nat → List Parameter → Pen
  | _, [] => p
  | skip + 1, _ :: rest => applyList p skip rest
  | 0, first :: rest =>
    let code := first.number
    if code = 38 || code = 48 || code = 58 then
      match Colour.ofParameters? first rest with
      | some (colour, used) => applyList (p.setColour code colour) used rest
      | none => applyList p 0 rest
    else if code = 4 && first.joined then
      match rest with
      | style :: _ =>
        if style.number ≤ 5 then applyList { p with underline := style.number } 1 rest
        else applyList p 0 rest
      | [] => applyList (p.applyCode code) 0 rest
    else applyList (p.applyCode code) 0 rest

def apply (p : Pen) (parameters : List Parameter) : Pen :=
  if parameters.isEmpty then {} else p.applyList 0 parameters

def isPlain (p : Pen) : Bool := p = {}

def reset : Bytes := utf8 "\x1b[m"

def sequence (p : Pen) : Bytes :=
  let flags :=
    [(p.bold, "1"), (p.faint, "2"), (p.italic, "3"), (p.slowBlink, "5"), (p.rapidBlink, "6"),
      (p.reversed, "7"), (p.concealed, "8"), (p.struck, "9")]
  let attributes := (flags.filter Prod.fst).map fun flag => utf8 flag.2
  let underline :=
    if p.underline = 0 then []
    else if p.underline = 1 then [utf8 "4"]
    else [utf8 "4:" ++ Bytes.decimal p.underline]
  let colours := [p.ink.map (Colour.codes 30 90 38), p.paper.map (Colour.codes 40 100 48),
    p.lineInk.map (Colour.codes 0 0 58)]
  utf8 "\x1b[" ++
    Bytes.join [ascii ';'] (attributes ++ underline ++ colours.filterMap id) ++ utf8 "m"

def hidesSpaces (p : Pen) : Bool := !p.reversed && p.paper.isNone && p.underline = 0

end Pen

structure Link where
  parameters : Bytes := []
  address : Bytes := []
  deriving DecidableEq, Repr

namespace Link

def isNone (l : Link) : Bool := l = {}

def sequence (l : Link) : Bytes := utf8 "\x1b]8;" ++ l.parameters ++ utf8 ";" ++ l.address ++ [7]

def apply (l : Link) (text : Bytes) : Link :=
  match Bytes.splitAt (ascii ';') text with
  | [number, parameters, address] =>
    if Bytes.natValue (number.takeWhile Bytes.isDigit) = 8 then ⟨parameters, address⟩ else l
  | _ => l

end Link
end CallScript
