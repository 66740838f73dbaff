import CallScript.Text.Quoted
import CallScript.Number.Numeral
import CallScript.Program.Basic

/- Source text becomes a program one byte at a time. The reader keeps a stack of the invocations
   whose closing parenthesis it has not seen, and the token it is in the middle of; each byte takes
   it to its next state, so reading a text in two pieces is the same as reading it whole. -/
namespace CallScript

inductive ParseFault where
  | nameExpected (found : UInt8)
  | parenthesisExpected (name : Name)
  | unclosedInvocation (name : Name)
  | unexpectedComma
  | unexpected (found : UInt8)
  | invalidNumber (text : Bytes)
  | unclosedString
  deriving DecidableEq, Repr

def ParseFault.detail : ParseFault → Bytes
  | .nameExpected found => utf8 "expected a function name, found " ++ Bytes.quoteByte found
  | .parenthesisExpected name => utf8 "expected ( after " ++ name
  | .unclosedInvocation name => utf8 "unclosed invocation of " ++ name
  | .unexpectedComma => utf8 "unexpected ,"
  | .unexpected found => utf8 "unexpected " ++ Bytes.quoteByte found
  | .invalidNumber text => utf8 "invalid number " ++ text.quote
  | .unclosedString => utf8 "unclosed quoted string"

/-- A fault and the byte offset it is reported at. It is incomplete when the text ended too early
and more of it might mend the fault. -/
structure Rejection where
  position : Nat
  fault : ParseFault
  incomplete : Bool
  deriving DecidableEq, Repr

/-- A rejection with its line and column, both counted from one, columns in bytes. -/
structure ParseError extends Rejection where
  line : Nat
  column : Nat
  deriving DecidableEq, Repr

def ParseError.message (e : ParseError) : Bytes :=
  utf8 "parse error at " ++ Bytes.decimal e.line ++ ascii ':' :: Bytes.decimal e.column ++
    utf8 ": " ++ e.fault.detail

def lineColumn (before : Bytes) : Nat × Nat :=
  before.foldl (fun (line, column) c =>
    if c = Bytes.newline then (line + 1, 1) else (line, column + 1)) (1, 1)

def Rejection.locate (text : Bytes) (r : Rejection) : ParseError :=
  let (line, column) := lineColumn (text.take r.position)
  { r with line, column }

namespace Lexical

def isSpace (c : UInt8) : Bool := c = 32 || c = 9 || c = 10 || c = 13

def isWordStart (c : UInt8) : Bool := c = ascii '_' || Bytes.isLetter c

def isWordPart (c : UInt8) : Bool := isWordStart c || Bytes.isDigit c

def operatorBytes : Bytes := utf8 "+-*/%!&|^=<>"

def isOperator (c : UInt8) : Bool := operatorBytes.contains c

def unescape (c : UInt8) : UInt8 :=
  if c = ascii 'n' then 10 else if c = ascii 't' then 9 else if c = ascii 'r' then 13 else c

end Lexical

structure OpenCall where
  name : Name
  start : Nat
  args : List Argument
  afterComma : Bool
  deriving DecidableEq, Repr

inductive Mode where
  | blank
  | comment
  | word (start : Nat) (text : Bytes)
  | operator (start : Nat) (text : Bytes)
  /-- A slash that continues the operator `text` unless another slash makes it a comment. -/
  | slash (start : Nat) (text : Bytes)
  | number (start : Nat) (text : Bytes) (fraction : Bool)
  | point (start : Nat) (text : Bytes)
  | string (start : Nat) (text : Bytes)
  | escape (start : Nat) (text : Bytes)
  deriving DecidableEq, Repr

/-- The reader after some text: the invocations read, latest first, and those still open, innermost
first. -/
structure Reader where
  position : Nat
  done : List Invocation
  stack : List OpenCall
  mode : Mode
  deriving DecidableEq, Repr

namespace Reader

open Lexical

def start : Reader := ⟨0, [], [], .blank⟩

def reject (position : Nat) (fault : ParseFault) : Except Rejection α :=
  .error ⟨position, fault, false⟩

def lacking (position : Nat) (fault : ParseFault) : Except Rejection α :=
  .error ⟨position, fault, true⟩

def addArgument (r : Reader) (a : Argument) : Reader :=
  match r.stack with
  | [] => r
  | top :: rest =>
    { r with
      stack := { top with args := a :: top.args, afterComma := false } :: rest, mode := .blank }

def openCall (r : Reader) (start : Nat) (name : Name) : Reader :=
  { r with stack := ⟨name, start, [], false⟩ :: r.stack, mode := .blank }

def close (r : Reader) : Reader :=
  match r.stack with
  | [] => r
  | [last] =>
    { r with done := ⟨last.name, last.args.reverse⟩ :: r.done, stack := [], mode := .blank }
  | inner :: outer :: rest =>
    { r with stack := outer :: rest }.addArgument (.call inner.name inner.args.reverse)

def comma (r : Reader) : Except Rejection Reader :=
  match r.stack with
  | [] => .ok r
  | top :: rest =>
    if top.args.isEmpty || top.afterComma then reject r.position .unexpectedComma
    else .ok { r with stack := { top with afterComma := true } :: rest }

/-- A name that no parenthesis follows, at the given position, is an identifier; outside of all
invocations there are none. -/
def endName (r : Reader) (position : Nat) (name : Name) : Except Rejection Reader :=
  if r.stack.isEmpty then reject position (.parenthesisExpected name)
  else .ok (r.addArgument (.ident name))

def endNumber (r : Reader) (start : Nat) (text : Bytes) : Except Rejection Reader :=
  match Number.parse? text with
  | some value => .ok (r.addArgument (.literal (.number value)))
  | none => reject start (.invalidNumber text)

def stepBlank (r : Reader) (c : UInt8) : Except Rejection Reader :=
  if isSpace c then .ok { r with mode := .blank }
  else if c = ascii '/' then .ok { r with mode := .slash r.position [] }
  else if isWordStart c then .ok { r with mode := .word r.position [c] }
  else if isOperator c then .ok { r with mode := .operator r.position [c] }
  else if r.stack.isEmpty then reject r.position (.nameExpected c)
  else if c = ascii ')' then .ok r.close
  else if c = ascii ',' then r.comma
  else if c = ascii '"' then .ok { r with mode := .string r.position [] }
  else if Bytes.isDigit c then .ok { r with mode := .number r.position [c] false }
  else reject r.position (.unexpected c)

/-- A byte after an operator. A minus sign before a digit starts a number, but only where arguments
stand. -/
def stepOperator (r : Reader) (start : Nat) (text : Bytes) (c : UInt8) : Except Rejection Reader :=
  if c = ascii '/' then .ok { r with mode := .slash start text }
  else if isOperator c then .ok { r with mode := .operator start (c :: text) }
  else if c = ascii '(' then .ok (r.openCall start text.reverse)
  else if Bytes.isDigit c && text == [ascii '-'] && !r.stack.isEmpty then
    .ok { r with mode := .number start (c :: text) false }
  else do
    let r ← r.endName r.position text.reverse
    r.stepBlank c

def stepNumber (r : Reader) (start : Nat) (text : Bytes) (fraction : Bool) (c : UInt8) :
    Except Rejection Reader :=
  if Bytes.isDigit c then .ok { r with mode := .number start (c :: text) fraction }
  else if c = ascii '.' && !fraction then .ok { r with mode := .point start text }
  else if isWordPart c || c = ascii '.' then reject start (.invalidNumber (c :: text).reverse)
  else do
    let r ← r.endNumber start text.reverse
    r.stepBlank c

def advance (r : Reader) (c : UInt8) : Except Rejection Reader :=
  match r.mode with
  | .blank => r.stepBlank c
  | .comment => .ok (if c = Bytes.newline then { r with mode := .blank } else r)
  | .word start text =>
    if isWordPart c then .ok { r with mode := .word start (c :: text) }
    else if c = ascii '(' then .ok (r.openCall start text.reverse)
    else do
      let r ← r.endName r.position text.reverse
      r.stepBlank c
  | .operator start text => r.stepOperator start text c
  | .slash start text =>
    if c = ascii '/' then
      if text.isEmpty then .ok { r with mode := .comment }
      else do
        let r ← r.endName (r.position - 1) text.reverse
        .ok { r with mode := .comment }
    else r.stepOperator start (ascii '/' :: text) c
  | .number start text fraction => r.stepNumber start text fraction c
  | .point start text =>
    if Bytes.isDigit c then .ok { r with mode := .number start (c :: ascii '.' :: text) true }
    else reject start (.invalidNumber (ascii '.' :: text).reverse)
  | .string start text =>
    if c = ascii '"' then .ok (r.addArgument (.literal (.string text.reverse)))
    else if c = ascii '\\' then .ok { r with mode := .escape start text }
    else .ok { r with mode := .string start (c :: text) }
  | .escape start text => .ok { r with mode := .string start (unescape c :: text) }

def step (r : Reader) (c : UInt8) : Except Rejection Reader := do
  let r ← r.advance c
  .ok { r with position := r.position + 1 }

def read (r : Reader) (text : Bytes) : Except Rejection Reader := text.foldlM step r

def endBlank (r : Reader) : Except Rejection Program :=
  match r.stack with
  | [] => .ok r.done.reverse
  | top :: _ => lacking top.start (.unclosedInvocation top.name)

def endInName (r : Reader) (start : Nat) (name : Name) : Except Rejection Program :=
  if r.stack.isEmpty then lacking start (.parenthesisExpected name)
  else (r.addArgument (.ident name)).endBlank

def finish (r : Reader) : Except Rejection Program :=
  match r.mode with
  | .blank | .comment => r.endBlank
  | .word start text | .operator start text => r.endInName start text.reverse
  | .slash start text => r.endInName start (ascii '/' :: text).reverse
  | .number start text _ => do
    let r ← r.endNumber start text.reverse
    r.endBlank
  | .point start text => reject start (.invalidNumber (ascii '.' :: text).reverse)
  | .string start _ | .escape start _ => lacking start .unclosedString

end Reader

namespace Program

def ofText (text : Bytes) : Except Rejection Program := do
  let r ← Reader.start.read text
  r.finish

def parse (text : Bytes) : Except ParseError Program := (ofText text).mapError (·.locate text)

end Program
end CallScript
