import CallScript.Program.Printer
import CallScript.Function.Definition

/- Why programs fail. A fault is the cause itself; a failure adds the chain of calls in which it
   arose. -/
namespace CallScript

inductive FaultKind where
  | unknown
  | resolution
  | lookup
  | shape
  | bounds
  | argumentCount
  | malformed
  | io
  | resource
  | cancelled
  deriving DecidableEq, Repr

namespace FaultKind

def all : List FaultKind :=
  [.unknown, .resolution, .lookup, .shape, .bounds, .argumentCount, .malformed, .io, .resource,
    .cancelled]

def name : FaultKind → Bytes
  | .unknown => utf8 "Unknown"
  | .resolution => utf8 "Function Not Found"
  | .lookup => utf8 "Variable Not Found"
  | .shape => utf8 "Unexpected Shape"
  | .bounds => utf8 "Out Of Bounds"
  | .argumentCount => utf8 "Argument Count"
  | .malformed => utf8 "Malformed Arguments"
  | .io => utf8 "IO"
  | .resource => utf8 "Resource Exhausted"
  | .cancelled => utf8 "Cancelled"

def nameOfCode (code : Int) : Bytes :=
  match code with
  | .ofNat n =>
    match all[n]? with
    | some kind => kind.name
    | none => utf8 "Unknown ErrorKind (" ++ Bytes.decimalInt code ++ utf8 ")"
  | .negSucc _ => utf8 "Unknown ErrorKind (" ++ Bytes.decimalInt code ++ utf8 ")"

end FaultKind

inductive CancelCause where
  | cancelled
  | deadline
  deriving DecidableEq, Repr

def CancelCause.text : CancelCause → Bytes
  | .cancelled => utf8 "context canceled"
  | .deadline => utf8 "context deadline exceeded"

inductive Fault where
  | functionNotFound (name : Name) (shapes : List (Option Shape))
  | variableNotFound (name : Name)
  | unexpectedShape (wanted got : Shape)
  | notANumber (text : Bytes)
  | popFromEmpty
  | indexOutOfRange (index : Number) (length : Nat)
  | operandMissing (name : Name)
  | listMissing
  | predicateMissing (name : Name)
  | cannotBind (target : Bytes)
  | cannotAssign (target : Bytes)
  | badDefinition (detail : Bytes)
  | unknownArgument (tag : Int)
  | inputBroken
  | outputFull
  | depthExceeded (limit : Nat)
  | stopped (cause : CancelCause)
  deriving DecidableEq, Repr

namespace Fault

def kind : Fault → FaultKind
  | .functionNotFound .. => .resolution
  | .variableNotFound _ => .lookup
  | .unexpectedShape .. | .notANumber _ => .shape
  | .popFromEmpty | .indexOutOfRange .. => .bounds
  | .operandMissing _ | .listMissing | .predicateMissing _ => .argumentCount
  | .cannotBind _ | .cannotAssign _ | .badDefinition _ | .unknownArgument _ => .malformed
  | .inputBroken | .outputFull => .io
  | .depthExceeded _ => .resource
  | .stopped _ => .cancelled

def shapeText : Option Shape → Bytes
  | some s => s.name
  | none => utf8 "?"

def detail : Fault → Bytes
  | .functionNotFound name shapes =>
    utf8 "function not found: " ++ Argument.callText name (shapes.map shapeText)
  | .variableNotFound name => utf8 "variable " ++ name.quote ++ utf8 " not found"
  | .unexpectedShape wanted got => utf8 "expected " ++ wanted.name ++ utf8 ", got " ++ got.name
  | .notANumber text => utf8 "cannot parse " ++ text.quote ++ utf8 " as a number"
  | .popFromEmpty => utf8 "pop from an empty list"
  | .indexOutOfRange index length =>
    utf8 "index " ++ index.render ++
      utf8 " out of range for list of length " ++ Bytes.decimal length
  | .operandMissing name => name ++ utf8 ": expected at least one argument"
  | .listMissing => utf8 "push: expected a list"
  | .predicateMissing name => name ++ utf8 ": expected a predicate"
  | .cannotBind target => utf8 "let: cannot bind to " ++ target
  | .cannotAssign target => utf8 "=: cannot assign to " ++ target
  | .badDefinition detail => detail
  | .unknownArgument tag => utf8 "unknown argument type " ++ Bytes.decimalInt tag
  | .inputBroken => utf8 "reading stdin"
  | .outputFull => utf8 "writing stdout"
  | .depthExceeded limit =>
    utf8 "maximum call depth of " ++ Bytes.decimal limit ++ utf8 " exceeded"
  | .stopped _ => utf8 "execution stopped"

def cause? : Fault → Option Bytes
  | .inputBroken => some (utf8 "stdin broken")
  | .outputFull => some (utf8 "stdout full")
  | .stopped cause => some cause.text
  | _ => none

end Fault

def maxFrames : Nat := 32

/-- A fault with the source text of the innermost call it arose in, the names of the innermost calls
around it, outermost first, and the number of the statement that failed. -/
structure Failure where
  fault : Fault
  invocation : Option Bytes
  frames : List Name
  statement : Option Nat
  deriving DecidableEq, Repr

namespace Failure

def raise (fault : Fault) : Failure := ⟨fault, none, [], none⟩

def within (f : Failure) (h : Heap) (inv : Invocation) : Failure :=
  { f with
    invocation := match f.invocation with
      | some text => some text
      | none => some (inv.render h)
    frames := if f.frames.length < maxFrames then inv.name :: f.frames else f.frames }

def coreText (f : Failure) : Bytes :=
  f.fault.kind.name ++ utf8 ": " ++ f.fault.detail ++
    (match f.fault.cause? with
      | some cause => utf8 ": " ++ cause
      | none => []) ++
    (match f.invocation with
      | some text => utf8 " in " ++ text
      | none => [])

def text (f : Failure) : Bytes :=
  (match f.statement with
    | some n => utf8 "statement " ++ Bytes.decimal n ++ utf8 ": "
    | none => []) ++
    f.frames.flatMap (fun name => utf8 "in " ++ name ++ utf8 ": ") ++ f.coreText

end Failure

def Datum.expect (read : Datum → Option α) (wanted : Shape) (d : Datum) : Except Failure α :=
  match read d with
  | some a => .ok a
  | none => .error (.raise (.unexpectedShape wanted d.shape))

namespace Scope

def lookup (s : Scope) (name : Name) : Except Failure CellId :=
  match s.find? name with
  | some c => .ok c
  | none => .error (.raise (.variableNotFound name))

def assign (s : Scope) (h : Heap) (name : Name) (d : Datum) : Except Failure Heap :=
  (s.lookup name).map fun c => h.set c d

end Scope
end CallScript
