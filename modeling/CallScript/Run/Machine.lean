import CallScript.Function.Registry
import CallScript.Run.Fault

/- The state of a running program, and computations that change it. A computation ends with a value,
   or stops; the state it stopped in is kept. -/
namespace CallScript

structure Console where
  input : Bytes
  /-- Whether reading past the input is an error instead of its end. -/
  inputBreaks : Bool
  capacity : Option Int
  written : List Bytes
  size : Nat
  deriving DecidableEq, Repr

namespace Console

def ofInput (input : Bytes) : Console := ⟨input, false, none, [], 0⟩

def output (c : Console) : Bytes := c.written.reverse.flatten

/-- The next line with its newline, or what is left of the input. A line that a broken input cuts
off is lost. -/
def readLine (c : Console) : Option Bytes × Console :=
  match c.input.dropWhile (· ≠ Bytes.newline) with
  | _ :: rest =>
    (some (c.input.takeWhile (· ≠ Bytes.newline) ++ [Bytes.newline]), { c with input := rest })
  | [] => (if c.inputBreaks then none else some c.input, { c with input := [] })

def write? (c : Console) (text : Bytes) : Option Console :=
  let size := c.size + text.length
  if c.capacity.any fun limit => limit < (size : Int) then none
  else some { c with written := text :: c.written, size }

end Console

inductive LogEntry where
  | executing (statements : Nat)
  | invoke (name : Name) (origin : Bytes) (depth : Nat)
  | defined (signature : Signature)
  | programFailed (statement : Nat) (error : Bytes)
  | evaluationFailed (error : Bytes)
  deriving DecidableEq, Repr

/-- When the host wants a run to end: after a number of checks, or never. -/
structure Patience where
  checks : Option Nat
  cause : CancelCause
  deriving DecidableEq, Repr

namespace Patience

def endless : Patience := ⟨none, .cancelled⟩

def spent : Patience := ⟨some 0, .cancelled⟩

end Patience

structure Machine where
  heap : Heap
  registry : Registry
  scope : Scope
  console : Console
  patience : Patience
  log : List LogEntry
  deriving DecidableEq, Repr

def Machine.initial (console : Console) : Machine :=
  let (scope, heap) := Scope.root .empty
  ⟨heap, .initial, scope, console, .endless, []⟩

/-- Why a computation gave no value. Only a failure can be seen by a program's host; a sound machine
never crashes, and running out of fuel says nothing about the program. -/
inductive Stop where
  | failed (failure : Failure)
  | crashed
  | outOfFuel
  deriving DecidableEq, Repr

abbrev Eval := EStateM Stop Machine

namespace Eval

def fail (fault : Fault) : Eval α := throw (.failed (.raise fault))

def ofExcept : Except Failure α → Eval α
  | .ok a => pure a
  | .error f => throw (.failed f)

def need : Option α → Eval α
  | some a => pure a
  | none => throw .crashed

def contents (c : CellId) : Eval Datum := return (← get).heap.get c

def alloc (d : Datum) : Eval CellId :=
  modifyGet fun m =>
    let (c, heap) := m.heap.alloc d
    (c, { m with heap })

def store (c : CellId) (d : Datum) : Eval Unit := modify fun m => { m with heap := m.heap.set c d }

def copy (d : Datum) : Eval Datum :=
  modifyGet fun m =>
    let (d, heap) := m.heap.copy d
    (d, { m with heap })

def unit : Eval CellId := alloc .unit

def record (entry : LogEntry) : Eval Unit := modify fun m => { m with log := entry :: m.log }

def lookup (name : Name) : Eval CellId := do ofExcept ((← get).scope.lookup name)

def bind (name : Name) (c : CellId) : Eval Unit :=
  modify fun m => { m with scope := m.scope.bind name c }

def checkPatience : Eval Unit := do
  let patience := (← get).patience
  match patience.checks with
  | none => return ()
  | some 0 => fail (.stopped patience.cause)
  | some (n + 1) => modify fun m => { m with patience := { m.patience with checks := some n } }

/-- Runs a computation in another scope and comes back to the current one, however it ends. -/
def inScope (scope : Scope) (act : Eval α) : Eval α := fun m =>
  let saved := m.scope
  match act { m with scope } with
  | .ok a m => .ok a { m with scope := saved }
  | .error e m => .error e { m with scope := saved }

def inBlock (act : Eval α) : Eval α := fun m =>
  let saved := m.scope
  match act m with
  | .ok a m => .ok a { m with scope := saved }
  | .error e m => .error e { m with scope := saved }

def inCall (inv : Invocation) (act : Eval α) : Eval α := fun m =>
  match act m with
  | .error (.failed f) m => .error (.failed (f.within m.heap inv)) m
  | result => result

def expect (read : Datum → Option α) (wanted : Shape) (c : CellId) : Eval α := do
  ofExcept ((← contents c).expect read wanted)

def expectString (c : CellId) : Eval Bytes := expect Datum.string? .string c

def expectNumber (c : CellId) : Eval Number := expect Datum.number? .number c

def expectBoolean (c : CellId) : Eval Bool := expect Datum.boolean? .boolean c

def expectList (c : CellId) : Eval (List CellId) := expect Datum.list? .list c

end Eval
end CallScript
