import CallScript.Program.Reader
import CallScript.Run.Evaluator

/- An interpreter keeps its functions, variables and cells from one program to the next. -/
namespace CallScript

structure Interpreter where
  settings : Settings
  machine : Machine
  deriving DecidableEq, Repr

def defaultDepthLimit : Nat := 10000

/-- The limit that a configured depth stands for: zero is the default, and a negative one is
none. -/
def depthLimitOf (configured : Int) : Option Nat :=
  if configured = 0 then some defaultDepthLimit
  else if configured < 0 then none
  else some configured.toNat

namespace Interpreter

def new (maxDepth : Int) (trace : Bool) (console : Console) : Interpreter :=
  ⟨⟨depthLimitOf maxDepth, trace⟩, .initial console⟩

def inStatement (number : Nat) (act : Eval α) : Eval α := fun m =>
  match act m with
  | .error (.failed f) m =>
    .error (.failed { f with statement := some number })
      { m with log := .programFailed number f.text :: m.log }
  | result => result

def statements (settings : Settings) (fuel : Nat) : Nat → Program → Eval Unit
  | _, [] => return ()
  | number, inv :: rest => do
    Eval.checkPatience
    let _ ← inStatement number (evaluate settings fuel 0 inv)
    statements settings fuel (number + 1) rest

def program (settings : Settings) (fuel : Nat) (p : Program) : Eval Unit := do
  Eval.record (.executing p.length)
  statements settings fuel 1 p

def single (settings : Settings) (fuel : Nat) (inv : Invocation) : Eval CellId := do
  Eval.checkPatience
  evaluate settings fuel 0 inv

def run (i : Interpreter) (patience : Patience) (act : Settings → Eval α) :
    Except Stop α × Interpreter :=
  match act i.settings { i.machine with patience } with
  | .ok a m => (.ok a, { i with machine := { m with patience := .endless } })
  | .error e m => (.error e, { i with machine := { m with patience := .endless } })

def execute (i : Interpreter) (fuel : Nat) (patience : Patience) (p : Program) :
    Except Stop Unit × Interpreter :=
  i.run patience fun settings => program settings fuel p

def evaluate (i : Interpreter) (fuel : Nat) (patience : Patience) (inv : Invocation) :
    Except Stop CellId × Interpreter :=
  i.run patience fun settings => single settings fuel inv

def lookup? (i : Interpreter) (name : Name) : Option CellId := i.machine.scope.find? name

def lookup (i : Interpreter) (name : Name) : Except Failure CellId := i.machine.scope.lookup name

def variableNames (i : Interpreter) : List Name := i.machine.scope.names

def functions (i : Interpreter) : List Signature := i.machine.registry.definitions.map (·.signature)

end Interpreter
end CallScript
