import CallScript.Number.Numeral
import CallScript.Number.Remainder
import CallScript.Text.Blank
import CallScript.Run.Machine

/- What the system functions do with the cells of their arguments. -/
namespace CallScript

open Eval

namespace SystemFunction

def runReadLine : Eval CellId := do
  let line ← modifyGet fun m =>
    let (line, console) := m.console.readLine
    (line, { m with console })
  match line with
  | some text => alloc (.string text)
  | none => fail .inputBroken

def runParseNumber (c : CellId) : Eval CellId := do
  let text ← expectString c
  match Number.parse? text with
  | some value => alloc (.number value)
  | none => fail (.notANumber text)

def runLogical (decide : Nat → Nat → Bool) (args : List CellId) : Eval CellId := do
  let values ← args.mapM expectBoolean
  alloc (.boolean (decide (values.count true) args.length))

def runArithmetic (name : Name) (op : Number → Number → Number) (args : List CellId) :
    Eval CellId := do
  match args with
  | [] => fail (.operandMissing name)
  | first :: rest =>
    let acc ← expectNumber first
    let values ← rest.mapM expectNumber
    alloc (.number (values.foldl op acc))

def runCompare (op : Number → Number → Bool) (a b : CellId) : Eval CellId := do
  let x ← expectNumber a
  let y ← expectNumber b
  alloc (.boolean (op x y))

def runPrint (ending : Bytes) (args : List CellId) : Eval CellId := do
  let m ← get
  let text := Bytes.join (utf8 " ") (args.map fun c => m.heap.render (m.heap.get c)) ++ ending
  match m.console.write? text with
  | some console =>
    modify fun m => { m with console }
    unit
  | none => fail .outputFull

/-- The argument itself, or a copy of it if it holds the list it is to be put in. -/
def detached (target c : CellId) : Eval CellId := do
  if (← get).heap.reaches c target then alloc (← copy (← contents c)) else return c

/-- Appends the argument cells to the list in the first one. A cell that would make the list contain
itself is appended as a copy. -/
def runPush (args : List CellId) : Eval CellId := do
  match args with
  | [] => fail .listMissing
  | target :: rest =>
    let elements ← expectList target
    let added ← rest.mapM (detached target)
    store target (.list (elements ++ added))
    unit

def runPop (target : CellId) : Eval CellId := do
  let elements ← expectList target
  match elements.getLast? with
  | some last =>
    store target (.list elements.dropLast)
    return last
  | none => fail .popFromEmpty

def runIndex (target index : CellId) : Eval CellId := do
  let elements ← expectList target
  let n ← expectNumber index
  if n.isNaN || n.less (.ofNat 0) || Number.lessOrEqual (.ofNat elements.length) n then
    fail (.indexOutOfRange n elements.length)
  else need elements[n.floor]?

def run (f : SystemFunction) (args : List CellId) : Eval CellId :=
  match f, args with
  | .readLine, _ => runReadLine
  | .parseNumber, [c] => runParseNumber c
  | .trim, [c] => do alloc (.string (← expectString c).trim)
  | .not, [c] => do alloc (.boolean !(← expectBoolean c))
  | .allTrue, args => runLogical (fun trues total => trues == total) args
  | .anyTrue, args => runLogical (fun trues _ => 0 < trues) args
  | .oneTrue, args => runLogical (fun trues _ => trues == 1) args
  | .add, args => runArithmetic f.name .add args
  | .subtract, args => runArithmetic f.name .subtract args
  | .multiply, args => runArithmetic f.name .multiply args
  | .divide, args => runArithmetic f.name .divide args
  | .remainder, args => runArithmetic f.name .remainder args
  | .printLine, args => runPrint [Bytes.newline] args
  | .print, args => runPrint [] args
  | .breakLoop, _ => alloc (.flow .breaks none)
  | .continueLoop, _ => alloc (.flow .continues none)
  | .returnCell, [c] => alloc (.flow .returns (some c))
  | .equal, [a, b] => do
    let m ← get
    alloc (.boolean (m.heap.equal (m.heap.get a) (m.heap.get b)))
  | .greater, [a, b] => runCompare (fun x y => y.less x) a b
  | .greaterOrEqual, [a, b] => runCompare (fun x y => y.lessOrEqual x) a b
  | .less, [a, b] => runCompare Number.less a b
  | .lessOrEqual, [a, b] => runCompare Number.lessOrEqual a b
  | .makeList, args => alloc (.list args)
  | .push, args => runPush args
  | .pop, [c] => runPop c
  | .index, [c, i] => runIndex c i
  | .length, [c] => do alloc (.number (.ofNat (← expectList c).length))
  | _, _ => throw .crashed

end SystemFunction
end CallScript
