import CallScript.Text.Bytes
import CallScript.Number.Basic

/- The values that programs compute with. Lists, and control flow on its way out of a function, hold
   cells: names for places in a heap, which several holders may share. -/
namespace CallScript

abbrev Name := Bytes

abbrev CellId := Nat

inductive Shape where
  | string
  | number
  | boolean
  | controlFlow
  | list
  | unit
  deriving DecidableEq, Repr

namespace Shape

def all : List Shape := [.string, .number, .boolean, .controlFlow, .list, .unit]

def name : Shape → Bytes
  | .string => utf8 "string"
  | .number => utf8 "number"
  | .boolean => utf8 "boolean"
  | .controlFlow => utf8 "control-flow"
  | .list => utf8 "list"
  | .unit => utf8 "unit"

def ofName? (text : Bytes) : Option Shape := all.find? fun s => s.name = text

end Shape

inductive FlowKind where
  | breaks
  | continues
  | returns
  deriving DecidableEq, Repr

namespace FlowKind

def all : List FlowKind := [.breaks, .continues, .returns]

def name : FlowKind → Bytes
  | .breaks => utf8 "break"
  | .continues => utf8 "continue"
  | .returns => utf8 "return"

def ofName? (text : Bytes) : Option FlowKind := all.find? fun k => k.name = text

def nameOfCode (code : Int) : Bytes :=
  match code with
  | 0 => name .breaks
  | 1 => name .continues
  | 2 => name .returns
  | _ => utf8 "unknown"

end FlowKind

/-- A runtime value. A control flow value may carry a cell to the place it unwinds to. -/
inductive Datum where
  | string (text : Bytes)
  | number (value : Number)
  | boolean (value : Bool)
  | unit
  | list (elements : List CellId)
  | flow (kind : FlowKind) (carried : Option CellId)
  deriving DecidableEq, Repr

namespace Datum

instance : Inhabited Datum := ⟨.unit⟩

def shape : Datum → Shape
  | .string _ => .string
  | .number _ => .number
  | .boolean _ => .boolean
  | .unit => .unit
  | .list _ => .list
  | .flow _ _ => .controlFlow

def string? : Datum → Option Bytes
  | .string text => some text
  | _ => none

def number? : Datum → Option Number
  | .number value => some value
  | _ => none

def boolean? : Datum → Option Bool
  | .boolean value => some value
  | _ => none

def list? : Datum → Option (List CellId)
  | .list elements => some elements
  | _ => none

def flow? : Datum → Option (FlowKind × Option CellId)
  | .flow kind carried => some (kind, carried)
  | _ => none

def elements : Datum → List CellId
  | .list elements => elements
  | _ => []

end Datum
end CallScript
