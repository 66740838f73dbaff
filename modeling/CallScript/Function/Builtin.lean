import CallScript.Function.Signature

/- The functions every program starts with. System functions only see evaluated arguments; context
   functions decide themselves when, and in which scope, their arguments are evaluated. -/
namespace CallScript

inductive SystemFunction where
  | readLine
  | parseNumber
  | trim
  | not
  | allTrue
  | anyTrue
  | oneTrue
  | add
  | subtract
  | multiply
  | divide
  | remainder
  | printLine
  | print
  | breakLoop
  | continueLoop
  | returnCell
  | equal
  | greater
  | greaterOrEqual
  | less
  | lessOrEqual
  | makeList
  | push
  | pop
  | index
  | length
  deriving DecidableEq, Repr

namespace SystemFunction

def functions : List SystemFunction :=
  [.readLine, .parseNumber, .trim, .not, .allTrue, .anyTrue, .oneTrue, .add, .subtract, .multiply,
    .divide, .remainder, .printLine, .print, .breakLoop, .continueLoop, .returnCell, .equal,
    .greater, .greaterOrEqual, .less, .lessOrEqual, .makeList, .push, .pop, .index, .length]

def name : SystemFunction → Name
  | .readLine => utf8 "stdin"
  | .parseNumber => utf8 "number"
  | .trim => utf8 "trim"
  | .not => utf8 "!"
  | .allTrue => utf8 "&&"
  | .anyTrue => utf8 "||"
  | .oneTrue => utf8 "^"
  | .add => utf8 "+"
  | .subtract => utf8 "-"
  | .multiply => utf8 "*"
  | .divide => utf8 "/"
  | .remainder => utf8 "%"
  | .printLine => utf8 "println"
  | .print => utf8 "print"
  | .breakLoop => utf8 "break"
  | .continueLoop => utf8 "continue"
  | .returnCell => utf8 "return"
  | .equal => utf8 "=="
  | .greater => utf8 ">"
  | .greaterOrEqual => utf8 ">="
  | .less => utf8 "<"
  | .lessOrEqual => utf8 "<="
  | .makeList => utf8 "list"
  | .push => utf8 "push"
  | .pop => utf8 "pop"
  | .index => utf8 "index"
  | .length => utf8 "length"

def slots : SystemFunction → List Slot
  | .readLine | .breakLoop | .continueLoop => []
  | .parseNumber | .trim => [.shape .string]
  | .not | .allTrue | .anyTrue | .oneTrue => [.shape .boolean]
  | .add | .subtract | .multiply | .divide | .remainder => [.shape .number]
  | .printLine | .print | .returnCell | .makeList => [.any]
  | .equal => [.any, .any]
  | .greater | .greaterOrEqual | .less | .lessOrEqual => [.shape .number, .shape .number]
  | .push => [.shape .list, .any]
  | .pop | .length => [.shape .list]
  | .index => [.shape .list, .shape .number]

def repeating : SystemFunction → Bool
  | .allTrue | .anyTrue | .oneTrue | .add | .subtract | .multiply | .divide | .remainder
  | .printLine | .print | .makeList | .push => true
  | _ => false

def returns : SystemFunction → ResultType
  | .readLine | .trim => .shape .string
  | .parseNumber | .add | .subtract | .multiply | .divide | .remainder | .length => .shape .number
  | .not | .allTrue | .anyTrue | .oneTrue | .equal | .greater | .greaterOrEqual | .less
  | .lessOrEqual =>
    .shape .boolean
  | .printLine | .print | .push => .shape .unit
  | .breakLoop | .continueLoop | .returnCell => .shape .controlFlow
  | .makeList => .shape .list
  | .pop | .index => .any

def signature (f : SystemFunction) : Signature := ⟨f.name, f.slots, f.repeating, f.returns⟩

end SystemFunction

inductive ContextFunction where
  | bindName
  | assign
  | conditional
  | loop
  | define
  deriving DecidableEq, Repr

namespace ContextFunction

def functions : List ContextFunction := [.bindName, .assign, .conditional, .loop, .define]

def signature : ContextFunction → Signature
  | .bindName => ⟨utf8 "let", [.raw, .any], false, .shape .unit⟩
  | .assign => ⟨utf8 "=", [.raw, .any], false, .shape .unit⟩
  | .conditional => ⟨utf8 "if", [.shape .boolean, .raw], true, .any⟩
  | .loop => ⟨utf8 "while", [.raw, .raw], true, .any⟩
  | .define => ⟨utf8 "fn", [.raw], true, .shape .unit⟩

end ContextFunction
end CallScript
