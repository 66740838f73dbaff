import CallScript.Run.Interpreter
import CallScript.Session.History

/- A session is one user's interpreter with a line history. Input that ends inside an invocation or
   a string is kept and continued by the next line. -/
namespace CallScript

structure SessionOptions where
  user : Bytes
  prompt : Bytes
  continuation : Bytes
  activeCursor : Bytes
  inactiveCursor : Bytes
  historySize : Int
  maxDepth : Int
  trace : Bool
  deriving DecidableEq, Repr

namespace SessionOptions

def defaultPrompt : Bytes := utf8 "funcs> "

def dots (prompt : Bytes) : Bytes :=
  List.replicate prompt.trimSpacesRight.length (ascii '.') ++ utf8 " "

def orElse (given fallback : Bytes) : Bytes := if given.isEmpty then fallback else given

def complete (o : SessionOptions) : SessionOptions :=
  let prompt := orElse o.prompt defaultPrompt
  { o with
    prompt
    continuation := orElse o.continuation (dots prompt)
    activeCursor := orElse o.activeCursor (utf8 "█")
    inactiveCursor := orElse o.inactiveCursor (utf8 " ") }

end SessionOptions

inductive LineError where
  | parse (error : ParseError)
  | run (stop : Stop)
  deriving DecidableEq, Repr

def LineError.text : LineError → Bytes
  | .parse e => e.message
  | .run (.failed f) => f.text
  | .run .crashed => utf8 "crashed"
  | .run .outOfFuel => utf8 "out of fuel"

/-- What one line gave. An incomplete one has been kept for the next line. -/
structure LineResult where
  output : Bytes
  value : Bytes
  error : Option LineError
  incomplete : Bool
  deriving DecidableEq, Repr

namespace LineResult

def ofError (e : LineError) : LineResult := ⟨[], [], some e, false⟩

def ofValue (value : Bytes) : LineResult := ⟨[], value, none, false⟩

def unfinished : LineResult := ⟨[], [], none, true⟩

end LineResult

structure Session where
  options : SessionOptions
  history : History
  pending : Bytes
  interpreter : Interpreter
  deriving DecidableEq, Repr

namespace Session

def new (options : SessionOptions) : Session :=
  let options := options.complete
  ⟨options, .empty, [], .new options.maxDepth options.trace (.ofInput [])⟩

def isIdentifier : Bytes → Bool
  | [] => false
  | c :: rest => Lexical.isWordStart c && rest.all Lexical.isWordPart

def evaluateAll (settings : Settings) (fuel : Nat) (last : Option CellId) :
    Program → Eval (Option CellId)
  | [] => return last
  | inv :: rest => do
    let c ← Interpreter.single settings fuel inv
    evaluateAll settings fuel (some c) rest

def shownValue (h : Heap) : Option CellId → Bytes
  | none => []
  | some c =>
    match h.get c with
    | .unit | .flow _ _ => []
    | d => h.render d

def clearOutput (i : Interpreter) : Interpreter :=
  { i with machine :=
    { i.machine with console := { i.machine.console with written := [], size := 0 } } }

def recordFailure (i : Interpreter) (e : LineError) : Interpreter :=
  { i with machine := { i.machine with log := .evaluationFailed e.text :: i.machine.log } }

def runProgram (s : Session) (fuel : Nat) (patience : Patience) (p : Program) :
    LineResult × Session :=
  let (result, i) := (clearOutput s.interpreter).run patience fun settings =>
    evaluateAll settings fuel none p
  let output := i.machine.console.output
  match result with
  | .ok last =>
    (⟨output, shownValue i.machine.heap last, none, false⟩, { s with interpreter := i })
  | .error stop =>
    let e := LineError.run stop
    (⟨output, [], some e, false⟩, { s with interpreter := recordFailure i e })

def lookup (s : Session) (name : Name) : LineResult :=
  match s.interpreter.lookup name with
  | .ok c => .ofValue (s.interpreter.machine.heap.render (s.interpreter.machine.heap.get c))
  | .error f => .ofError (.run (.failed f))

def eval (s : Session) (fuel : Nat) (patience : Patience) (line : Bytes) : LineResult × Session :=
  let text := s.pending ++ line
  let word := text.trim
  if isIdentifier word then (s.lookup word, { s with pending := [] })
  else match Program.parse text with
    | .ok p => { s with pending := [] }.runProgram fuel patience p
    | .error e =>
      if e.incomplete then (.unfinished, { s with pending := text ++ [Bytes.newline] })
      else (.ofError (.parse e), { s with pending := [] })

def reset (s : Session) : Session := { s with pending := [] }

def addToHistory (s : Session) (line : Bytes) : Session :=
  { s with history := s.history.add s.options.historySize line }

def startBrowsing (s : Session) (draft : Bytes) : Session :=
  { s with history := s.history.start draft }

def historyUp (s : Session) : Bytes × Session :=
  let (line, history) := s.history.up
  (line, { s with history })

def historyDown (s : Session) : Bytes × Session :=
  let (line, history) := s.history.down
  (line, { s with history })

def helpText : Bytes :=
  utf8 "Available Commands:\n\n" ++
  utf8 "  exit  - Exit the session\n" ++
  utf8 "  help  - Display this help message\n" ++
  utf8 "  vars  - List variables in the root scope\n" ++
  utf8 "  funcs - List functions defined with fn\n\n" ++
  utf8 "Anything else is evaluated, e.g. println(+(1, 2)).\n" ++
  utf8 "Unfinished invocations continue on the next line.\n" ++
  utf8 "Ctrl+C stops a running evaluation.\n"

def variablesText (s : Session) : Bytes :=
  let m := s.interpreter.machine
  m.scope.bindings.flatMap fun (name, c) =>
    name ++ utf8 " = " ++ m.heap.render (m.heap.get c) ++ [Bytes.newline]

def functionsText (s : Session) : Bytes :=
  match s.interpreter.functions with
  | [] => utf8 "No functions defined.\n"
  | signatures => signatures.flatMap fun f => f.render ++ [Bytes.newline]

end Session
end CallScript
