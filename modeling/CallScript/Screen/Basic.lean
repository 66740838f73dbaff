import CallScript.Session.Basic
import CallScript.Screen.Pane

/- The screen of a session: a line editor under a transcript. It changes by messages only, and asks
   for commands to be carried out; while an evaluation runs, keys do not reach the editor. -/
namespace CallScript

inductive EntryKind where
  | command
  | continuation
  | output
  | value
  deriving DecidableEq, Repr

def EntryKind.name : EntryKind → Bytes
  | .command => utf8 "command"
  | .continuation => utf8 "continuation"
  | .output => utf8 "output"
  | .value => utf8 "value"

structure Entry where
  kind : EntryKind
  content : Bytes
  isError : Bool
  deriving DecidableEq, Repr

inductive Key where
  | enter
  | backspace
  | left
  | right
  | up
  | down
  | space
  | interrupt
  | leave
  | pageUp
  | pageDown
  | other
  deriving DecidableEq, Repr

def Key.ofName? : String → Option Key
  | "enter" => some .enter
  | "backspace" => some .backspace
  | "left" => some .left
  | "right" => some .right
  | "up" => some .up
  | "down" => some .down
  | "space" => some .space
  | "ctrl+c" => some .interrupt
  | "ctrl+d" => some .leave
  | "pgup" => some .pageUp
  | "pgdown" => some .pageDown
  | "tab" | "esc" | "delete" => some .other
  | _ => none

inductive Message where
  | resize (width height : Int)
  | key (key : Key)
  | typed (text : Bytes)
  | blink
  | evaluated (result : LineResult)
  | printed (text : Bytes)
  | ignored
  deriving DecidableEq, Repr

inductive Command where
  | evaluate (line : Bytes)
  | print (text : Bytes)
  | blinkLater
  | quit
  deriving DecidableEq, Repr

structure Screen where
  session : Session
  buffer : Bytes
  /-- The byte of the buffer before which text is inserted. -/
  cursor : Nat
  quitting : Bool
  cursorOn : Bool
  busy : Bool
  continuing : Bool
  /-- The means to cancel the running evaluation, and whether it has been used. -/
  cancel : Option Bool
  pane : Pane
  transcript : List Entry
  deriving DecidableEq, Repr

namespace Screen

def new (options : SessionOptions) : Screen :=
  ⟨.new options, [], 0, false, true, false, false, none, .initial, []⟩

def linesAround : Int := 6

def entryText (o : SessionOptions) (e : Entry) : Bytes :=
  match e.kind with
  | .command => o.prompt.block ++ e.content
  | .continuation => o.continuation.block ++ e.content
  | .value => (utf8 "= " ++ e.content).block
  | .output =>
    let content : Bytes :=
      if e.content.getLast? = some Bytes.newline then e.content.dropLast else e.content
    if e.isError then content.block else content

def transcriptText (s : Screen) : Bytes :=
  s.transcript.flatMap fun e => entryText s.session.options e ++ [Bytes.newline]

def refresh (s : Screen) : Screen := { s with pane := s.pane.showEnd s.transcriptText }

def append (s : Screen) (e : Entry) : Screen :=
  { s with transcript := s.transcript ++ [e] }.refresh

def setBuffer (s : Screen) (text : Bytes) : Screen :=
  { s with buffer := text, cursor := text.length }

def insert (s : Screen) (text : Bytes) : Screen :=
  { s with
    buffer := s.buffer.take s.cursor ++ text ++ s.buffer.drop s.cursor
    cursor := s.cursor + text.length }

/-- Typed text as it is inserted: on one line, and with no stray bytes. -/
def typedText (text : Bytes) : Bytes :=
  (Glyph.ofText text).flatMap fun g =>
    match g.code with
    | none => Glyph.encode 0xfffd
    | some 13 => []
    | some 10 | some 9 => [32]
    | some _ => g.bytes

def backspace (s : Screen) : Screen :=
  if 0 < s.cursor then
    { s with
      buffer := s.buffer.take (s.cursor - 1) ++ s.buffer.drop s.cursor
      cursor := s.cursor - 1 }
  else s

def startEvaluation (s : Screen) (line : Bytes) : Screen × Option Command :=
  ({ s with cancel := some false, busy := true }, some (.evaluate line))

/-- Enters the edited line. Outside of a continued input some words are commands. -/
def submit (s : Screen) : Screen × Option Command :=
  let line := s.buffer
  let kind := if s.continuing then EntryKind.continuation else .command
  let s := { s with buffer := [], cursor := 0 }.append ⟨kind, line, false⟩
  let command := line.trim
  if command.isEmpty && !s.continuing then (s, none)
  else
    let s := { s with session := s.session.addToHistory command }
    if s.continuing then s.startEvaluation line
    else if command = utf8 "exit" || command = utf8 "quit" then
      ({ s with quitting := true }, some .quit)
    else if command = utf8 "help" then (s, some (.print Session.helpText))
    else if command = utf8 "vars" then (s, some (.print s.session.variablesText))
    else if command = utf8 "funcs" then (s, some (.print s.session.functionsText))
    else s.startEvaluation line

def interrupt (s : Screen) : Screen :=
  if s.busy then { s with cancel := s.cancel.map fun _ => true }
  else
    let s := if !s.buffer.isEmpty || s.continuing then
      s.append ⟨.command, s.buffer ++ utf8 "^C", false⟩ else s
    { s with session := s.session.reset, continuing := false, buffer := [], cursor := 0 }

def browseUp (s : Screen) : Screen :=
  let (line, session) := (s.session.startBrowsing s.buffer).historyUp
  let s := { s with session }
  if !line.isEmpty || session.history.browsing then s.setBuffer line else s

def browseDown (s : Screen) : Screen :=
  if s.session.history.browsing then
    let (line, session) := s.session.historyDown
    { s with session }.setBuffer line
  else s

def edit (s : Screen) : Key → Screen × Option Command
  | .enter => s.submit
  | .backspace => (s.backspace, none)
  | .left => ({ s with cursor := s.cursor - 1 }, none)
  | .right => ({ s with cursor := min (s.cursor + 1) s.buffer.length }, none)
  | .up => (s.browseUp, none)
  | .down => (s.browseDown, none)
  | .space => (s.insert [32], none)
  | _ => (s, none)

def pressKey (s : Screen) : Key → Screen × Option Command
  | .interrupt => (s.interrupt, none)
  | .leave =>
    ({ s with cancel := s.cancel.map fun _ => true, quitting := true }, some .quit)
  | .pageUp => ({ s with pane := s.pane.pageUp }, none)
  | .pageDown => ({ s with pane := s.pane.pageDown }, none)
  | key => if s.busy then (s, none) else s.edit key

def resultEntries (r : LineResult) : List Entry :=
  (if r.output.isEmpty then [] else [⟨.output, r.output, false⟩]) ++
  (if r.value.isEmpty then [] else [⟨.value, r.value, false⟩]) ++
  match r.error with
  | some e => [⟨.output, utf8 "error: " ++ e.text, true⟩]
  | none => []

def update (s : Screen) : Message → Screen × Option Command
  | .resize width height =>
    let pane := { s.pane with width, height := (max (height - linesAround) 1).toNat }
    ({ s with pane }.refresh, none)
  | .key key => s.pressKey key
  | .typed text => if s.busy then (s, none) else (s.insert (typedText text), none)
  | .blink => ({ s with cursorOn := !s.cursorOn }, some .blinkLater)
  | .evaluated r =>
    ({ s with
      busy := false
      cancel := none
      continuing := r.incomplete
      transcript := s.transcript ++ resultEntries r }.refresh, none)
  | .printed text => (s.append ⟨.output, text, false⟩, none)
  | .ignored => (s, none)

/-- Carries out a command: the message it ends with, and the screen with its session after it. An
evaluation that has been cancelled is stopped at its first check. -/
def perform (s : Screen) (fuel : Nat) : Command → Message × Screen
  | .evaluate line =>
    let patience := if s.cancel = some true then Patience.spent else .endless
    let (result, session) := s.session.eval fuel patience line
    (.evaluated result, { s with session })
  | .print text => (.printed text, s)
  | .blinkLater => (.blink, s)
  | .quit => (.ignored, s)

end Screen
end CallScript
