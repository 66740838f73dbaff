import CallScript.Screen.View
import CallScript.Command.Basic

/- The program: reads the files that its arguments may name, carries out the command, and writes
   what comes of it. -/
namespace CallScript.Terminal

/-- More steps than a run can take. -/
def ampleFuel : Nat := Nat.pow 2 62

def put (stream : IO.FS.Stream) (bytes : Bytes) : IO Unit := do
  stream.write (ByteArray.mk bytes.toArray)
  stream.flush

def pathText (path : Bytes) : String := (String.fromUTF8? (ByteArray.mk path.toArray)).getD ""

def pathsOf (argument : String) : List Bytes :=
  let bytes := utf8 argument
  bytes :: (Flags.split bytes).2.toList

def waypoints (path : Bytes) : List Bytes :=
  let names := Bytes.splitAt Path.slash path
  (List.range names.length).map fun i => Bytes.join [Path.slash] (names.take (i + 1))

def load (d : Directory) (path : Bytes) : IO Directory := do
  match ← (IO.FS.readBinFile (pathText path)).toBaseIO with
  | .ok data => return d.withText path data.toList
  | .error (.inappropriateType ..) => return (d.makeFolder path).getD d
  | .error _ => return d

def surroundings (args : List String) : IO Directory :=
  ((args.flatMap pathsOf ++ [CommandLine.outFlag.fallback]).flatMap waypoints).foldlM load .empty

def save (before after : Directory) : IO Unit := do
  for (place, file) in after.files do
    if before.files.lookup place ≠ some file then
      let path := match place with
        | first :: rest =>
          if first = [Path.slash] then Path.slash :: Bytes.join [Path.slash] rest
          else Bytes.join [Path.slash] place
        | [] => []
      IO.FS.createDirAll (pathText (Path.parent path))
      IO.FS.writeBinFile (pathText path) (ByteArray.mk file.content.bytes.toArray)

def tellTime (d : Directory) (path : Bytes) (total : Nat) : IO Unit := do
  let start ← IO.monoNanosNow
  let _ ← IO.lazyPure fun _ => d.program path
  let parsing := (← IO.monoNanosNow) - start
  put (← IO.getStderr) (utf8 "parse: " ++ Duration.render parsing ++ utf8 ", execute: " ++
    Duration.render (total - parsing) ++ [Bytes.newline])

def answers (before after : Screen) : Bytes :=
  ((after.transcript.drop before.transcript.length).filter fun e =>
    e.kind = .output || e.kind = .value).flatMap fun e =>
      Screen.entryText after.session.options e ++ [Bytes.newline]

partial def converse (s : Screen) : IO Unit := do
  let options := s.session.options
  put (← IO.getStdout) (if s.continuing then options.continuation else options.prompt)
  let line ← (← IO.getStdin).getLine
  if line.isEmpty then return ()
  let typed := (utf8 line).filter (· ≠ Bytes.newline)
  let (edited, _) := s.update (.typed typed)
  let (asking, command) := edited.update (.key .enter)
  let answered := match command with
    | some c =>
      let (message, performed) := asking.perform ampleFuel c
      (performed.update message).1
    | none => asking
  put (← IO.getStdout) (answers s answered)
  if answered.quitting then return () else converse answered

def sessionOptions (c : Config) : SessionOptions :=
  { user := [], prompt := c.prompt, continuation := [], activeCursor := [], inactiveCursor := []
    historySize := c.historySize, maxDepth := c.maxDepth, trace := c.trace }

def launch : Launch → IO UInt32
  | .repl config => do
    converse (.new (sessionOptions config))
    return 0
  | .serve config => do
    put (← IO.getStderr)
      (utf8 "error: cannot listen on " ++ config.serve.address ++ [Bytes.newline])
    return 1

partial def drain (stream : IO.FS.Stream) (chunks : List Bytes) : IO Bytes := do
  let chunk ← stream.read 65536
  if chunk.isEmpty then return chunks.reverse.flatten else drain stream (chunk.toList :: chunks)

def inputOf (args : List String) : IO Bytes := do
  if args.head? = some "run" then drain (← IO.getStdin) [] else return []

def carryOut (args : List String) : IO UInt32 := do
  let d ← surroundings args
  let input ← inputOf args
  let start ← IO.monoNanosNow
  let outcome ← IO.lazyPure fun _ => CommandLine.outcome d ampleFuel input (args.map utf8)
  let total := (← IO.monoNanosNow) - start
  put (← IO.getStdout) outcome.stdout
  if let some path := outcome.timed then tellTime d path total
  put (← IO.getStderr) outcome.stderr
  save d outcome.directory
  match outcome.launch with
  | some l => launch l
  | none => return outcome.exit.toUInt32

end CallScript.Terminal

def main (args : List String) : IO UInt32 := CallScript.Terminal.carryOut args
