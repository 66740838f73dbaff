import CallScript.Run.Interpreter
import CallScript.Config.Files
import CallScript.Command.Flags

/- The commands of the program, as functions of its arguments, its input and the directory it works
   in. -/
namespace CallScript

inductive Launch where
  | repl (config : Config)
  | serve (config : Config)
  deriving DecidableEq, Repr

structure Outcome where
  exit : Nat
  stdout : Bytes
  stderr : Bytes
  directory : Directory
  timed : Option Bytes
  launch : Option Launch
  deriving DecidableEq, Repr

namespace Outcome

def success (d : Directory) (stdout : Bytes) : Outcome := ⟨0, stdout, [], d, none, none⟩

def stopped (d : Directory) (exit : Nat) (stderr : Bytes) : Outcome :=
  ⟨exit, [], stderr, d, none, none⟩

def failure (d : Directory) (message : Bytes) : Outcome :=
  stopped d 1 (utf8 "error: " ++ message ++ [Bytes.newline])

def launching (d : Directory) (l : Launch) : Outcome := ⟨0, [], [], d, none, some l⟩

end Outcome

namespace CommandLine

def globalUsage : Bytes :=
  utf8 "Usage: funcs <command> [arguments]\n" ++
  utf8 "Run, check and explore funcs programs.\n\n" ++
  utf8 "Available commands:\n" ++
  utf8 "  run       Execute a program file.\n" ++
  utf8 "  check     Parse a program file without running it.\n" ++
  utf8 "  repl      Start an interactive session.\n" ++
  utf8 "  serve     Serve interactive sessions over SSH.\n" ++
  utf8 "  config    Write a default configuration file.\n" ++
  utf8 "\nUse \"funcs <command> -h\" for more information about a specific command.\n"

def configFlag : Flag := ⟨utf8 "config", .text, utf8 "Path to configuration file.", []⟩

def timeFlag : Flag := ⟨utf8 "time", .switch, utf8 "Print parse and execution time to stderr.", []⟩

def addressFlag : Flag :=
  ⟨utf8 "addr", .text, utf8 "Address to listen on. Overrides serve.address.", []⟩

def outFlag : Flag :=
  ⟨utf8 "out", .text, utf8 "Where to write the configuration.", utf8 "funcs.yaml"⟩

def runFlags : List Flag := [configFlag, timeFlag]

def runUsage : Bytes :=
  utf8 "Usage: funcs run [flags] <file>\nExecutes a program file.\n\nFlags:\n" ++
    Flags.describeAll runFlags

def checkUsage : Bytes :=
  utf8 "Usage: funcs check <file>\nParses a program file and reports its top-level invocations.\n"

def plainUsage (command : String) (flags : List Flag) : Bytes :=
  utf8 "Usage of " ++ utf8 command ++ utf8 ":\n" ++ Flags.describeAll flags

def withFlags (d : Directory) (flags : List Flag) (usage : Bytes) (args : List Bytes)
    (next : Parsed → Outcome) : Outcome :=
  match Flags.parse flags [] args with
  | .ok parsed => next parsed
  | .error e =>
    match e.message? with
    | none => .stopped d 0 usage
    | some message => .stopped d 2 (message ++ Bytes.newline :: usage)

def withConfig (d : Directory) (path : Bytes) (next : Config → Outcome) : Outcome :=
  if path.isEmpty then next .default
  else match Config.loadFile d path with
    | .ok c => next c
    | .error e =>
      .failure d (utf8 "failed to load configuration " ++ path ++ utf8 ": " ++ e.message)

def stopText : Stop → Bytes
  | .failed f => f.text
  | .crashed => utf8 "crashed"
  | .outOfFuel => utf8 "out of fuel"

def execute (d : Directory) (fuel : Nat) (config : Config) (input : Bytes)
    (timed : Option Bytes) (p : Program) : Outcome :=
  let (result, i) :=
    (Interpreter.new config.maxDepth config.trace (.ofInput input)).execute fuel .endless p
  let stdout := i.machine.console.output
  match result with
  | .ok () => { Outcome.success d stdout with timed }
  | .error e => { Outcome.failure d (stopText e) with stdout, timed }

def run (d : Directory) (fuel : Nat) (input : Bytes) (args : List Bytes) : Outcome :=
  withFlags d runFlags runUsage args fun parsed =>
    match parsed.rest with
    | [path] =>
      withConfig d (parsed.text configFlag) fun config =>
        match d.program path with
        | .ok p => execute d fuel config input (if parsed.isOn timeFlag then some path else none) p
        | .error e => .failure d e.message
    | _ => .stopped d 1 runUsage

def check (d : Directory) (args : List Bytes) : Outcome :=
  withFlags d [] checkUsage args fun parsed =>
    match parsed.rest with
    | [path] =>
      match d.program path with
      | .ok p =>
        .success d
          (path ++ utf8 ": ok, " ++ Bytes.decimal p.length ++ utf8 " top-level invocations\n")
      | .error e => .failure d e.message
    | _ => .stopped d 1 checkUsage

def repl (d : Directory) (args : List Bytes) : Outcome :=
  withFlags d [configFlag] (plainUsage "repl" [configFlag]) args fun parsed =>
    withConfig d (parsed.text configFlag) fun config => .launching d (.repl config)

def serve (d : Directory) (args : List Bytes) : Outcome :=
  let flags := [addressFlag, configFlag]
  withFlags d flags (plainUsage "serve" flags) args fun parsed =>
    withConfig d (parsed.text configFlag) fun config =>
      let address := parsed.text addressFlag
      let config := if address.isEmpty then config
        else { config with serve := { config.serve with address } }
      .launching d (.serve config)

def config (d : Directory) (args : List Bytes) : Outcome :=
  withFlags d [outFlag] (plainUsage "config" [outFlag]) args fun parsed =>
    let path := parsed.text outFlag
    match d.find path with
    | .ok _ => .failure d (path ++ utf8 " already exists")
    | .error _ =>
      match Config.generate d path with
      | .ok d => .success d (utf8 "wrote " ++ path ++ [Bytes.newline])
      | .error e => .failure d e.message

def outcome (d : Directory) (fuel : Nat) (input : Bytes) (args : List Bytes) : Outcome :=
  match args with
  | [] => .stopped d 1 globalUsage
  | command :: rest =>
    if command = utf8 "run" then run d fuel input rest
    else if command = utf8 "check" then check d rest
    else if command = utf8 "repl" then repl d rest
    else if command = utf8 "serve" then serve d rest
    else if command = utf8 "config" then config d rest
    else if command = utf8 "-h" || command = utf8 "--help" || command = utf8 "help" then
      .stopped d 0 globalUsage
    else .stopped d 1 (utf8 "Error: Unknown command \"" ++ command ++ utf8 "\"\n" ++ globalUsage)

end CommandLine
end CallScript
