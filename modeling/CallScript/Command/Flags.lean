import CallScript.Text.Quoted

/- Flags on a command line: `-name`, `-name value` or `-name=value`, with one dash or two, before
   the other arguments. -/
namespace CallScript

inductive FlagKind where
  | text
  | switch
  deriving DecidableEq, Repr

structure Flag where
  name : Bytes
  kind : FlagKind
  usage : Bytes
  fallback : Bytes
  deriving DecidableEq, Repr

inductive FlagError where
  | help
  | badForm (argument : Bytes)
  | unknown (name : Bytes)
  | valueMissing (name : Bytes)
  | notBoolean (name value : Bytes)
  deriving DecidableEq, Repr

def FlagError.message? : FlagError → Option Bytes
  | .help => none
  | .badForm argument => some (utf8 "bad flag syntax: " ++ argument)
  | .unknown name => some (utf8 "flag provided but not defined: -" ++ name)
  | .valueMissing name => some (utf8 "flag needs an argument: -" ++ name)
  | .notBoolean name value =>
    some (utf8 "invalid boolean value " ++ value.quote ++ utf8 " for -" ++ name ++
      utf8 ": parse error")

/-- The flags given, latest first, and the other arguments. -/
structure Parsed where
  values : List (Bytes × Bytes)
  rest : List Bytes
  deriving DecidableEq, Repr

namespace Flags

def booleanWords : List (Bytes × Bool) :=
  [("1", true), ("t", true), ("T", true), ("TRUE", true), ("true", true), ("True", true),
    ("0", false), ("f", false), ("F", false), ("FALSE", false), ("false", false),
    ("False", false)].map
    fun (word, value) => (utf8 word, value)

def split (text : Bytes) : Bytes × Option Bytes :=
  match text with
  | [] => ([], none)
  | first :: rest =>
    match rest.dropWhile (· ≠ ascii '=') with
    | [] => (text, none)
    | _ :: value => (first :: rest.takeWhile (· ≠ ascii '='), some value)

def undashed? : Bytes → Option Bytes
  | a :: b :: rest =>
    if a = ascii '-' then some (if b = ascii '-' then rest else b :: rest) else none
  | _ => none

def parse (flags : List Flag) (values : List (Bytes × Bytes)) :
    List Bytes → Except FlagError Parsed
  | [] => .ok ⟨values, []⟩
  | argument :: rest =>
    match undashed? argument with
    | none => .ok ⟨values, argument :: rest⟩
    | some text =>
      if argument = utf8 "--" then .ok ⟨values, rest⟩
      else if text.head?.all fun c => c = ascii '-' || c = ascii '=' then .error (.badForm argument)
      else
        let (name, value) := split text
        match flags.find? fun f => f.name = name with
        | none =>
          if name = utf8 "h" || name = utf8 "help" then .error .help else .error (.unknown name)
        | some flag =>
          match flag.kind, value with
          | .switch, none => parse flags ((name, utf8 "true") :: values) rest
          | .switch, some value =>
            if (booleanWords.lookup value).isSome then parse flags ((name, value) :: values) rest
            else .error (.notBoolean name value)
          | .text, some value => parse flags ((name, value) :: values) rest
          | .text, none =>
            match rest with
            | value :: rest => parse flags ((name, value) :: values) rest
            | [] => .error (.valueMissing name)

def describe (f : Flag) : Bytes :=
  utf8 "  -" ++ f.name ++ (if f.kind = .text then utf8 " string" else []) ++
    utf8 "\n    \t" ++ f.usage ++
    (if f.fallback.isEmpty then [] else utf8 " (default " ++ f.fallback.quote ++ utf8 ")") ++
    [Bytes.newline]

def describeAll (flags : List Flag) : Bytes := flags.flatMap describe

end Flags

namespace Parsed

def text (p : Parsed) (f : Flag) : Bytes := (p.values.lookup f.name).getD f.fallback

def isOn (p : Parsed) (f : Flag) : Bool :=
  ((p.values.lookup f.name).bind fun value => Flags.booleanWords.lookup value).getD false

end Parsed
end CallScript
