import CallScript.Number.Rounding
import CallScript.Access.PublicKey

/- The configuration of the program, its defaults, and the conditions it has to meet. -/
namespace CallScript

inductive LogLevel where
  | debug
  | info
  | warn
  | error
  deriving DecidableEq, Repr

namespace LogLevel

def names : List (Bytes × LogLevel) :=
  [(utf8 "debug", .debug), (utf8 "info", .info), ([], .info), (utf8 "warn", .warn),
    (utf8 "warning", .warn), (utf8 "error", .error)]

/-- A glyph in lower case, as far as the result is a letter of the names of levels. The capital I
with a dot above also becomes an i. -/
def lowerGlyph (g : Glyph) : Bytes :=
  match g.code with
  | some 0x130 => [ascii 'i']
  | _ => g.bytes.map Bytes.toLower

def ofName? (name : Bytes) : Option LogLevel :=
  names.lookup ((Glyph.ofText name).flatMap lowerGlyph)

end LogLevel

structure ServeConfig where
  address : Bytes
  hostKeyPath : Bytes
  authorizedKeys : List Bytes
  limit : Number
  burst : Int
  /-- In nanoseconds. -/
  maxSessionTime : Int
  deriving DecidableEq, Repr

structure Config where
  level : Bytes
  maxDepth : Int
  trace : Bool
  prompt : Bytes
  historySize : Int
  serve : ServeConfig
  deriving DecidableEq, Repr

inductive ConfigError where
  | unreadable
  | unmarshallable
  | unwritable
  | levelInvalid
  | promptMissing
  | historySizeInvalid
  | addressMissing
  | hostKeyPathMissing
  | authorizedKeyInvalid
  | rateLimitInvalid
  | hostKeyGeneration
  deriving DecidableEq, Repr

def ConfigError.message : ConfigError → Bytes
  | .unreadable => utf8 "config file is unreadable"
  | .unmarshallable => utf8 "config file is unmarshallable"
  | .unwritable => utf8 "config file could not be written"
  | .levelInvalid => utf8 "logging.level must be one of debug, info, warn, error"
  | .promptMissing => utf8 "repl.prompt is missing in config"
  | .historySizeInvalid => utf8 "repl.historySize must be positive"
  | .addressMissing => utf8 "serve.address is missing in config"
  | .hostKeyPathMissing => utf8 "serve.hostKeyPath is missing in config"
  | .authorizedKeyInvalid => utf8 "serve.authorizedKeys contains an invalid public key"
  | .rateLimitInvalid =>
    utf8 "serve.rateLimit.limit and serve.rateLimit.burst must be positive"
  | .hostKeyGeneration => utf8 "failed to generate SSH host key"

namespace Config

def default : Config :=
  { level := utf8 "info"
    maxDepth := 10000
    trace := false
    prompt := utf8 "funcs> "
    historySize := 100
    serve :=
      { address := utf8 "127.0.0.1:2323"
        hostKeyPath := utf8 "keys/funcs_host_key"
        authorizedKeys := []
        limit := .ofNat 1
        burst := 5
        maxSessionTime := 3600000000000 } }

def defaultDocument : Bytes :=
  utf8 "logging:\n    level: info\n" ++
  utf8 "interpreter:\n    maxDepth: 10000\n    trace: false\n" ++
  utf8 "repl:\n    prompt: 'funcs> '\n    historySize: 100\n" ++
  utf8 "serve:\n    address: 127.0.0.1:2323\n    hostKeyPath: keys/funcs_host_key\n" ++
  utf8 "    authorizedKeys: []\n    rateLimit:\n        limit: 1\n        burst: 5\n" ++
  utf8 "    maxSessionTime: 1h0m0s\n"

/-- The conditions in the order in which they are checked, each with the error for breaking it. -/
def conditions (c : Config) (read? : Bytes → Option PublicKey) : List (Bool × ConfigError) :=
  [((LogLevel.ofName? c.level).isSome, .levelInvalid),
    (!c.prompt.isEmpty, .promptMissing),
    (0 < c.historySize, .historySizeInvalid),
    (!c.serve.address.isEmpty, .addressMissing),
    (!c.serve.hostKeyPath.isEmpty, .hostKeyPathMissing),
    (!c.serve.limit.lessOrEqual (.ofNat 0) && 0 < c.serve.burst, .rateLimitInvalid),
    (c.serve.authorizedKeys.all fun key => (read? key).isSome, .authorizedKeyInvalid)]

def firstError? (c : Config) (read? : Bytes → Option PublicKey) : Option ConfigError :=
  ((c.conditions read?).find? fun (met, _) => !met).map Prod.snd

def validate (c : Config) (read? : Bytes → Option PublicKey := PublicKey.read?) :
    Except ConfigError Unit :=
  match c.firstError? read? with
  | some e => .error e
  | none => .ok ()

def logLevel (c : Config) : LogLevel := (LogLevel.ofName? c.level).getD .info

end Config
end CallScript
