import CallScript.Config.Basic
import CallScript.Config.Duration
import CallScript.Document.Meaning

/- A configuration from a document. Settings that the document does not mention keep their defaults,
   and settings that are not known are ignored. -/
namespace CallScript
namespace Node

def bytes (old : Bytes) (n : Node) : Option Bytes := if n.isNull then some old else n.text?

/-- The whole part of a number, as a whole number of 64 bits. Where the two ranges meet, and below
them, it is the least one. -/
def truncate (x : Number) : Option Int :=
  if x.isNaN then none
  else if x.isNegative then
    some (if x.isInfinite then least else max (-(x.floor : Int)) least)
  else if x.isInfinite || Nat.pow 2 63 < x.floor then none
  else some (if x.floor = Nat.pow 2 63 then least else x.floor)
where
  least : Int := -(Nat.pow 2 63 : Nat)

def integer (old : Int) (n : Node) : Option Int :=
  match n.meaning? with
  | some .null => some old
  | some (.integer value) => if value < (Nat.pow 2 63 : Nat) then some value else none
  | some (.float value) => truncate value
  | _ => none

def number (old : Number) (n : Node) : Option Number :=
  match n.meaning? with
  | some .null => some old
  | some (.integer value) => some (.ofRatio (value < 0) value.natAbs 1)
  | some (.float value) => some value
  | _ => none

def yesWords : List Bytes := ["y", "Y", "yes", "Yes", "YES", "on", "On", "ON"].map utf8

def noWords : List Bytes := ["n", "N", "no", "No", "NO", "off", "Off", "OFF"].map utf8

def boolean (old : Bool) (n : Node) : Option Bool :=
  match n.meaning? with
  | some .null => some old
  | some (.boolean value) => some value
  | some (.string text) =>
    if yesWords.contains text then some true else if noWords.contains text then some false else none
  | _ => none

def duration (old : Int) (n : Node) : Option Int :=
  match n.meaning? with
  | some .null => some old
  | some (.string text) => Duration.parse? text
  | _ => none

def bytesList (n : Node) : Option (List Bytes) :=
  match n.resolved with
  | some (.sequence items) => (items.filter fun item => !item.isNull).mapM text?
  | _ => if n.isNull then some [] else none

end Node

namespace Config

def isField (key : Bytes) (name : String) : Bool := key = utf8 name

def setLogging (c : Config) (key : Bytes) (n : Node) : Option Config :=
  if isField key "level" then (n.bytes c.level).map fun level => { c with level } else some c

def setInterpreter (c : Config) (key : Bytes) (n : Node) : Option Config :=
  if isField key "maxDepth" then (n.integer c.maxDepth).map fun maxDepth => { c with maxDepth }
  else if isField key "trace" then (n.boolean c.trace).map fun trace => { c with trace }
  else some c

def setRepl (c : Config) (key : Bytes) (n : Node) : Option Config :=
  if isField key "prompt" then (n.bytes c.prompt).map fun prompt => { c with prompt }
  else if isField key "historySize" then
    (n.integer c.historySize).map fun historySize => { c with historySize }
  else some c

def setRateLimit (s : ServeConfig) (key : Bytes) (n : Node) : Option ServeConfig :=
  if isField key "limit" then (n.number s.limit).map fun limit => { s with limit }
  else if isField key "burst" then (n.integer s.burst).map fun burst => { s with burst }
  else some s

def setServe (s : ServeConfig) (key : Bytes) (n : Node) : Option ServeConfig :=
  if isField key "address" then (n.bytes s.address).map fun address => { s with address }
  else if isField key "hostKeyPath" then
    (n.bytes s.hostKeyPath).map fun hostKeyPath => { s with hostKeyPath }
  else if isField key "authorizedKeys" then
    n.bytesList.map fun authorizedKeys => { s with authorizedKeys }
  else if isField key "rateLimit" then n.fields setRateLimit s
  else if isField key "maxSessionTime" then
    (n.duration s.maxSessionTime).map fun maxSessionTime => { s with maxSessionTime }
  else some s

def setSection (c : Config) (key : Bytes) (n : Node) : Option Config :=
  if isField key "logging" then n.fields setLogging c
  else if isField key "interpreter" then n.fields setInterpreter c
  else if isField key "repl" then n.fields setRepl c
  else if isField key "serve" then (n.fields setServe c.serve).map fun serve => { c with serve }
  else some c

def ofDocument? (text : Bytes) : Option Config :=
  do (← Document.parse? text).fields setSection default

def load (text : Bytes) : Except ConfigError Config :=
  match ofDocument? text with
  | none => .error .unmarshallable
  | some c => do
    c.validate
    .ok c

end Config
end CallScript
