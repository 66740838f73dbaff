import CallScript.Document.Node
import CallScript.Number.Numeral
import CallScript.Text.Base64

/- What the nodes of a document mean: null, truth values, numbers and texts, and the settings of
   mappings. -/
namespace CallScript

inductive Scalar where
  | null
  | boolean (value : Bool)
  | integer (value : Int)
  | float (value : Number)
  | string (text : Bytes)
  deriving DecidableEq, Repr

namespace Scalar

def words : List (Bytes × Scalar) :=
  [([], .null), (utf8 "~", .null), (utf8 "null", .null), (utf8 "Null", .null), (utf8 "NULL", .null),
    (utf8 "true", .boolean true), (utf8 "True", .boolean true), (utf8 "TRUE", .boolean true),
    (utf8 "false", .boolean false), (utf8 "False", .boolean false), (utf8 "FALSE", .boolean false),
    (utf8 ".nan", .float .nan), (utf8 ".NaN", .float .nan), (utf8 ".NAN", .float .nan),
    (utf8 ".inf", .float .infinity), (utf8 ".Inf", .float .infinity),
    (utf8 ".INF", .float .infinity), (utf8 "+.inf", .float .infinity),
    (utf8 "+.Inf", .float .infinity), (utf8 "+.INF", .float .infinity),
    (utf8 "-.inf", .float (.ofMagnitude true Number.infiniteMagnitude)),
    (utf8 "-.Inf", .float (.ofMagnitude true Number.infiniteMagnitude)),
    (utf8 "-.INF", .float (.ofMagnitude true Number.infiniteMagnitude))]

def digits? (base : Nat) (text : Bytes) : Option Nat :=
  if text.isEmpty then none
  else text.foldlM (fun acc c => do
    let d ← Bytes.hexValue? c
    if d < base then some (base * acc + d) else none) 0

def magnitude? (text : Bytes) : Option Nat :=
  match text with
  | zero :: mark :: rest =>
    if zero = ascii '0' then
      let mark := Bytes.toLower mark
      if mark = ascii 'x' then digits? 16 rest
      else if mark = ascii 'o' then digits? 8 rest
      else if mark = ascii 'b' then digits? 2 rest
      else digits? 8 text.tail
    else digits? 10 text
  | _ => digits? 10 text

def integer? (text : Bytes) : Option Int := do
  let (negative, text) := match text with
    | c :: rest => if c = ascii '-' then (true, rest) else if c = ascii '+' then (false, rest)
      else (false, text)
    | [] => (false, text)
  let n ← magnitude? text
  if negative then (if n ≤ Nat.pow 2 63 then some (-(n : Int)) else none)
  else if n < Nat.pow 2 64 then some n else none

def float? (text : Bytes) : Option Number := do
  let unsigned := match text with
    | c :: rest => if c = ascii '-' || c = ascii '+' then rest else text
    | [] => text
  let first ← unsigned.head?
  if (Bytes.isDigit first || (first = ascii '.' && unsigned.tail.head?.any Bytes.isDigit)) &&
      unsigned.all (fun c => Bytes.isDigit c || (utf8 ".eE+-").contains c) then
    let value ← Number.parse? text
    if value.isInfinite then none else some value
  else none

def ofPlain (text : Bytes) : Scalar :=
  match words.lookup text with
  | some s => s
  | none =>
    let bare := text.filter (· ≠ ascii '_')
    match text.head? with
    | none => .null
    | some c =>
      if Bytes.isDigit c || c = ascii '-' || c = ascii '+' then
        match integer? bare, float? bare with
        | some n, _ => .integer n
        | none, some x => .float x
        | none, none => .string text
      else if c = ascii '.' then
        match Number.parse? text with
        | some x => if x.isInfinite then .string text else .float x
        | none => .string text
      else .string text

def tag : Scalar → Bytes
  | .null => utf8 "!!null"
  | .boolean _ => utf8 "!!bool"
  | .integer _ => utf8 "!!int"
  | .float _ => utf8 "!!float"
  | .string _ => utf8 "!!str"

/-- The meaning of a scalar with a tag. It has to be what the tag says, but a whole number of 64
bits with a sign can be taken for another number. -/
def ofTagged? (tag text : Bytes) : Option Scalar :=
  if tag = utf8 "!!str" then some (.string text)
  else if tag = utf8 "!!binary" then
    (decodeBase64 (text.filter fun c => c ≠ 10 && c ≠ 13)).map Scalar.string
  else
    let plain := ofPlain text
    if plain.tag = tag then some plain
    else match plain with
      | .integer n =>
        if tag = utf8 "!!float" && n < (Nat.pow 2 63 : Nat) then
          some (.float (.ofRatio (n < 0) n.natAbs 1))
        else none
      | _ => none

end Scalar

namespace Node

def resolved : Node → Option Node
  | .reference _ target => target
  | n => some n

def scalar? (n : Node) : Option (Bytes × Scalar) :=
  match n.resolved with
  | some (.scalar text plain none) => some (text, if plain then .ofPlain text else .string text)
  | some (.scalar text _ (some tag)) => (Scalar.ofTagged? tag text).map (text, ·)
  | _ => none

def meaning? (n : Node) : Option Scalar := n.scalar?.map Prod.snd

def isNull (n : Node) : Bool := n.meaning? = some .null

def text? (n : Node) : Option Bytes :=
  match n.scalar? with
  | some (_, .null) => none
  | some (_, .string text) => some text
  | some (text, _) => some text
  | none => none

/-- What tells keys apart: what kind of node they are, and how they are written. -/
def keyIdentity : Node → Nat × Bytes
  | .scalar text _ _ => (0, text)
  | .sequence _ => (1, [])
  | .mapping _ => (2, [])
  | .reference name _ => (3, name)

def isMerge : Node → Bool
  | .scalar text plain tag =>
    text = utf8 "<<" && (tag = some (utf8 "!!merge") || (tag.isNone && plain))
  | _ => false

def distinctKeys (entries : List (Node × Node)) : Bool :=
  (entries.map fun entry => entry.1.keyIdentity).Nodup

mutual

/-- The settings of a mapping: its own entries, then those of the mappings it merges. A key that is
nothing is left out. -/
def settings? : Node → Option (List (Bytes × Node))
  | .mapping entries =>
    if distinctKeys entries then
      (entrySettings? entries).map fun (own, merged) => own ++ merged
    else none
  | .reference _ target => targetSettings? target
  | _ => none

def targetSettings? : Option Node → Option (List (Bytes × Node))
  | some n => settings? n
  | none => none

def listSettings? : List Node → Option (List (Bytes × Node))
  | [] => some []
  | n :: rest => do return (← settings? n) ++ (← listSettings? rest)

def entrySettings? : List (Node × Node) → Option (List (Bytes × Node) × List (Bytes × Node))
  | [] => some ([], [])
  | (key, value) :: rest => do
    let (own, merged) ← entrySettings? rest
    if key.isMerge then
      let more ← match value with
        | .sequence items => listSettings? items
        | other => settings? other
      some (own, more ++ merged)
    else if key.isNull then some (own, merged)
    else some ((← key.text?, value) :: own, merged)

end

def firstSettings (seen : List Bytes) : List (Bytes × Node) → List (Bytes × Node)
  | [] => []
  | (name, value) :: rest =>
    if seen.contains name then firstSettings seen rest
    else (name, value) :: firstSettings (name :: seen) rest

def fields (update : α → Bytes → Node → Option α) (old : α) (n : Node) : Option α :=
  if n.isNull then some old
  else do
    let settings ← n.settings?
    (firstSettings [] settings).foldlM (fun value (name, node) => update value name node) old

end Node
end CallScript
