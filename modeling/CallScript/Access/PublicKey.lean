import CallScript.Text.Base64
import CallScript.Text.Blank

/- Public keys in lines of the form `TYPE BASE64 COMMENT`, with options before the type if there are
   any. The base64 part holds the key itself; only Ed25519 keys are known. -/
namespace CallScript

def takeSized : Bytes → Option (Bytes × Bytes)
  | a :: b :: c :: d :: rest =>
    let size := ((a.toNat * 256 + b.toNat) * 256 + c.toNat) * 256 + d.toNat
    if size ≤ rest.length then some (rest.take size, rest.drop size) else none
  | _ => none

structure PublicKey where
  blob : Bytes
  deriving DecidableEq, Repr

namespace PublicKey

def algorithm : Bytes := utf8 "ssh-ed25519"

/-- A key is the name of the algorithm and 32 bytes, with nothing after them. -/
def ofBlob? (blob : Bytes) : Option PublicKey := do
  let (name, rest) ← takeSized blob
  let (key, rest) ← takeSized rest
  if name = algorithm && key.length = 32 && rest.isEmpty then some ⟨blob⟩ else none

def isGap (c : UInt8) : Bool := c = 32 || c = 9

def ofFields? (fields : Bytes) : Option (PublicKey × Bytes) := do
  let text := fields.trim
  let blob ← decodeBase64 (text.takeWhile fun c => !isGap c)
  let key ← ofBlob? blob
  some (key, Bytes.trim (text.dropWhile fun c => !isGap c))

/-- What follows the options of a line, which end at the first gap outside of quotes. -/
def dropOptions (quoted : Bool) (before : UInt8) : Bytes → Bytes
  | [] => []
  | c :: rest =>
    if !quoted && isGap c then rest.dropWhile isGap
    else dropOptions (if c = ascii '"' && before ≠ ascii '\\' then !quoted else quoted) c rest

def ofTyped? (line : Bytes) : Option (PublicKey × Bytes) :=
  match line.dropWhile fun c => !isGap c with
  | [] => none
  | fields => ofFields? fields

def ofLine? (line : Bytes) : Option (PublicKey × Bytes) :=
  let line := Bytes.trim (line.takeWhile (· ≠ 13))
  if line.isEmpty || line.head? = some (ascii '#') then none
  else (ofTyped? line).or (ofTyped? (dropOptions false 0 line))

def parse? (text : Bytes) : Option (PublicKey × Bytes) :=
  (Bytes.splitAt Bytes.newline text).findSome? ofLine?

def read? (text : Bytes) : Option PublicKey := (parse? text).map Prod.fst

end PublicKey
end CallScript
