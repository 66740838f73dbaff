import CallScript.Text.Bytes

/- Network addresses: a host, a colon and the number of a service. A host with colons stands in
   brackets. -/
namespace CallScript

def bracketedHost? (text : Bytes) : Option Bytes :=
  let host := text.takeWhile (· ≠ ascii ']')
  match text.dropWhile (· ≠ ascii ']') with
  | _ :: colon :: service =>
    if colon = ascii ':' && !service.contains (ascii ':') && !text.contains (ascii '[') &&
      !service.contains (ascii ']') then some host else none
  | _ => none

def splitHost? (address : Bytes) : Option Bytes :=
  match address with
  | [] => none
  | c :: rest =>
    if c = ascii '[' then bracketedHost? rest
    else match Bytes.splitLast? (ascii ':') address with
      | none => none
      | some (host, _) =>
        if host.contains (ascii ':') || address.contains (ascii '[') || address.contains (ascii ']')
        then none else some host

/-- The text that identifies a remote host; an address that is not well formed stands for itself. -/
def remoteHost : Option Bytes → Bytes
  | none => []
  | some address => (splitHost? address).getD address

end CallScript
