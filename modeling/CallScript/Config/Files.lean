import CallScript.Config.Load
import CallScript.Files.Source

/- Configurations and host keys in files. -/
namespace CallScript

namespace Config

def loadFile (d : Directory) (path : Bytes) : Except ConfigError Config :=
  match d.read path with
  | .ok text => load text
  | .error _ => .error .unreadable

def generate (d : Directory) (path : Bytes) : Except ConfigError Directory :=
  let made := d.makeFolder (Path.parent path)
  match made.bind fun d => d.write path (.text defaultDocument) 0o644 with
  | some d => .ok d
  | none => .error .unwritable

end Config

def ensureHostKey (d : Directory) (path : Bytes) : Except ConfigError Directory :=
  match d.find path with
  | .ok _ => .ok d
  | .error .noSuchFile =>
    match (d.makeFolder (Path.parent path)).bind fun d => d.write path .hostKey 0o600 with
    | some d => .ok d
    | none => .error .hostKeyGeneration
  | .error _ => .error .hostKeyGeneration

end CallScript
