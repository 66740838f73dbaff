import CallScript.Program.Reader
import CallScript.Files.Directory

/- Programs in files. -/
namespace CallScript

inductive SourceError where
  | open (path : Bytes) (fault : FileFault)
  | read (path : Bytes) (fault : FileFault)
  | parse (path : Bytes) (error : ParseError)
  deriving DecidableEq, Repr

namespace SourceError

def label : SourceError → Bytes
  | .open path _ => utf8 "reading " ++ path ++ utf8 ": open " ++ path ++ utf8 ": "
  | .read path _ => utf8 "reading " ++ path ++ utf8 ": read " ++ path ++ utf8 ": "
  | .parse path _ => path ++ utf8 ": "

def message (e : SourceError) : Bytes :=
  e.label ++
    match e with
    | .open _ fault | .read _ fault => fault.text
    | .parse _ error => error.message

end SourceError

def Content.bytes : Content → Bytes
  | .text bytes => bytes
  | .hostKey => []

namespace Directory

def read (d : Directory) (path : Bytes) : Except SourceError Bytes :=
  match d.find path with
  | .ok (.file f) => .ok f.content.bytes
  | .ok .folder => .error (.read path .isDirectory)
  | .error fault => .error (.open path fault)

def program (d : Directory) (path : Bytes) : Except SourceError Program := do
  let text ← d.read path
  (Program.parse text).mapError (.parse path)

end Directory
end CallScript
