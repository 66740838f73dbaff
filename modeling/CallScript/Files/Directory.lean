import CallScript.Text.Bytes

/- A directory and the files around it, as a value. Paths are relative to the directory or start at
   the root. -/
namespace CallScript

/-- What a file holds. The bytes of a generated host key are random and never looked at. -/
inductive Content where
  | text (bytes : Bytes)
  | hostKey
  deriving DecidableEq, Repr

structure File where
  content : Content
  mode : Nat
  deriving DecidableEq, Repr

inductive FileFault where
  | noSuchFile
  | notDirectory
  | isDirectory
  | invalidName
  | nameTooLong
  deriving DecidableEq, Repr

def FileFault.text : FileFault → Bytes
  | .noSuchFile => utf8 "no such file or directory"
  | .notDirectory => utf8 "not a directory"
  | .isDirectory => utf8 "is a directory"
  | .invalidName => utf8 "invalid argument"
  | .nameTooLong => utf8 "file name too long"

abbrev Place := List Bytes

inductive Found where
  | file (f : File)
  | folder
  deriving DecidableEq, Repr

structure Directory where
  files : List (Place × File)
  folders : List Place
  deriving DecidableEq, Repr

namespace Path

def slash : UInt8 := ascii '/'

def names (path : Bytes) : List Bytes :=
  (Bytes.splitAt slash path).filter fun name => !name.isEmpty && name ≠ utf8 "."

def namesFolder (path : Bytes) : Bool :=
  path.getLast? = some slash || path = utf8 "." || path = utf8 ".." ||
    (utf8 "/.").isSuffixOf path || (utf8 "/..").isSuffixOf path

def push (names : List Bytes) (name : Bytes) : List Bytes :=
  if name = utf8 ".." then
    match names with
    | [] => [name]
    | last :: before => if last = utf8 ".." then name :: names else before
  else name :: names

def parent (path : Bytes) : Bytes :=
  match Bytes.splitLast? slash path with
  | none => utf8 "."
  | some (before, _) =>
    let rooted := path.head? = some slash
    match ((names before).foldl push []).reverse with
    | [] => if rooted then [slash] else utf8 "."
    | list => (if rooted then [slash] else []) ++ Bytes.join [slash] list

end Path

namespace Directory

def empty : Directory := ⟨[], []⟩

/-- The root of all places, and the folders around this directory. -/
def isOutside (place : Place) : Bool := place = [[Path.slash]] || place.all (· = utf8 "..")

def at? (d : Directory) (place : Place) : Option Found :=
  match d.files.lookup place with
  | some f => some (.file f)
  | none => if isOutside place || d.folders.contains place then some .folder else none

def follow (here : Place) (name : Bytes) : Place :=
  if name = utf8 ".." then
    if here = [[Path.slash]] then here
    else if isOutside here then here ++ [name]
    else here.dropLast
  else here ++ [name]

def start (path : Bytes) : Place := if path.head? = some Path.slash then [[Path.slash]] else []

def walk (d : Directory) (here : Place) : List Bytes → Except FileFault (Place × Found)
  | [] =>
    match d.at? here with
    | some found => .ok (here, found)
    | none => .error .noSuchFile
  | name :: rest =>
    match d.at? here with
    | none => .error .noSuchFile
    | some (.file _) => .error .notDirectory
    | some .folder =>
      if 255 < name.length then .error .nameTooLong else walk d (follow here name) rest

def find (d : Directory) (path : Bytes) : Except FileFault Found := do
  if path.contains 0 then .error .invalidName
  else if path.isEmpty then .error .noSuchFile
  else
    let (_, found) ← d.walk (start path) (Path.names path)
    match found with
    | .folder => .ok .folder
    | .file f => if Path.namesFolder path then .error .notDirectory else .ok (.file f)

def makePlace (d : Directory) (here : Place) : List Bytes → Option Directory
  | [] => some d
  | name :: rest =>
    let next := follow here name
    match d.at? next with
    | some .folder => makePlace d next rest
    | some (.file _) => none
    | none =>
      if 255 < name.length then none
      else makePlace { d with folders := next :: d.folders } next rest

def makeFolder (d : Directory) (path : Bytes) : Option Directory :=
  if path.contains 0 then none else d.makePlace (start path) (Path.names path)

/-- Replaces a file, or adds one to a folder. A file that is replaced keeps its permissions. -/
def write (d : Directory) (path : Bytes) (content : Content) (mode : Nat) : Option Directory :=
  if path.contains 0 || Path.namesFolder path then none
  else
    let list := Path.names path
    match list.getLast?, d.walk (start path) list.dropLast with
    | some name, .ok (folder, .folder) =>
      let place := folder ++ [name]
      match d.at? place with
      | some .folder => none
      | some (.file f) =>
        some { d with
          files := (place, { f with content }) :: d.files.filter fun entry => entry.1 ≠ place }
      | none =>
        if 255 < name.length then none
        else some { d with files := (place, ⟨content, mode⟩) :: d.files }
    | _, _ => none

def withText (d : Directory) (path : Bytes) (text : Bytes) : Directory :=
  let made := (d.makeFolder (Path.parent path)).getD d
  (made.write path (.text text) 0o644).getD made

end Directory
end CallScript
