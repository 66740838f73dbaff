import CallScript.Function.Builtin
import CallScript.Function.Definition

/- All functions a program can call, in the order in which they were added. Nothing is ever removed,
   and of several functions with one name the oldest that accepts a call gets it. -/
namespace CallScript

inductive Function where
  | system (f : SystemFunction)
  | context (f : ContextFunction)
  | defined (f : Definition)
  deriving DecidableEq, Repr

namespace Function

def signature : Function → Signature
  | .system f => f.signature
  | .context f => f.signature
  | .defined f => f.signature

def origin : Function → Bytes
  | .system _ => utf8 "system"
  | .context _ => utf8 "context"
  | .defined _ => utf8 "defined"

end Function

/-- The functions, and for each name the positions of the functions with that name. -/
structure Registry where
  functions : Array Function
  positions : List (Name × List Nat)
  deriving DecidableEq, Repr

namespace Registry

def empty : Registry := ⟨#[], []⟩

def size (r : Registry) : Nat := r.functions.size

def enter (name : Name) (position : Nat) : List (Name × List Nat) → List (Name × List Nat)
  | [] => [(name, [position])]
  | (other, held) :: rest =>
    if name = other then (other, held ++ [position]) :: rest
    else (other, held) :: enter name position rest

def add (r : Registry) (f : Function) : Registry :=
  ⟨r.functions.push f, enter f.signature.name r.functions.size r.positions⟩

def candidates (r : Registry) (name : Name) : List Function :=
  ((r.positions.lookup name).getD []).filterMap fun i => r.functions[i]?

def builtins : List Function :=
  SystemFunction.functions.map .system ++ ContextFunction.functions.map .context

def initial : Registry := builtins.foldl add empty

def definitions (r : Registry) : List Definition :=
  r.functions.toList.filterMap fun
    | .defined f => some f
    | _ => none

end Registry
end CallScript
