import CallScript.Value.Datum

/- Programs. A program is a list of invocations, and the arguments of an invocation are nested
   invocations, identifiers and literals. -/
namespace CallScript

/-- An argument. A host may build one with a tag that has no meaning. -/
inductive Argument where
  | call (name : Name) (args : List Argument)
  | ident (name : Name)
  | literal (value : Datum)
  | unknown (tag : Int)
  deriving Repr

structure Invocation where
  name : Name
  args : List Argument
  deriving Repr

abbrev Program := List Invocation

namespace Argument

instance : Inhabited Argument := ⟨.unknown 0⟩

def ident? : Argument → Option Name
  | .ident name => some name
  | _ => none

mutual

def decideEq : (a b : Argument) → Decidable (a = b)
  | .call m as, .call n bs =>
    match decEq m n, decideEqs as bs with
    | isTrue hn, isTrue ha => isTrue (by rw [hn, ha])
    | isFalse hn, _ => isFalse fun h => hn (by injection h)
    | _, isFalse ha => isFalse fun h => ha (by injection h)
  | .ident m, .ident n =>
    match decEq m n with
    | isTrue h => isTrue (by rw [h])
    | isFalse h => isFalse fun e => h (by injection e)
  | .literal d, .literal e =>
    match decEq d e with
    | isTrue h => isTrue (by rw [h])
    | isFalse h => isFalse fun g => h (by injection g)
  | .unknown j, .unknown k =>
    match decEq j k with
    | isTrue h => isTrue (by rw [h])
    | isFalse h => isFalse fun e => h (by injection e)
  | .call .., .ident _ | .call .., .literal _ | .call .., .unknown _
  | .ident _, .call .. | .ident _, .literal _ | .ident _, .unknown _
  | .literal _, .call .. | .literal _, .ident _ | .literal _, .unknown _
  | .unknown _, .call .. | .unknown _, .ident _ | .unknown _, .literal _ =>
    isFalse (by intro h; cases h)

def decideEqs : (as bs : List Argument) → Decidable (as = bs)
  | [], [] => isTrue rfl
  | [], _ :: _ => isFalse (by intro h; cases h)
  | _ :: _, [] => isFalse (by intro h; cases h)
  | a :: as, b :: bs =>
    match a.decideEq b, decideEqs as bs with
    | isTrue ha, isTrue hs => isTrue (by rw [ha, hs])
    | isFalse ha, _ => isFalse fun h => ha (by injection h)
    | _, isFalse hs => isFalse fun h => hs (by injection h)

end

instance : DecidableEq Argument := decideEq

end Argument

deriving instance DecidableEq for Invocation

end CallScript
