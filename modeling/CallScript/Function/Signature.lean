import CallScript.Value.Datum

/- Signatures say which arguments a function takes and what it gives. -/
namespace CallScript

/-- What one parameter asks of its argument. A raw argument is not evaluated. -/
inductive Slot where
  | raw
  | any
  | shape (required : Shape)
  deriving DecidableEq, Repr

def Slot.name : Slot → Bytes
  | .raw => utf8 "raw"
  | .any => utf8 "any"
  | .shape s => s.name

inductive ResultType where
  | any
  | shape (promised : Shape)
  deriving DecidableEq, Repr

namespace ResultType

def name : ResultType → Bytes
  | .any => utf8 "any"
  | .shape s => s.name

def shape? : ResultType → Option Shape
  | .any => none
  | .shape s => some s

end ResultType

structure Signature where
  name : Name
  slots : List Slot
  repeating : Bool
  returns : ResultType
  deriving DecidableEq, Repr

namespace Signature

/-- A repeating signature takes any number of arguments, even none. -/
def acceptsArity (s : Signature) (count : Nat) : Bool :=
  if s.repeating then !s.slots.isEmpty else count == s.slots.length

/-- The slot of an argument position; positions past the last slot use it again. -/
def slot? (s : Signature) (position : Nat) : Option Slot :=
  s.slots[position]?.or s.slots.getLast?

def layout (name : Name) (slots : List Bytes) (repeating : Bool) (returns : Bytes) : Bytes :=
  name ++ ascii '(' :: Bytes.join (utf8 ", ") slots ++
    (if repeating then utf8 "..." else []) ++ utf8 ") -> " ++ returns

def render (s : Signature) : Bytes :=
  layout s.name (s.slots.map Slot.name) s.repeating s.returns.name

theorem slot?_isSome {s : Signature} {count position : Nat} (accepted : s.acceptsArity count)
    (inside : position < count) : (s.slot? position).isSome := by
  unfold acceptsArity at accepted
  unfold slot?
  cases h : s.slots[position]? with
  | some slot => rfl
  | none =>
    rw [List.getElem?_eq_none_iff] at h
    split at accepted
    · cases hs : s.slots with
      | nil => simp [hs] at accepted
      | cons first rest => simp
    · simp only [beq_iff_eq] at accepted
      omega

end Signature
end CallScript
