import CallScript.Run.Machine

/- Which function a call goes to: the oldest one of its name whose slots fit the shapes of the
   arguments. Shapes are predicted from literals, variables and declared results; an argument is
   evaluated only when its shape cannot be told otherwise. Predictions are kept for the other
   candidates of a call until an argument has been evaluated, since that may change them. A
   prediction is told by the machine alone, and the machine does not change while predictions are
   kept; so it makes no difference which of them are kept, and whether a nested call shares those of
   the call around it: asking again gives the same answer. -/
namespace CallScript

/-- Asks for the shape of an argument; there is no answer when only evaluation can tell. -/
abbrev Question := Unit → Option Shape

abbrev Answers := List (Option (Option Shape))

inductive Verdict where
  | accepted
  | rejected
  | undecided
  deriving DecidableEq, Repr

namespace Matching

/-- Compares the slots from a position on with the shapes of the arguments; an answer already known
is not asked for again. -/
def compare (s : Signature) : Nat → List Question → Answers → Verdict × Answers
  | position, question :: questions, known :: answers =>
    match s.slot? position with
    | some (.shape required) =>
      let answer := match known with
        | some answer => answer
        | none => question ()
      match answer with
      | none => (.undecided, some answer :: answers)
      | some shape =>
        if shape = required then
          let (verdict, answers) := compare s (position + 1) questions answers
          (verdict, some answer :: answers)
        else (.rejected, some answer :: answers)
    | _ =>
      let (verdict, answers) := compare s (position + 1) questions answers
      (verdict, known :: answers)
  | _, _, answers => (.accepted, answers)

/-- The declared result of the first signature that fits, unless a shape that cannot be told comes
first. -/
def settle (questions : List Question) : List Signature → Answers → Option ResultType
  | [], _ => none
  | s :: rest, answers =>
    if s.acceptsArity questions.length then
      match compare s 0 questions answers with
      | (.accepted, _) => some s.returns
      | (.undecided, _) => none
      | (.rejected, answers) => settle questions rest answers
    else settle questions rest answers

def unasked (questions : List Question) : Answers := questions.map fun _ => none

mutual

def shape? (m : Machine) : Argument → Option Shape
  | .literal value => some value.shape
  | .ident name => (m.scope.find? name).map fun c => (m.heap.get c).shape
  | .call name args =>
    let questions := questions m args
    (settle questions ((m.registry.candidates name).map Function.signature)
      (unasked questions)).bind ResultType.shape?
  | .unknown _ => none

def questions (m : Machine) : List Argument → List Question
  | [] => []
  | a :: rest => (fun _ => shape? m a) :: questions m rest

end

def predict (m : Machine) (inv : Invocation) : Option ResultType :=
  let questions := questions m inv.args
  settle questions ((m.registry.candidates inv.name).map Function.signature) (unasked questions)

end Matching

/-- An argument of a call that is being matched: its cell once it has been evaluated, and its shape
once it has been predicted. -/
structure Pending where
  arg : Argument
  cell : Option CellId
  predicted : Option (Option Shape)
  deriving DecidableEq, Repr

namespace Pending

def ofArgument (a : Argument) : Pending := ⟨a, none, none⟩

def shape? (m : Machine) (p : Pending) : Option Shape × Pending :=
  match p.cell, p.predicted with
  | some c, _ => (some (m.heap.get c).shape, p)
  | none, some shape => (shape, p)
  | none, none =>
    let shape := Matching.shape? m p.arg
    (shape, { p with predicted := some shape })

def forget (p : Pending) : Pending := { p with predicted := none }

end Pending

namespace Matching

/-- Evaluates the arguments up to a position that the signature evaluates and that have no cell yet,
from left to right. Predictions are forgotten. -/
def force (eval : Argument → Eval CellId) (s : Signature) (last : Nat) :
    Nat → List Pending → Eval (List Pending)
  | _, [] => return []
  | position, p :: rest => do
    if last < position then return (p :: rest).map Pending.forget
    match p.cell, s.slot? position with
    | none, some .raw =>
      let rest ← force eval s last (position + 1) rest
      return p.forget :: rest
    | none, some _ =>
      let c ← eval p.arg
      let rest ← force eval s last (position + 1) rest
      return { p.forget with cell := some c } :: rest
    | none, none => throw .crashed
    | some _, _ =>
      let rest ← force eval s last (position + 1) rest
      return p.forget :: rest

def accepts (eval : Argument → Eval CellId) (s : Signature) :
    Nat → Nat → List Pending → Eval (Bool × List Pending)
  | 0, _, args => return (true, args)
  | left + 1, position, args => do
    match ← Eval.need (s.slot? position) with
    | .shape required =>
      let p ← Eval.need args[position]?
      match p.shape? (← get) with
      | (some shape, p) =>
        let args := args.set position p
        if shape = required then accepts eval s left (position + 1) args else return (false, args)
      | (none, _) =>
        let args ← force eval s position 0 args
        let c ← Eval.need (args[position]?.bind Pending.cell)
        let d ← Eval.contents c
        if d.shape = required then accepts eval s left (position + 1) args else return (false, args)
    | _ => accepts eval s left (position + 1) args

def choose (eval : Argument → Eval CellId) (name : Name) :
    List Function → List Pending → Eval (Function × List Pending)
  | [], args => do
    let m ← get
    Eval.fail (.functionNotFound name (args.map fun p => (p.shape? m).1))
  | f :: rest, args => do
    if f.signature.acceptsArity args.length then
      match ← accepts eval f.signature args.length 0 args with
      | (true, args) => return (f, args)
      | (false, args) => choose eval name rest args
    else choose eval name rest args

def resolve (eval : Argument → Eval CellId) (inv : Invocation) :
    Eval (Function × List Pending) := do
  let candidates := (← get).registry.candidates inv.name
  choose eval inv.name candidates (inv.args.map .ofArgument)

end Matching
end CallScript
