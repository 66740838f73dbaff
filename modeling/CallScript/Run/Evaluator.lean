import CallScript.Run.Matching
import CallScript.Run.System

/- Evaluation. An invocation is matched with a function, its remaining arguments are evaluated, and
   the function is run. Everything here takes the evaluator of nested invocations as a parameter;
   `evaluate` ties the knot with a supply of fuel, which bounds how deep invocations nest and how
   often one loop goes round. -/
namespace CallScript

open Eval

structure Settings where
  depthLimit : Option Nat
  trace : Bool
  deriving DecidableEq, Repr

def evalArgument (eval : Invocation → Eval CellId) : Argument → Eval CellId
  | .literal value => do alloc (← copy value)
  | .ident name => lookup name
  | .call name args => eval ⟨name, args⟩
  | .unknown tag => fail (.unknownArgument tag)

/-- An argument as a context function receives it: unevaluated, with its cell unless its slot is
raw. -/
structure Prepared where
  raw : Argument
  cell : Option CellId
  deriving DecidableEq, Repr

def evalRemaining (eval : Argument → Eval CellId) (args : List Pending) : Eval (List CellId) :=
  args.mapM fun p =>
    match p.cell with
    | some c => pure c
    | none => eval p.arg

def prepareOne (eval : Argument → Eval CellId) (p : Pending) : Slot → Eval Prepared
  | .raw => return ⟨p.arg, none⟩
  | _ =>
    match p.cell with
    | some c => return ⟨p.arg, some c⟩
    | none => do
      let c ← eval p.arg
      return ⟨p.arg, some c⟩

def prepare (eval : Argument → Eval CellId) (s : Signature) :
    Nat → List Pending → Eval (List Prepared)
  | _, [] => return []
  | position, p :: rest => do
    let first ← prepareOne eval p (← need (s.slot? position))
    let rest ← prepare eval s (position + 1) rest
    return first :: rest

def runBlock (eval : Argument → Eval CellId) : List Prepared → Eval (Option CellId)
  | [] => return none
  | s :: rest => do
    let c ← eval s.raw
    match ← contents c with
    | .flow _ _ => return some c
    | _ => runBlock eval rest

namespace ContextFunction

def runBind : List Prepared → Eval CellId
  | [target, value] => do
    match target.raw.ident? with
    | some name =>
      bind name (← need value.cell)
      unit
    | none => fail (.cannotBind (target.raw.render (← get).heap))
  | _ => throw .crashed

def runAssign : List Prepared → Eval CellId
  | [target, value] => do
    match target.raw.ident? with
    | some name =>
      let c ← lookup name
      store c (← copy (← contents (← need value.cell)))
      unit
    | none => fail (.cannotAssign (target.raw.render (← get).heap))
  | _ => throw .crashed

def blockResult : Option CellId → Eval CellId
  | some c => return c
  | none => unit

def runConditional (eval : Argument → Eval CellId) : List Prepared → Eval CellId
  | [] => fail (.predicateMissing (utf8 "if"))
  | condition :: body => do
    if ← expectBoolean (← need condition.cell) then
      blockResult (← inBlock (runBlock eval body))
    else unit

/-- Goes round at most `fuel` times. The predicate is evaluated in the scope of the loop, each round
of the body in a copy of it. -/
def runLoop (eval : Argument → Eval CellId) (predicate : Argument) (body : List Prepared) :
    Nat → Eval CellId
  | 0 => throw .outOfFuel
  | fuel + 1 => do
    checkPatience
    if ← expectBoolean (← eval predicate) then
      match ← inBlock (runBlock eval body) with
      | none => runLoop eval predicate body fuel
      | some c =>
        match ← contents c with
        | .flow .breaks _ => unit
        | .flow .continues _ => runLoop eval predicate body fuel
        | _ => return c
    else unit

def runDefine (args : List Prepared) : Eval CellId := do
  match Outline.ofArguments (args.map Prepared.raw) with
  | .ok outline =>
    modify fun m =>
      let (closure, heap) := m.scope.snapshot m.heap
      { m with heap, registry := m.registry.add (.defined (outline.close closure)) }
    record (.defined outline.signature)
    unit
  | .error fault => fail (.badDefinition (fault.detail (← get).heap))

def run (eval : Argument → Eval CellId) (fuel : Nat) (f : ContextFunction) (args : List Prepared) :
    Eval CellId :=
  match f with
  | .bindName => runBind args
  | .assign => runAssign args
  | .conditional => runConditional eval args
  | .loop =>
    match args with
    | [] => fail (.predicateMissing (utf8 "while"))
    | predicate :: body => runLoop eval predicate.raw body fuel
  | .define => runDefine args

end ContextFunction

namespace Definition

/-- Runs the statements of a body up to the first return, and gives the cell it carries. Other
control flow is ignored. -/
def runBody (eval : Invocation → Eval CellId) : List Invocation → Eval CellId
  | [] => unit
  | s :: rest => do
    match ← contents (← eval s) with
    | .flow .returns (some c) => return c
    | .flow .returns none => unit
    | _ => runBody eval rest

def call (eval : Invocation → Eval CellId) (f : Definition) (args : List CellId) : Eval CellId := do
  checkPatience
  inScope (f.closure.bindAll (f.params.zip args)) (runBody eval f.body)

end Definition

def dispatch (eval : Invocation → Eval CellId) (fuel : Nat) (f : Function) (args : List Pending) :
    Eval CellId :=
  match f with
  | .system s => do s.run (← evalRemaining (evalArgument eval) args)
  | .context c => do
    c.run (evalArgument eval) fuel (← prepare (evalArgument eval) c.signature 0 args)
  | .defined d => do d.call eval (← evalRemaining (evalArgument eval) args)

def invoke (settings : Settings) (eval : Invocation → Eval CellId) (fuel depth : Nat)
    (inv : Invocation) : Eval CellId := do
  let (f, args) ← Matching.resolve (evalArgument eval) inv
  if settings.trace then record (.invoke inv.name f.origin depth)
  dispatch eval fuel f args

def evaluate (settings : Settings) : Nat → Nat → Invocation → Eval CellId
  | 0, _, _ => throw .outOfFuel
  | fuel + 1, depth, inv =>
    inCall inv <|
      match settings.depthLimit with
      | some limit =>
        if limit ≤ depth then fail (.depthExceeded limit)
        else invoke settings (evaluate settings fuel (depth + 1)) fuel (depth + 1) inv
      | none => invoke settings (evaluate settings fuel (depth + 1)) fuel (depth + 1) inv

end CallScript
