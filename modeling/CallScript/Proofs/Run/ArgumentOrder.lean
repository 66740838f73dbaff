import CallScript.Proofs.Run.Matched
import CallScript.Proofs.Run.Reached

/- The arguments of a call are evaluated once each and from left to right, before the code of the
   function that the call goes to is run. -/
namespace CallScript

open Eval

inductive Arrival where
  | system (f : SystemFunction) (cells : List CellId)
  | context (f : ContextFunction) (args : List Prepared)
  | defined (f : Definition) (cells : List CellId)

namespace Arrival

def function : Arrival → Function
  | .system f _ => .system f
  | .context f _ => .context f
  | .defined f _ => .defined f

def received : Arrival → List (Option CellId)
  | .system _ cells => cells.map some
  | .context _ args => args.map Prepared.cell
  | .defined _ cells => cells.map some

def run (eval : Invocation → Eval CellId) (fuel : Nat) : Arrival → Eval CellId
  | .system f cells => f.run cells
  | .context f args => f.run (evalArgument eval) fuel args
  | .defined f cells => f.call eval cells

end Arrival

def gather (eval : Argument → Eval CellId) (f : Function) (args : List Pending) : Eval Arrival :=
  match f with
  | .system s => do return .system s (← evalRemaining eval args)
  | .context c => do return .context c (← prepare eval c.signature 0 args)
  | .defined d => do return .defined d (← evalRemaining eval args)

/-- A call as far as the code of the function it goes to. -/
def arrive (settings : Settings) (eval : Invocation → Eval CellId) (depth : Nat)
    (inv : Invocation) : Eval Arrival := do
  let (f, args) ← Matching.resolve (evalArgument eval) inv
  if settings.trace then record (.invoke inv.name f.origin depth)
  gather (evalArgument eval) f args

theorem dispatch_eq (eval : Invocation → Eval CellId) (fuel : Nat) (f : Function)
    (args : List Pending) :
    dispatch eval fuel f args = gather (evalArgument eval) f args >>= (·.run eval fuel) := by
  cases f with
  | system s => simp [dispatch, gather, Arrival.run]
  | context c => simp [dispatch, gather, Arrival.run]
  | defined d => simp [dispatch, gather, Arrival.run]

theorem invoke_eq (settings : Settings) (eval : Invocation → Eval CellId) (fuel depth : Nat)
    (inv : Invocation) :
    invoke settings eval fuel depth inv = arrive settings eval depth inv >>= (·.run eval fuel) := by
  simp only [invoke, arrive, dispatch_eq, bind_assoc]
  congr
  funext ⟨f, args⟩
  dsimp only
  split
  · rw [bind_assoc]
  · rfl

def withinDepth (settings : Settings) (depth : Nat) (x : Eval CellId) : Eval CellId :=
  match settings.depthLimit with
  | some limit => if limit ≤ depth then fail (.depthExceeded limit) else x
  | none => x

theorem evaluate_eq (settings : Settings) (fuel depth : Nat) (inv : Invocation) :
    evaluate settings (fuel + 1) depth inv = inCall inv (withinDepth settings depth
      (arrive settings (evaluate settings fuel (depth + 1)) (depth + 1) inv >>=
        (·.run (evaluate settings fuel (depth + 1)) fuel))) := by
  rw [← invoke_eq]
  rfl

namespace Signature

theorem slot_mem {s : Signature} {i : Nat} {slot : Slot} (found : s.slot? i = some slot) :
    slot ∈ s.slots := by
  rcases Option.or_eq_some_iff.mp found with found | ⟨_, found⟩
  · exact List.mem_of_getElem? found
  · exact List.mem_of_getLast? found

theorem eager_of_slots {s : Signature} (slots : ∀ slot ∈ s.slots, slot ≠ .raw) : s.Eager :=
  fun _ found => slots _ (slot_mem found) rfl

end Signature

theorem SystemFunction.eager (f : SystemFunction) : f.signature.Eager := by
  apply Signature.eager_of_slots
  cases f <;> decide

theorem ContextFunction.settled (f : ContextFunction) : f.signature.Settled := by
  intro i shape found j le
  cases f with
  | conditional =>
    cases i with
    | zero =>
      rw [Nat.le_zero.mp le]
      decide
    | succ i =>
      have raw : ContextFunction.conditional.signature.slot? (i + 1) = some .raw := by
        cases i with
        | zero => rfl
        | succ i => rfl
      rw [raw] at found
      cases found
  | _ => exact absurd (Signature.slot_mem found) (by simp [signature])

namespace Registry.Grown

variable {r : Registry} (grown : r.Grown) (name : Name)
include grown

theorem eager_or_context {f : Function} (member : f ∈ r.candidates name) :
    f.signature.Eager ∨ ∃ c, f = .context c := by
  cases f with
  | system s => exact Or.inl s.eager
  | context c => exact Or.inr ⟨c, rfl⟩
  | defined d =>
    left
    exact Signature.eager_of_slots (grown.plain (mem_of_candidate member)).evaluated

theorem first_settled : ∀ f ∈ (r.candidates name).head?, f.signature.Settled := by
  intro f first
  rcases grown.eager_or_context name (List.mem_of_mem_head? first) with eager | ⟨c, rfl⟩
  · exact eager.settled
  · exact c.settled

theorem others_eager : ∀ f ∈ (r.candidates name).tail, f.signature.Eager := by
  intro f later
  obtain ⟨d, rfl⟩ := grown.later_defined name later
  have member := mem_of_candidate (List.mem_of_mem_tail later)
  exact Signature.eager_of_slots (grown.plain member).evaluated

end Registry.Grown

/-- What a function receives: of the arguments that it evaluates, and of no others, a cell. Those
that were not known before are evaluated at the given positions. -/
structure Handed (s : Signature) (count : Nat) (known new : List CellId) (positions : List Nat)
    (received : List (Option CellId)) : Prop where
  rest : positions = (List.range' known.length (count - known.length)).filter fun i =>
    s.slot? i ≠ some .raw
  cells : received.reduceOption = known ++ new
  taken : received.map Option.isSome = (List.range count).map fun i =>
    decide (s.slot? i ≠ some .raw)

theorem Handed.all {s : Signature} (eager : s.Eager) {count : Nat} {known new : List CellId}
    (size : (known ++ new).length = count) :
    Handed s count known new (List.range' known.length (count - known.length))
      ((known ++ new).map some) := by
  constructor
  · symm
    rw [List.filter_eq_self]
    intro i _
    simpa using eager i
  · simp [List.reduceOption]
  · have all : (fun i => decide (s.slot? i ≠ some .raw)) = fun _ => true := by
      funext i
      simpa using eager i
    rw [all, List.map_const', List.length_range, ← size, List.map_map]
    exact List.map_const'

section Arriving

variable {eval : Argument → Eval CellId} {args : List Argument} {m : Machine}

theorem sweeps_gather {f : Function} {known : List CellId} {pending : List Pending}
    (matched : Matched args f.signature known pending)
    (kind : f.signature.Eager ∨ ∃ c, f = .context c) :
    Sweeps eval args known.length (fun positions new a => a.function = f ∧
      Handed f.signature args.length known new positions a.received ∧
      ∀ c given, a = .context c given → given.map Prepared.raw = args)
        (gather eval f pending) m := by
  have suffix : Cached (args.drop 0) known pending := matched.cached
  have size := matched.cached.length_eq
  have start := Nat.zero_add known.length
  -- A function that is not a context function has all its arguments evaluated.
  have others : ∀ {g : Function} (make : List CellId → Arrival), g.signature.Eager →
      (∀ cells, (make cells).function = g ∧ (make cells).received = cells.map some ∧
        ∀ c given, make cells ≠ .context c given) →
      Sweeps eval args known.length (fun positions new a => a.function = g ∧
        Handed g.signature args.length known new positions a.received ∧
        ∀ c given, a = .context c given → given.map Prepared.raw = args)
        (do return make (← evalRemaining eval pending)) m := by
    intro g make eager made
    rw [← start]
    apply (sweeps_evalRemaining suffix).map
    rintro positions new out ⟨rfl, rfl, length⟩
    obtain ⟨function, received, other⟩ := made (known ++ new)
    rw [start, size, received]
    exact ⟨function, .all eager (length.trans size), fun c given same =>
      absurd same (other c given)⟩
  cases f with
  | context c =>
    rw [← start]
    apply (sweeps_prepare suffix fun j _ below => matched.evaluated j (by omega)).map
    rintro positions new out ⟨rfl, laid⟩
    refine ⟨rfl,
      ⟨by rw [start, size], laid.cells,
        laid.taken.trans (by rw [List.range_eq_range', List.drop_zero])⟩, ?_⟩
    rintro _ _ ⟨⟩
    exact laid.raws
  | system s => exact others (.system s) s.eager fun cells => ⟨rfl, rfl, by simp⟩
  | defined d =>
    have eager : (Function.defined d).signature.Eager := by simpa using kind
    exact others (.defined d) eager fun cells => ⟨rfl, rfl, by simp⟩

theorem prolongs_resolve {inv : Invocation} (grown : m.registry.Grown) :
    Prolongs eval inv.args [] (fun known out => out.1 ∈ m.registry.candidates inv.name ∧
      Matched inv.args out.1.signature known out.2) (Matching.resolve eval inv) m := by
  apply sweeps_get
  refine prolongs_choose (.initial inv.args) ?_ (grown.others_eager inv.name)
  intro f first
  exact ⟨grown.first_settled inv.name f first, by simp⟩

end Arriving

def Machine.traced (m : Machine) (settings : Settings) (inv : Invocation) (f : Function)
    (depth : Nat) : Machine :=
  if settings.trace then { m with log := .invoke inv.name f.origin depth :: m.log } else m

theorem arrive_run {settings : Settings} {eval : Invocation → Eval CellId} {depth : Nat}
    {inv : Invocation} {m n : Machine} {f : Function} {pending : List Pending}
    (resolved : Matching.resolve (evalArgument eval) inv m = .ok (f, pending) n) :
    arrive settings eval depth inv m =
      gather (evalArgument eval) f pending (n.traced settings inv f depth) := by
  unfold arrive Machine.traced
  rw [bind_ok resolved]
  dsimp only
  split
  · rfl
  · rfl

theorem Signature.evaluated_eq {s : Signature} {known count : Nat} (le : known ≤ count)
    (evaluated : ∀ j < known, s.slot? j ≠ some .raw) :
    s.evaluated count =
      List.range' 0 known ++
        (List.range' known (count - known)).filter (fun i => s.slot? i ≠ some .raw) := by
  have split : List.range count = List.range' 0 known ++ List.range' known (count - known) := by
    rw [List.range_eq_range', ← Nat.add_sub_cancel' le, ← List.range'_append_1, Nat.zero_add,
      Nat.add_sub_cancel_left]
  have first : (List.range' 0 known).filter (fun i => s.slot? i ≠ some .raw) =
      List.range' 0 known := by
    rw [List.filter_eq_self]
    intro j member
    simpa using evaluated j (by simpa using member)
  rw [Signature.evaluated, split, List.filter_append, first]

/-- Evaluation runs the code of the function that a call goes to after it has arrived there. Until
then the arguments of the call are evaluated once each and from left to right, those of an initial
part while the call is matched and the others after it, and the function gets the cells they
gave. -/
theorem arguments_evaluated_once {r m : Machine} (reached : Reached r)
    (same : m.registry = r.registry) (settings : Settings) (eval : Invocation → Eval CellId)
    (depth : Nat) (inv : Invocation) :
    (∀ fuel depth, evaluate settings (fuel + 1) depth inv = inCall inv (withinDepth settings depth
      (arrive settings (evaluate settings fuel (depth + 1)) (depth + 1) inv >>=
        (·.run (evaluate settings fuel (depth + 1)) fuel)))) ∧
    (∀ a k, arrive settings eval depth inv m = .ok a k →
      ∃ matched prepared first later pending n,
        Matching.resolve (evalArgument eval) inv m = .ok (a.function, pending) n ∧
        Evaluations (evalArgument eval) inv.args matched m first n ∧
        Evaluations (evalArgument eval) inv.args prepared (n.traced settings inv a.function depth)
          later k ∧
        matched ++ prepared = a.function.signature.evaluated inv.args.length ∧
        a.received.reduceOption = first ++ later ∧
        a.received.map Option.isSome = (List.range inv.args.length).map
          (fun i => decide (a.function.signature.slot? i ≠ some .raw)) ∧
        ∀ c given, a = .context c given → given.map Prepared.raw = inv.args) ∧
    ∀ e k, arrive settings eval depth inv m = .error e k →
      (∃ positions, Matching.resolve (evalArgument eval) inv m = .error e k ∧
        Attempts (evalArgument eval) inv.args e positions m k ∧ positions.Pairwise (· < ·)) ∨
      ∃ matched prepared first f pending n,
        Matching.resolve (evalArgument eval) inv m = .ok (f, pending) n ∧
        Evaluations (evalArgument eval) inv.args matched m first n ∧
        Attempts (evalArgument eval) inv.args e prepared (n.traced settings inv f depth) k ∧
        (matched ++ prepared).Pairwise (· < ·) := by
  have grown : m.registry.Grown := same ▸ reached.sound.registry
  refine ⟨fun fuel depth => evaluate_eq settings fuel depth inv, ?_, ?_⟩
  · intro a k run
    cases resolved : Matching.resolve (evalArgument eval) inv m with
    | error e n =>
      unfold arrive at run
      rw [bind_error resolved] at run
      cases run
    | ok out n =>
      obtain ⟨f, pending⟩ := out
      rw [arrive_run resolved] at run
      obtain ⟨_, first, _, evaluations, rfl, member, matched⟩ :=
        (prolongs_resolve grown).ok resolved
      -- The arguments that matching left are evaluated from where it stopped, on the machine that
      -- has recorded the call.
      obtain ⟨prepared, later, _, evaluations', rfl, handed, raws⟩ :=
        (sweeps_gather matched (grown.eager_or_context inv.name member)).ok run
      refine ⟨_, prepared, first, later, pending, n, rfl, evaluations, evaluations', ?_,
        handed.cells, handed.taken, raws⟩
      rw [Signature.evaluated_eq matched.cached.known_le matched.evaluated, handed.rest]
      rfl
  · intro e k run
    cases resolved : Matching.resolve (evalArgument eval) inv m with
    | error e' n =>
      left
      unfold arrive at run
      rw [bind_error resolved] at run
      cases run
      obtain ⟨positions, order, attempts⟩ := (prolongs_resolve grown).error resolved
      exact ⟨positions, rfl, attempts, order.increasing⟩
    | ok out n =>
      right
      obtain ⟨f, pending⟩ := out
      rw [arrive_run resolved] at run
      obtain ⟨_, first, order, evaluations, rfl, member, matched⟩ :=
        (prolongs_resolve grown).ok resolved
      obtain ⟨prepared, order', attempts⟩ :=
        (sweeps_gather matched (grown.eager_or_context inv.name member)).error run
      refine ⟨_, prepared, first, f, pending, n, rfl, evaluations, attempts, ?_⟩
      exact (order.append (by simp) order' (Nat.zero_le _)).increasing

def pushOntoPopped : Invocation :=
  ⟨utf8 "push", [.call (utf8 "pop") [.call (utf8 "list") [.call (utf8 "list") []]],
    .literal (.string (utf8 "a"))]⟩

theorem arguments_evaluated_once_push :
    let settings : Settings := ⟨none, false⟩
    let eval := evaluate settings 3 1
    let m := (Interpreter.new 0 false (.ofInput [])).machine
    ∃ matched prepared first later n k,
      Evaluations (evalArgument eval) pushOntoPopped.args matched m first n ∧
      Evaluations (evalArgument eval) pushOntoPopped.args prepared n later k ∧
      matched ++ prepared = [0, 1] := by
  intro settings eval m
  have reached : Reached m := .between (.new 0 false (.ofInput []))
  obtain ⟨-, success, -⟩ := arguments_evaluated_once reached rfl settings eval 1 pushOntoPopped
  have arrives : (match arrive settings eval 1 pushOntoPopped m with
      | .ok a _ => decide (a.function = .system .push)
      | .error _ _ => false) = true := by decide +kernel
  split at arrives
  · rename_i a k run
    obtain ⟨matched, prepared, first, later, _, n, _, evaluations, evaluations', positions, _⟩ :=
      success a k run
    rw [of_decide_eq_true arrives] at positions
    exact ⟨matched, prepared, first, later, n, k, evaluations, evaluations', positions⟩
  · cases arrives

end CallScript
