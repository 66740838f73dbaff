import Mathlib.Data.List.DropRight
import CallScript.Proofs.Run.ArgumentOrder
import CallScript.Proofs.Run.Limits
import CallScript.Proofs.Run.Retelling

/- What a failure says about the calls it comes from. The active calls are kept by an evaluation
   that hands its list of calls on to the calls inside, and shows it to an observer when a failure
   is raised. The failures of the evaluator are put together from the inside out, a call at a time,
   and name the last calls of that list. -/
namespace CallScript

open Eval

/-- Shows some calls to an observer if a computation fails, unless calls further inside have been
shown already. -/
def amid {α : Type} (observer : List Invocation → Bytes) (calls : List Invocation) (act : Eval α) :
    Eval α := fun m =>
  match act m with
  | .error (.failed f) n =>
    .error (.failed { f with invocation := f.invocation.or (some (observer calls)) }) n
  | result => result

/-- Evaluates an invocation inside the active ones, outermost first. All that a failure says besides
its fault is what the observer makes of the invocations that were active when it was raised. -/
def evaluateAmid (observer : List Invocation → Bytes) (settings : Settings) :
    Nat → List Invocation → Invocation → Eval CellId
  | 0, _, _ => throw .outOfFuel
  | fuel + 1, active, inv =>
    amid observer (active ++ [inv]) (withinDepth settings active.length
      (invoke settings (evaluateAmid observer settings fuel (active ++ [inv])) fuel
        (active.length + 1) inv))

theorem rtake_cons {α : Type} (count : Nat) (a : α) (list : List α) :
    (a :: list).rtake count = if (list.rtake count).length < count then a :: list.rtake count
      else list.rtake count := by
  have length : (list.rtake count).length = min count list.length := by
    rw [List.rtake, List.length_drop]
    omega
  rw [length]
  split
  · have short : list.length < count := by omega
    have none : (a :: list).length - count = 0 := by
      rw [List.length_cons]
      omega
    rw [List.rtake, List.rtake, none, Nat.sub_eq_zero_of_le (Nat.le_of_lt short)]
    rfl
  · have one : (a :: list).length - count = (list.length - count) + 1 := by
      rw [List.length_cons]
      omega
    rw [List.rtake, List.rtake, one, List.drop_succ_cons]

/-- The failure of an invocation that has made the inner calls, and what observers are shown of it
inside the active invocations. -/
def Names (active : List Invocation) (inv : Invocation) (h : Heap) (f : Failure)
    (seen : (List Invocation → Bytes) → Failure) : Prop :=
  ∃ inner fault,
    f = ⟨fault, some (((inv :: inner).getLast (List.cons_ne_nil inv inner)).render h),
      ((inv :: inner).map Invocation.name).rtake maxFrames, none⟩ ∧
    seen = fun observer => ⟨fault, some (observer (active ++ inv :: inner)), [], none⟩

/-- A failure inside the active invocations: one that has just been raised, or that of an invocation
there. -/
def Arises (active : List Invocation) (h : Heap) (f : Failure)
    (seen : (List Invocation → Bytes) → Failure) : Prop :=
  (∃ fault, f = .raise fault ∧ seen = fun _ => .raise fault) ∨ ∃ inv, Names active inv h f seen

theorem Arises.within {active : List Invocation} {inv : Invocation} {h : Heap} {f : Failure}
    {seen : (List Invocation → Bytes) → Failure} (arises : Arises (active ++ [inv]) h f seen) :
    Names active inv h (f.within h inv) fun observer =>
      { seen observer with
        invocation := (seen observer).invocation.or (some (observer (active ++ [inv]))) } := by
  rcases arises with ⟨fault, rfl, rfl⟩ | ⟨next, inner, fault, rfl, rfl⟩
  · exact ⟨[], fault, rfl, rfl⟩
  · -- The failure keeps the text of its innermost call. The name goes in front while there is
    -- room.
    refine ⟨next :: inner, fault, ?_, ?_⟩
    · have frames := rtake_cons maxFrames inv.name ((next :: inner).map Invocation.name)
      rw [List.getLast_cons (List.cons_ne_nil next inner), List.map_cons (l := next :: inner),
        frames]
      rfl
    · simp

theorem retells_inCall {active : List Invocation} {inv : Invocation} {x : Eval CellId}
    {y : (List Invocation → Bytes) → Eval CellId}
    (retells : Retells (Arises (active ++ [inv])) x y) :
    Retells (Names active inv) (inCall inv x) fun observer => amid observer (active ++ [inv])
      (y observer) := by
  intro m
  have runs := retells m
  cases run : x m with
  | ok a n =>
    rw [run] at runs
    simp only [inCall, amid, run, runs, implies_true]
  | error e n =>
    rw [run] at runs
    cases e with
    | failed f =>
      obtain ⟨seen, arises, others⟩ := runs
      simp only [inCall, amid, run, others]
      exact ⟨_, arises.within, fun _ => rfl⟩
    | crashed => simp only [inCall, amid, run, runs, implies_true]
    | outOfFuel => simp only [inCall, amid, run, runs, implies_true]

theorem retells_withinDepth {ι : Type} {tells : Heap → Failure → (ι → Failure) → Prop}
    (own : ∀ h fault, tells h (.raise fault) fun _ => .raise fault) {x : Eval CellId}
    {y : ι → Eval CellId} (retells : Retells tells x y) (settings : Settings) (depth : Nat) :
    Retells tells (withinDepth settings depth x) fun i => withinDepth settings depth (y i) := by
  unfold withinDepth
  split
  · split
    · exact retells_plain own (plain_fail _)
    · exact retells
  · exact retells

theorem retells_evaluate (settings : Settings) (fuel : Nat) (active : List Invocation)
    (inv : Invocation) :
    Retells (Names active inv) (evaluate settings fuel active.length inv)
      fun observer => evaluateAmid observer settings fuel active inv := by
  induction fuel generalizing active inv with
  | zero => exact retells_throw (by simp)
  | succ fuel ih =>
    have own : ∀ h fault, Arises (active ++ [inv]) h (.raise fault) fun _ => .raise fault :=
      fun _ fault => Or.inl ⟨fault, rfl, rfl⟩
    -- The calls inside are evaluated with one more active call, whose number is their depth.
    have callee : ∀ next,
        Retells (Arises (active ++ [inv])) (evaluate settings fuel (active.length + 1) next)
        fun observer => evaluateAmid observer settings fuel (active ++ [inv]) next := by
      intro next
      have inside := ih (active ++ [inv]) next
      rw [List.length_append, List.length_singleton] at inside
      exact inside.mono fun _ _ _ names => Or.inr ⟨next, names⟩
    exact retells_inCall (retells_withinDepth own
      (retells_invoke own callee settings fuel (active.length + 1) inv) settings active.length)

namespace Interpreter

inductive Succeeds (settings : Settings) (fuel : Nat) : Program → Machine → Machine → Prop where
  | nil (m : Machine) : Succeeds settings fuel [] m m
  | cons {inv : Invocation} {rest : Program} {m k l n : Machine} {c : CellId}
      (patient : checkPatience m = .ok () k)
    (run : CallScript.evaluate settings fuel 0 inv k = .ok c l)
    (succeeds : Succeeds settings fuel rest l n) :
    Succeeds settings fuel (inv :: rest) m n

def FailsAt (settings : Settings) (fuel number : Nat) (inv : Invocation) (m : Machine)
    (f : Failure) : Prop :=
  (∃ n, checkPatience m = .error (.failed f) n) ∨
    ∃ k g n, checkPatience m = .ok () k ∧
      CallScript.evaluate settings fuel 0 inv k = .error (.failed g) n ∧
      f = { g with statement := some number }

variable {settings : Settings} {fuel : Nat}

theorem statements_fails (number : Nat) {p : Program} {m n : Machine} {f : Failure}
    (failed : statements settings fuel number p m = .error (.failed f) n) :
    ∃ before inv later k, p = before ++ inv :: later ∧ Succeeds settings fuel before m k ∧
      FailsAt settings fuel (number + before.length) inv k f := by
  induction p generalizing number m with
  | nil => cases failed
  | cons inv rest ih =>
    rw [statements] at failed
    cases patient : checkPatience m with
    | error e k =>
      rw [bind_error patient] at failed
      cases failed
      exact ⟨[], inv, rest, m, rfl, .nil m, Or.inl ⟨n, patient⟩⟩
    | ok _ k =>
      rw [bind_ok patient] at failed
      cases run : CallScript.evaluate settings fuel 0 inv k with
      | ok c l =>
        rw [bind_ok (inStatement_ok number run)] at failed
        obtain ⟨before, next, later, k', rfl, succeeds, fails⟩ := ih (number + 1) failed
        refine ⟨inv :: before, next, later, k', rfl, .cons patient run succeeds, ?_⟩
        rw [List.length_cons, Nat.add_comm before.length, ← Nat.add_assoc]
        exact fails
      | error e l =>
        obtain ⟨log, told⟩ := inStatement_error number run
        rw [bind_error told] at failed
        cases e with
        | failed g =>
          cases failed
          exact ⟨[], inv, rest, m, rfl, .nil m, Or.inr ⟨k, g, l, patient, run, rfl⟩⟩
        | crashed => cases failed
        | outOfFuel => cases failed

theorem Succeeds.statements_fails {before : Program} {inv : Invocation} {m k : Machine}
    {f : Failure} (succeeds : Succeeds settings fuel before m k) (number : Nat)
    (fails : FailsAt settings fuel (number + before.length) inv k f) (later : Program) :
    ∃ n, statements settings fuel number (before ++ inv :: later) m = .error (.failed f) n := by
  induction succeeds generalizing number with
  | nil m =>
    rw [List.nil_append, statements]
    rcases fails with ⟨n, stopped⟩ | ⟨k, g, n, patient, run, rfl⟩
    · exact ⟨n, bind_error stopped _⟩
    · obtain ⟨log, told⟩ := inStatement_error number run
      rw [bind_ok patient, bind_error told]
      exact ⟨_, rfl⟩
  | @cons _ rest _ _ _ _ _ patient run _ ih =>
    rw [List.cons_append, statements, bind_ok patient, bind_ok (inStatement_ok number run)]
    apply ih (number + 1)
    rw [List.length_cons, Nat.add_comm rest.length, ← Nat.add_assoc] at fails
    exact fails

/-- A program fails as it does at the first of its statements that does not succeed. -/
theorem execute_fails_iff (i : Interpreter) (patience : Patience) (p : Program) (f : Failure) :
    (i.execute fuel patience p).1 = .error (.failed f) ↔ ∃ before inv later m,
      p = before ++ inv :: later ∧
      Succeeds i.settings fuel before
        { i.machine with patience, log := .executing p.length :: i.machine.log } m ∧
      FailsAt i.settings fuel (1 + before.length) inv m f := by
  have recorded : program i.settings fuel p { i.machine with patience } =
      statements i.settings fuel 1 p
        { i.machine with patience, log := .executing p.length :: i.machine.log } :=
    bind_ok rfl _
  rw [execute, run_eq, recorded]
  constructor
  · intro failed
    cases ran : statements i.settings fuel 1 p
        { i.machine with patience, log := .executing p.length :: i.machine.log } with
    | ok a n =>
      rw [ran] at failed
      cases failed
    | error e n =>
      rw [ran] at failed
      cases failed
      exact statements_fails 1 ran
  · rintro ⟨before, inv, later, m, rfl, succeeds, fails⟩
    obtain ⟨n, ran⟩ := succeeds.statements_fails 1 fails later
    rw [ran]

end Interpreter

/-- A failing evaluation fails with the fault that was raised, the text of the innermost active call
and the names of the last thirty-two active calls. A program adds the number of the statement that
has failed, counted from one. -/
theorem failures_name_call_chain (fuel : Nat) :
    (∀ settings inv m f n, evaluate settings fuel 0 inv m = .error (.failed f) n →
      ∃ inner,
        (∀ observer, evaluateAmid observer settings fuel [] inv m =
          .error
            (.failed { Failure.raise f.fault with invocation := some (observer (inv :: inner)) })
              n) ∧
        f.invocation = some (((inv :: inner).getLast (List.cons_ne_nil inv inner)).render n.heap) ∧
        f.text =
          ((inv :: inner).rtake 32).flatMap (fun call => utf8 "in " ++ call.name ++ utf8 ": ") ++
          { Failure.raise f.fault with invocation := f.invocation }.text ∧
        ∀ number, { f with statement := some number }.text =
          utf8 "statement " ++ Bytes.decimal number ++ utf8 ": " ++ f.text) ∧
    ∀ (i : Interpreter) patience p f, (i.execute fuel patience p).1 = .error (.failed f) ↔
      ∃ before inv later m, p = before ++ inv :: later ∧
        Interpreter.Succeeds i.settings fuel before
          { i.machine with patience, log := .executing p.length :: i.machine.log } m ∧
        Interpreter.FailsAt i.settings fuel (1 + before.length) inv m f := by
  refine ⟨?_, Interpreter.execute_fails_iff⟩
  intro settings inv m f n failed
  have runs := retells_evaluate settings fuel [] inv m
  rw [List.length_nil, failed] at runs
  obtain ⟨seen, ⟨inner, fault, rfl, rfl⟩, observed⟩ := runs
  refine ⟨inner, observed, rfl, ?_, ?_⟩
  · have names : ((inv :: inner).map Invocation.name).rtake maxFrames =
        ((inv :: inner).rtake 32).map Invocation.name := by
      rw [List.rtake, List.rtake, List.map_drop, List.length_map]
      rfl
    simp only [Failure.text, names, List.flatMap_map]
    simp [Failure.coreText, Failure.raise]
  · intro number
    simp [Failure.text, Failure.coreText]

def fails {α : Type} (test : Failure → Bool) (x : Eval α) (m : Machine) : Bool :=
  match x m with
  | .error (.failed f) _ => test f
  | _ => false

theorem failed_of_fails {α : Type} {test : Failure → Bool} {x : Eval α} {m : Machine}
    (passes : fails test x m) :
    ∃ f n, x m = .error (.failed f) n ∧ test f := by
  unfold fails at passes
  split at passes
  · rename_i f n run
    exact ⟨f, n, run, passes⟩
  · cases passes

/-- `list(list(… x))`, for a name that is not bound. -/
def unboundInside : Nat → Argument
  | 0 => .ident (utf8 "x")
  | count + 1 => .call (utf8 "list") [unboundInside count]

theorem failures_name_call_chain_deep :
    let i := Interpreter.new 0 false (.ofInput [])
    let nested : Invocation := ⟨utf8 "print", [unboundInside 32]⟩
    ∃ f inner, (i.execute 34 .endless [⟨utf8 "list", []⟩, nested]).1 = .error (.failed f) ∧
      inner.length = 32 ∧ f.text = utf8 "statement 2: " ++
        (((nested :: inner).rtake 32).flatMap (fun call => utf8 "in " ++ call.name ++ utf8 ": ") ++
          utf8 "Variable Not Found: variable \"x\" not found in list(x)") := by
  intro i nested
  let start : Machine :=
    { i.machine with patience := .endless, log := .executing 2 :: i.machine.log }
  let first := evaluate i.settings 34 0 ⟨utf8 "list", []⟩
  let second := evaluate i.settings 34 0 nested
  let seen := evaluateAmid (fun calls => List.replicate calls.length 0) i.settings 34 [] nested
  obtain ⟨c, run, -⟩ :=
    run_after (x := first) (m := start)
      (by decide +kernel : yields (fun _ _ => true) _ start = true)
  obtain ⟨g, n, failed, told⟩ := failed_of_fails (x := second) (m := after first start)
    (by decide +kernel :
      fails (fun g => g.fault = .variableNotFound (utf8 "x") ∧ g.invocation = some (utf8 "list(x)"))
      _ (after first start) = true)
  obtain ⟨g', n', shown, counted⟩ := failed_of_fails (x := seen) (m := after first start)
    (by decide +kernel : fails (fun g => g.invocation = some (List.replicate 33 0)) _
      (after first start) = true)
  simp only [decide_eq_true_eq] at told counted
  obtain ⟨chains, fails⟩ := failures_name_call_chain 34
  obtain ⟨inner, observed, -, text, numbered⟩ := chains i.settings nested _ g n failed
  have count : (nested :: inner).length = 33 := by
    have same := shown.symm.trans (observed fun calls => List.replicate calls.length 0)
    cases same
    have lengths := congrArg List.length (Option.some.inj counted)
    rw [List.length_replicate, List.length_replicate] at lengths
    exact lengths
  refine ⟨{ g with statement := some 2 }, inner, ?_, Nat.succ.inj count, ?_⟩
  · exact (fails i .endless [⟨utf8 "list", []⟩, nested] _).mpr
      ⟨[⟨utf8 "list", []⟩], nested, [], _, rfl, .cons rfl run (.nil _),
        Or.inr ⟨_, g, n, rfl, failed, rfl⟩⟩
  · have core : { Failure.raise g.fault with invocation := g.invocation }.text =
        utf8 "Variable Not Found: variable \"x\" not found in list(x)" := by
      rw [told.1, told.2]
      decide +kernel
    have number : utf8 "statement " ++ Bytes.decimal 2 ++ utf8 ": " = utf8 "statement 2: " := by
      decide +kernel
    rw [numbered 2, text, core, number]

end CallScript
