import CallScript.Proofs.Run.ArgumentOrder
import CallScript.Proofs.Run.Closure

/- Computations that never crash, on whatever machine they run. What has to be there is there: a
   function that is called accepts the number of its arguments, so each of them has a slot, and each
   that the function evaluates has a cell when its code is run. -/
namespace CallScript

namespace Eval

variable {α β : Type}

/-- A computation that never crashes, and gives only good values. -/
def Sure (good : α → Prop) (x : Eval α) : Prop :=
  ∀ m, match x m with
    | .ok a _ => good a
    | .error e _ => e ≠ .crashed

abbrev Safe (x : Eval α) : Prop := Sure (fun _ => True) x

variable {good : α → Prop} {better : β → Prop} {x : Eval α}

theorem sure_pure {a : α} (ok : good a) : Sure good (pure a) := fun _ => ok

theorem sure_throw {e : Stop} (other : e ≠ .crashed) : Sure good (throw e) := fun _ => other

theorem sure_fail {fault : Fault} : Sure good (fail fault) := sure_throw (by simp)

theorem sure_get {f : Machine → Eval β} (rest : ∀ m, Sure better (f m)) : Sure better (get >>= f) :=
  fun m => rest m m

theorem Sure.bind {f : α → Eval β} (first : Sure good x) (rest : ∀ a, good a → Sure better (f a)) :
    Sure better (x >>= f) := by
  intro m
  have ends := first m
  cases run : x m with
  | ok a n =>
    rw [run] at ends
    rw [bind_ok run]
    exact rest a ends n
  | error e n =>
    rw [run] at ends
    rw [bind_error run]
    exact ends

theorem sure_need {o : Option α} (present : o.isSome) : Sure (fun a => o = some a) (need o) := by
  obtain ⟨a, rfl⟩ := Option.isSome_iff_exists.mp present
  exact fun _ => rfl

theorem safe_modifyGet (f : Machine → α × Machine) : Safe (modifyGet f : Eval α) := fun _ => trivial

theorem safe_modify (f : Machine → Machine) : Safe (modify f : Eval Unit) := fun _ => trivial

theorem safe_closed : Closed @Safe :=
  ⟨fun _ => sure_pure trivial, fun _ => sure_fail, fun f _ => safe_modifyGet f,
    fun first rest => first.bind fun a _ => rest a⟩

theorem safe_checkPatience : Safe checkPatience := safe_closed.checkPatience safe_modifyGet

theorem Sure.inScope (sure : Sure good x) (scope : Scope) : Sure good (inScope scope x) := by
  intro m
  have ends := sure { m with scope }
  unfold Eval.inScope
  cases run : x { m with scope } with
  | ok a n =>
    rw [run] at ends
    exact ends
  | error e n =>
    rw [run] at ends
    exact ends

theorem Sure.inBlock (sure : Sure good x) : Sure good (inBlock x) := by
  intro m
  rw [inBlock_eq]
  exact sure.inScope m.scope m

theorem Sure.inCall (sure : Sure good x) (inv : Invocation) : Sure good (inCall inv x) := by
  intro m
  have ends := sure m
  unfold Eval.inCall
  cases run : x m with
  | ok a n =>
    rw [run] at ends
    exact ends
  | error e n =>
    rw [run] at ends
    cases e with
    | failed f => simp
    | crashed => exact ends
    | outOfFuel => exact ends

theorem sure_mapM {f : α → Eval β} {list : List α} (each : ∀ a ∈ list, Safe (f a)) :
    Sure (fun out : List β => out.length = list.length) (list.mapM f) := by
  induction list with
  | nil => exact sure_pure rfl
  | cons a rest ih =>
    rw [List.mapM_cons]
    apply (each a List.mem_cons_self).bind
    intro b _
    apply (ih fun e member => each e (List.mem_cons_of_mem a member)).bind
    intro out length
    exact sure_pure (by simp [length])

end Eval

open Eval

theorem forall_from_cons {α : Type} {P : Nat → α → Prop} {position : Nat} {first : α}
    {rest : List α} (here : P position first)
    (later : ∀ i a, rest[i]? = some a → P (position + 1 + i) a) :
    ∀ i a, (first :: rest)[i]? = some a → P (position + i) a := by
  intro i a found
  cases i with
  | zero =>
    cases found
    exact here
  | succ i =>
    have shifted : position + (i + 1) = position + 1 + i := by omega
    rw [shifted]
    exact later i a found

namespace Matching

/-- An argument at a position has a cell, if arguments are evaluated up to there and it is one of
them. -/
def Forced (s : Signature) (last position : Nat) (p : Pending) : Prop :=
  position ≤ last → s.slot? position ≠ some .raw → p.cell.isSome

variable {eval : Argument → Eval CellId} (safe : ∀ a, Safe (eval a)) {s : Signature}
include safe

theorem sure_force (last position : Nat) {args : List Pending}
    (slots : ∀ i < position + args.length, (s.slot? i).isSome) :
    Sure (fun out => out.length = args.length ∧ ∀ i p, out[i]? = some p →
      Forced s last (position + i) p) (force eval s last position args) := by
  induction args generalizing position with
  | nil => exact sure_pure ⟨rfl, by simp⟩
  | cons p rest ih =>
    have later := ih (position + 1) fun i inside => slots i (by simp only [List.length_cons]; omega)
    -- The arguments after the first are evaluated whatever becomes of it.
    have joined : ∀ q, Forced s last position q →
        Sure (fun out => out.length = (p :: rest).length ∧ ∀ i r, out[i]? = some r →
          Forced s last (position + i) r)
          (do return q :: (← force eval s last (position + 1) rest)) := by
      intro q first
      apply later.bind
      rintro out ⟨length, others⟩
      exact sure_pure ⟨by simp [length], forall_from_cons first others⟩
    rw [force]
    split
    · exact sure_pure ⟨by simp, fun i _ _ inside => by omega⟩
    · split
      · rename_i raw
        exact joined _ fun _ evaluated => absurd raw evaluated
      · apply (safe p.arg).bind
        intro c _
        exact joined _ fun _ _ => rfl
      · rename_i missing
        have there := slots position (by simp only [List.length_cons]; omega)
        rw [missing] at there
        cases there
      · rename_i held
        exact joined _ fun _ _ => by simp [Pending.forget, held]

theorem sure_accepts {left position : Nat} {args : List Pending}
    (whole : position + left = args.length) (slots : ∀ i < args.length, (s.slot? i).isSome) :
    Sure (fun out => out.2.length = args.length) (accepts eval s left position args) := by
  induction left generalizing position args with
  | zero => exact sure_pure rfl
  | succ left ih =>
    rw [accepts]
    apply (sure_need (slots position (by omega))).bind
    intro slot found
    split
    · rename_i required
      have inside : position < args.length := by omega
      apply (sure_need (by simpa using inside)).bind
      intro p _
      apply sure_get
      intro m
      split
      · rename_i shape q _
        split
        · have next :=
            @ih (position + 1) (args.set position q) (by simp only [List.length_set]; omega)
            (by simpa using slots)
          simpa using next
        · exact sure_pure (by simp)
      · apply (sure_force safe position 0 (by simpa using slots)).bind
        intro out done
        obtain ⟨length, cells⟩ := done
        -- The argument has been evaluated, since its slot is not raw.
        have there : (out[position]?.bind Pending.cell).isSome := by
          have bound : position < out.length := by omega
          have cell :=
            cells position _ (List.getElem?_eq_getElem bound) (by omega) (by simp [found])
          simpa [List.getElem?_eq_getElem bound] using cell
        apply (sure_need there).bind
        intro c _
        apply (safe_closed.contents c).bind
        intro d _
        split
        · have next := @ih (position + 1) out (by omega) (by simpa [length] using slots)
          simpa [length] using next
        · exact sure_pure length
    · exact ih (by omega) slots

theorem sure_choose (name : Name) (candidates : List Function) (args : List Pending) :
    Sure (fun out => out.1.signature.acceptsArity args.length ∧ out.2.length = args.length)
      (choose eval name candidates args) := by
  induction candidates generalizing args with
  | nil => exact sure_get fun _ => sure_fail
  | cons f rest ih =>
    rw [choose]
    split
    · rename_i accepted
      apply (sure_accepts safe (Nat.zero_add _) fun i inside =>
        Signature.slot?_isSome accepted inside).bind
      rintro ⟨verdict, out⟩ length
      cases verdict with
      | true => exact sure_pure ⟨length ▸ accepted, length⟩
      | false =>
        dsimp only at length
        rw [← length]
        exact ih out
    · exact ih args

theorem sure_resolve (inv : Invocation) :
    Sure (fun out => out.1.signature.acceptsArity inv.args.length ∧ out.2.length = inv.args.length)
      (resolve eval inv) := by
  apply sure_get
  intro m
  have chosen :=
    sure_choose safe inv.name (m.registry.candidates inv.name) (inv.args.map .ofArgument)
  simpa using chosen

end Matching

namespace Arrival

/-- What a function needs to be run: as many arguments as it accepts, and a cell for each that it
evaluates. -/
structure Fits (a : Arrival) (count : Nat) : Prop where
  arity : a.function.signature.acceptsArity count
  received : a.received.length = count
  present : ∀ i c, a.received[i]? = some c → a.function.signature.slot? i ≠ some .raw → c.isSome

end Arrival

section Gathering

variable {eval : Argument → Eval CellId} (safe : ∀ a, Safe (eval a))
include safe

theorem sure_evalRemaining (args : List Pending) :
    Sure (fun cells => cells.length = args.length) (evalRemaining eval args) := by
  apply sure_mapM
  intro p _
  split
  · exact sure_pure trivial
  · exact safe p.arg

theorem sure_prepareOne (p : Pending) (slot : Slot) :
    Sure (fun out => slot ≠ .raw → out.cell.isSome) (prepareOne eval p slot) := by
  unfold prepareOne
  split
  · exact sure_pure fun evaluated => absurd rfl evaluated
  · split
    · exact sure_pure fun _ => rfl
    · apply (safe p.arg).bind
      intro c _
      exact sure_pure fun _ => rfl

theorem sure_prepare {s : Signature} {position : Nat} {args : List Pending}
    (slots : ∀ i < position + args.length, (s.slot? i).isSome) :
    Sure (fun out => out.length = args.length ∧ ∀ i p, out[i]? = some p →
      s.slot? (position + i) ≠ some .raw → p.cell.isSome) (prepare eval s position args) := by
  induction args generalizing position with
  | nil => exact sure_pure ⟨rfl, by simp⟩
  | cons p rest ih =>
    rw [prepare]
    apply (sure_need (slots position (by simp only [List.length_cons]; omega))).bind
    intro slot found
    apply (sure_prepareOne safe p slot).bind
    intro first cell
    apply (@ih (position + 1) fun i inside => slots i (by simp only [List.length_cons]; omega)).bind
    rintro out ⟨length, others⟩
    have present : s.slot? position ≠ some .raw → first.cell.isSome := by
      rw [found]
      exact fun evaluated => cell fun raw => evaluated (raw ▸ rfl)
    exact sure_pure ⟨by simp [length],
      @forall_from_cons Prepared (fun n q => s.slot? n ≠ some .raw → q.cell.isSome) _ _ _
        present others⟩

theorem sure_gather {f : Function} {args : List Pending}
    (accepted : f.signature.acceptsArity args.length) :
    Sure (fun a => a.Fits args.length) (gather eval f args) := by
  have all : ∀ (cells : List CellId) (i : Nat) (c : Option CellId), (cells.map some)[i]? = some c →
      c.isSome := by
    intro cells i c found
    obtain ⟨e, -, rfl⟩ := List.mem_map.mp (List.mem_of_getElem? found)
    rfl
  cases f with
  | system s =>
    apply (sure_evalRemaining safe args).bind
    intro cells length
    exact sure_pure ⟨accepted, by simpa [Arrival.received] using length, fun i c found _ =>
      all cells i c found⟩
  | defined d =>
    apply (sure_evalRemaining safe args).bind
    intro cells length
    exact sure_pure ⟨accepted, by simpa [Arrival.received] using length, fun i c found _ =>
      all cells i c found⟩
  | context c =>
    apply (sure_prepare safe fun i inside => Signature.slot?_isSome accepted (by omega)).bind
    rintro given ⟨length, present⟩
    refine sure_pure ⟨accepted, by simpa [Arrival.received] using length, ?_⟩
    intro i e found evaluated
    rw [Arrival.received, List.getElem?_map, Option.map_eq_some_iff] at found
    obtain ⟨p, held, rfl⟩ := found
    exact present i p held (by rwa [Nat.zero_add])

end Gathering

theorem sure_arrive {eval : Invocation → Eval CellId} (safe : ∀ a, Safe (evalArgument eval a))
    (settings : Settings) (depth : Nat) (inv : Invocation) :
    Sure (fun a => a.Fits inv.args.length) (arrive settings eval depth inv) := by
  apply (Matching.sure_resolve safe inv).bind
  rintro ⟨f, args⟩ ⟨accepted, length⟩
  have gathered : Sure (fun a => a.Fits inv.args.length) (gather (evalArgument eval) f args) := by
    rw [← length] at accepted ⊢
    exact sure_gather safe accepted
  dsimp only
  split
  · exact (safe_modify _).bind fun _ _ => gathered
  · exact gathered

namespace ContextFunction

variable {eval : Argument → Eval CellId}

theorem paired_of_fits {f : ContextFunction} {args : List Prepared}
    (slots : f.signature.slots = [.raw, .any]) (single : f.signature.repeating = false)
    (fits : (Arrival.context f args).Fits args.length) : Paired args := by
  have arity := fits.arity
  simp only [Arrival.function, Function.signature, Signature.acceptsArity, single, slots,
    Bool.false_eq_true, if_false, beq_iff_eq] at arity
  obtain ⟨target, value, rfl⟩ := List.length_eq_two.mp arity
  have evaluated : f.signature.slot? 1 ≠ some .raw := by simp [Signature.slot?, slots]
  exact ⟨target, value, rfl, fits.present 1 value.cell rfl evaluated⟩

theorem safe_blockResult (result : Option CellId) : Safe (blockResult result) := by
  cases result with
  | some c => exact sure_pure trivial
  | none => exact safe_closed.alloc _

variable (safe : ∀ a, Safe (eval a))
include safe

theorem safe_runBlock (body : List Prepared) : Safe (runBlock eval body) := by
  induction body with
  | nil => exact sure_pure trivial
  | cons s rest ih =>
    apply (safe s.raw).bind
    intro c _
    apply (safe_closed.contents c).bind
    intro d _
    split
    · exact sure_pure trivial
    · exact ih

theorem safe_runConditional {args : List Prepared}
    (fits : (Arrival.context .conditional args).Fits args.length) :
    Safe (runConditional eval args) := by
  cases args with
  | nil => exact sure_fail
  | cons condition body =>
    have evaluated : ContextFunction.conditional.signature.slot? 0 ≠ some .raw := by decide
    have there := fits.present 0 condition.cell rfl evaluated
    apply (sure_need there).bind
    intro c _
    apply (safe_closed.expect _ _ c).bind
    intro holds _
    split
    · exact (safe_runBlock safe body).inBlock.bind fun _ _ => safe_blockResult _
    · exact safe_closed.alloc _

theorem safe_runLoop (predicate : Argument) (body : List Prepared) (fuel : Nat) :
    Safe (runLoop eval predicate body fuel) := by
  induction fuel with
  | zero => exact sure_throw (by simp)
  | succ fuel ih =>
    apply safe_checkPatience.bind
    intro _ _
    apply (safe predicate).bind
    intro c _
    apply (safe_closed.expect _ _ c).bind
    intro holds _
    split
    · apply (safe_runBlock safe body).inBlock.bind
      intro result _
      split
      · exact ih
      · rename_i e
        apply (safe_closed.contents e).bind
        intro d _
        split
        · exact safe_closed.alloc _
        · exact ih
        · exact sure_pure trivial
    · exact safe_closed.alloc _

theorem safe_run (f : ContextFunction) (fuel : Nat) {args : List Prepared}
    (fits : (Arrival.context f args).Fits args.length) : Safe (f.run eval fuel args) := by
  cases f with
  | bindName =>
    exact safe_closed.runBind args fun unpaired => absurd (paired_of_fits rfl rfl fits) unpaired
  | assign =>
    exact safe_closed.runAssign args fun unpaired => absurd (paired_of_fits rfl rfl fits) unpaired
  | conditional => exact safe_runConditional safe fits
  | loop =>
    cases args with
    | nil => exact sure_fail
    | cons predicate body => exact safe_runLoop safe predicate.raw body fuel
  | define => exact safe_closed.runDefine args

end ContextFunction

section Evaluation

variable {eval : Invocation → Eval CellId} (safe : ∀ inv, Safe (eval inv))
include safe

theorem safe_evalArgument (a : Argument) : Safe (evalArgument eval a) := by
  cases a with
  | literal value => exact (safe_modifyGet _).bind fun _ _ => safe_closed.alloc _
  | ident name => exact safe_closed.lookup name
  | call name args => exact safe ⟨name, args⟩
  | unknown tag => exact sure_fail

theorem Definition.safe_runBody (body : List Invocation) : Safe (runBody eval body) := by
  induction body with
  | nil => exact safe_closed.alloc _
  | cons s rest ih =>
    apply (safe s).bind
    intro c _
    apply (safe_closed.contents c).bind
    intro d _
    split
    · exact sure_pure trivial
    · exact safe_closed.alloc _
    · exact ih

theorem Arrival.safe_run (fuel : Nat) {a : Arrival} {count : Nat} (fits : a.Fits count) :
    Safe (a.run eval fuel) := by
  have size := fits.received
  cases a with
  | system f cells =>
    rw [received, List.length_map] at size
    exact safe_closed.system f cells fun wrong =>
      absurd (size ▸ fits.arity) (ne_true_of_eq_false wrong)
  | context f args =>
    rw [received, List.length_map] at size
    exact ContextFunction.safe_run (safe_evalArgument safe) f fuel (size ▸ fits)
  | defined f cells =>
    exact safe_checkPatience.bind fun _ _ => (Definition.safe_runBody safe f.body).inScope _

end Evaluation

/-- No evaluation crashes, whatever the machine, the invocation and the limits. -/
theorem safe_evaluate (settings : Settings) (fuel depth : Nat) (inv : Invocation) :
    Safe (evaluate settings fuel depth inv) := by
  induction fuel generalizing depth inv with
  | zero => exact sure_throw (by simp)
  | succ fuel ih =>
    rw [evaluate_eq]
    have nested := ih (depth + 1)
    have arrived : Safe (arrive settings (evaluate settings fuel (depth + 1)) (depth + 1) inv >>=
        (·.run (evaluate settings fuel (depth + 1)) fuel)) :=
      (sure_arrive (safe_evalArgument nested) settings (depth + 1) inv).bind fun a fits =>
        a.safe_run nested fuel fits
    apply Sure.inCall
    unfold withinDepth
    split
    · split
      · exact sure_fail
      · exact arrived
    · exact arrived

namespace Interpreter

theorem safe_inStatement {α : Type} {x : Eval α} (safe : Safe x) (number : Nat) :
    Safe (inStatement number x) := by
  intro m
  have ends := safe m
  unfold inStatement
  cases run : x m with
  | ok a n => trivial
  | error e n =>
    rw [run] at ends
    cases e with
    | failed f => simp
    | crashed => exact ends
    | outOfFuel => exact ends

theorem safe_statements (settings : Settings) (fuel number : Nat) (p : Program) :
    Safe (statements settings fuel number p) := by
  induction p generalizing number with
  | nil => exact sure_pure trivial
  | cons inv rest ih =>
    apply safe_checkPatience.bind
    intro _ _
    exact (safe_inStatement (safe_evaluate settings fuel 0 inv) number).bind fun _ _ =>
      ih (number + 1)

theorem safe_program (settings : Settings) (fuel : Nat) (p : Program) :
    Safe (program settings fuel p) :=
  (safe_modify _).bind fun _ _ => safe_statements settings fuel 1 p

theorem safe_single (settings : Settings) (fuel : Nat) (inv : Invocation) :
    Safe (single settings fuel inv) :=
  safe_checkPatience.bind fun _ _ => safe_evaluate settings fuel 0 inv

theorem run_ne_crashed {α : Type} (i : Interpreter) (patience : Patience) {act : Settings → Eval α}
    (safe : Safe (act i.settings)) : (i.run patience act).1 ≠ .error .crashed := by
  have ends := safe { i.machine with patience }
  unfold run
  split
  · simp
  · rename_i e n stopped
    rw [stopped] at ends
    simpa using ends

end Interpreter
end CallScript
