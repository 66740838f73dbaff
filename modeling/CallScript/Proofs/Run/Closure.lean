import CallScript.Proofs.Number.Nearest
import CallScript.Run.Evaluator

/- What holds of all that is done between two invocations. A property of computations that is kept
   by the few ways in which they are put together holds of every function of the system, and of
   every function that works on names. A crash is no such way: it comes of a wrong number of
   arguments, or of an argument without a cell, and whether it matters is up to the property. -/
namespace CallScript

open Eval

/-- The ways in which computations are put together. No step is a question to the host. -/
structure Closed (P : ∀ {α : Type}, Eval α → Prop) : Prop where
  pure : ∀ {α : Type} (a : α), P (pure a)
  fail : ∀ {α : Type} (fault : Fault), P (fail fault : Eval α)
  step : ∀ {α : Type} (f : Machine → α × Machine), (∀ m, (f m).2.patience = m.patience) →
    P (modifyGet f : Eval α)
  bind : ∀ {α β : Type} {x : Eval α} {f : α → Eval β}, P x → (∀ a, P (f a)) → P (x >>= f)

/-- A name and a value for it: two arguments, of which the second has a cell. -/
def Paired (args : List Prepared) : Prop :=
  ∃ target value, args = [target, value] ∧ value.cell.isSome

namespace Closed

variable {α β : Type} {P : ∀ {α : Type}, Eval α → Prop} (closed : Closed P)
include closed

theorem get : P (get : Eval Machine) := closed.step (fun m => (m, m)) fun _ => rfl

theorem modify {f : Machine → Machine} (same : ∀ m, (f m).patience = m.patience) :
    P (modify f : Eval Unit) := closed.step (fun m => ((), f m)) same

theorem contents (c : CellId) : P (contents c) := closed.bind closed.get fun _ => closed.pure _

theorem alloc (d : Datum) : P (alloc d) := closed.step _ fun _ => rfl

theorem copy (d : Datum) : P (copy d) := closed.step _ fun _ => rfl

theorem store (c : CellId) (d : Datum) : P (store c d) := closed.modify fun _ => rfl

theorem record (entry : LogEntry) : P (record entry) := closed.modify fun _ => rfl

theorem mapM {f : α → Eval β} (each : ∀ a, P (f a)) (list : List α) : P (list.mapM f) := by
  induction list with
  | nil => exact closed.pure []
  | cons a rest ih =>
    rw [List.mapM_cons]
    exact closed.bind (each a) fun b => closed.bind ih fun bs => closed.pure (b :: bs)

theorem lookup (name : Name) : P (lookup name) := by
  apply closed.bind closed.get
  intro m
  unfold Scope.lookup
  split
  · exact closed.pure _
  · exact closed.fail _

theorem expect (read : Datum → Option α) (wanted : Shape) (c : CellId) :
    P (expect read wanted c) := by
  apply closed.bind (closed.contents c)
  intro d
  unfold Datum.expect
  split
  · exact closed.pure _
  · exact closed.fail _

theorem need (o : Option α) (present : o = none → P (throw .crashed : Eval α)) : P (need o) := by
  cases o with
  | none => exact present rfl
  | some a => exact closed.pure a

theorem checkPatience (counts : ∀ f : Machine → Unit × Machine, P (modifyGet f : Eval Unit)) :
    P checkPatience := by
  apply closed.bind closed.get
  intro m
  dsimp only
  split
  · exact closed.pure _
  · exact closed.fail _
  · exact counts _

theorem detached (target c : CellId) : P (SystemFunction.detached target c) := by
  apply closed.bind closed.get
  intro m
  split
  · exact closed.bind (closed.contents c) fun d => closed.bind (closed.copy d) closed.alloc
  · exact closed.pure c

theorem readLine : P SystemFunction.runReadLine := by
  apply closed.bind (closed.step _ fun _ => rfl)
  intro line
  cases line with
  | none => exact closed.fail _
  | some text => exact closed.alloc _

theorem parseNumber (c : CellId) : P (SystemFunction.runParseNumber c) := by
  apply closed.bind (closed.expect _ _ c)
  intro text
  split
  · exact closed.alloc _
  · exact closed.fail _

theorem logical (decide : Nat → Nat → Bool) (args : List CellId) :
    P (SystemFunction.runLogical decide args) :=
  closed.bind (closed.mapM (closed.expect _ _) args) fun _ => closed.alloc _

theorem arithmetic (name : Name) (op : Number → Number → Number) (args : List CellId) :
    P (SystemFunction.runArithmetic name op args) := by
  cases args with
  | nil => exact closed.fail _
  | cons first rest =>
    exact closed.bind (closed.expect _ _ first) fun _ =>
      closed.bind (closed.mapM (closed.expect _ _) rest) fun _ => closed.alloc _

theorem compare (op : Number → Number → Bool) (a b : CellId) :
    P (SystemFunction.runCompare op a b) :=
  closed.bind (closed.expect _ _ a) fun _ => closed.bind (closed.expect _ _ b) fun _ =>
    closed.alloc _

theorem print (ending : Bytes) (args : List CellId) : P (SystemFunction.runPrint ending args) := by
  apply closed.bind closed.get
  intro m
  dsimp only
  split
  · exact closed.bind (closed.modify fun _ => rfl) fun _ => closed.alloc _
  · exact closed.fail _

theorem push (args : List CellId) : P (SystemFunction.runPush args) := by
  cases args with
  | nil => exact closed.fail _
  | cons target rest =>
    exact closed.bind (closed.expect _ _ target) fun _ =>
      closed.bind (closed.mapM (closed.detached target) rest) fun _ =>
        closed.bind (closed.store target _) fun _ => closed.alloc _

theorem pop (target : CellId) : P (SystemFunction.runPop target) := by
  apply closed.bind (closed.expect _ _ target)
  intro elements
  split
  · exact closed.bind (closed.store target _) fun _ => closed.pure _
  · exact closed.fail _

theorem index (target index : CellId) : P (SystemFunction.runIndex target index) := by
  apply closed.bind (closed.expect _ _ target)
  intro elements
  apply closed.bind (closed.expect _ _ index)
  intro n
  split
  · exact closed.fail _
  · rename_i checked
    simp only [Bool.or_eq_true, not_or, Bool.not_eq_true] at checked
    obtain ⟨⟨real, positive⟩, below⟩ := checked
    -- The check of the range is all that keeps the lookup from a crash.
    have inside := Number.floor_lt real positive below
    rw [List.getElem?_eq_getElem inside]
    exact closed.pure _

/-- A system function crashes on no other number of arguments than one that it does not accept. -/
theorem system (f : SystemFunction) (args : List CellId)
    (wrong : f.signature.acceptsArity args.length = false → P (throw .crashed : Eval CellId)) :
    P (f.run args) := by
  cases f with
  | readLine => exact closed.readLine
  | breakLoop | continueLoop | makeList => exact closed.alloc _
  | allTrue | anyTrue | oneTrue =>
    simp only [SystemFunction.run]
    exact closed.logical _ args
  | add | subtract | multiply | divide | remainder => exact closed.arithmetic _ _ args
  | printLine | print => exact closed.print _ args
  | push => exact closed.push args
  | parseNumber =>
    rcases args with _ | ⟨c, _ | ⟨d, rest⟩⟩
    · exact wrong rfl
    · exact closed.parseNumber c
    · exact wrong rfl
  | trim | not | length =>
    rcases args with _ | ⟨c, _ | ⟨d, rest⟩⟩
    · exact wrong rfl
    · exact closed.bind (closed.expect _ _ c) fun _ => closed.alloc _
    · exact wrong rfl
  | returnCell =>
    rcases args with _ | ⟨c, _ | ⟨d, rest⟩⟩
    · exact wrong rfl
    · exact closed.alloc _
    · exact wrong rfl
  | pop =>
    rcases args with _ | ⟨c, _ | ⟨d, rest⟩⟩
    · exact wrong rfl
    · exact closed.pop c
    · exact wrong rfl
  | equal =>
    rcases args with _ | ⟨a, _ | ⟨b, _ | ⟨c, rest⟩⟩⟩
    · exact wrong rfl
    · exact wrong rfl
    · exact closed.bind closed.get fun _ => closed.alloc _
    · exact wrong rfl
  | greater | greaterOrEqual | less | lessOrEqual =>
    rcases args with _ | ⟨a, _ | ⟨b, _ | ⟨c, rest⟩⟩⟩
    · exact wrong rfl
    · exact wrong rfl
    · exact closed.compare _ a b
    · exact wrong rfl
  | index =>
    rcases args with _ | ⟨a, _ | ⟨b, _ | ⟨c, rest⟩⟩⟩
    · exact wrong rfl
    · exact wrong rfl
    · exact closed.index a b
    · exact wrong rfl

theorem value (target : Prepared) {value : Prepared}
    (unpaired : ¬Paired [target, value] → P (throw .crashed : Eval CellId)) :
    P (Eval.need value.cell) := by
  apply closed.need
  intro none
  apply unpaired
  rintro ⟨_, _, same, present⟩
  cases same
  rw [none] at present
  cases present

theorem runBind (args : List Prepared)
    (unpaired : ¬Paired args → P (throw .crashed : Eval CellId)) :
    P (ContextFunction.runBind args) := by
  unfold ContextFunction.runBind
  split
  · split
    · exact closed.bind (closed.value _ unpaired) fun _ =>
        closed.bind (closed.modify fun _ => rfl) fun _ => closed.alloc _
    · exact closed.bind closed.get fun _ => closed.fail _
  · rename_i other
    exact unpaired fun ⟨target, value, same, _⟩ => other target value same

theorem runAssign (args : List Prepared)
    (unpaired : ¬Paired args → P (throw .crashed : Eval CellId)) :
    P (ContextFunction.runAssign args) := by
  unfold ContextFunction.runAssign
  split
  · split
    · exact closed.bind (closed.lookup _) fun c => closed.bind (closed.value _ unpaired) fun v =>
        closed.bind (closed.contents v) fun d => closed.bind (closed.copy d) fun e =>
          closed.bind (closed.store c e) fun _ => closed.alloc _
    · exact closed.bind closed.get fun _ => closed.fail _
  · rename_i other
    exact unpaired fun ⟨target, value, same, _⟩ => other target value same

theorem runDefine (args : List Prepared) : P (ContextFunction.runDefine args) := by
  unfold ContextFunction.runDefine
  split
  · exact closed.bind (closed.modify fun _ => rfl) fun _ =>
      closed.bind (closed.record _) fun _ => closed.alloc _
  · exact closed.bind closed.get fun _ => closed.fail _

end Closed
end CallScript
