import CallScript.Proofs.Run.Keeping

/- Computations that do nothing but evaluate arguments of a call, in increasing order of their
   positions. -/
namespace CallScript

open Eval

inductive Evaluations (eval : Argument → Eval CellId) (args : List Argument) :
    List Nat → Machine → List CellId → Machine → Prop where
  | done (m : Machine) : Evaluations eval args [] m [] m
  | next {i : Nat} {a : Argument} {c : CellId} {rest : List Nat} {cells : List CellId}
      {m n k : Machine}
    (argument : args[i]? = some a) (run : eval a m = .ok c n)
    (later : Evaluations eval args rest n cells k) :
    Evaluations eval args (i :: rest) m (c :: cells) k

/-- The arguments at the given positions are evaluated one after the other, as far as the last of
them, which may have failed. -/
inductive Attempts (eval : Argument → Eval CellId) (args : List Argument) (e : Stop) :
    List Nat → Machine → Machine → Prop where
  | done (m : Machine) : Attempts eval args e [] m m
  | failed {i : Nat} {a : Argument} {m n : Machine} (argument : args[i]? = some a)
    (run : eval a m = .error e n) : Attempts eval args e [i] m n
  | next {i : Nat} {a : Argument} {c : CellId} {rest : List Nat} {m n k : Machine}
    (argument : args[i]? = some a) (run : eval a m = .ok c n)
    (later : Attempts eval args e rest n k) :
    Attempts eval args e (i :: rest) m k

section Sweeping

variable {eval : Argument → Eval CellId} {args : List Argument} {α β : Type} {m : Machine}

theorem Evaluations.append {left right : List Nat} {cells more : List CellId} {n k : Machine}
    (first : Evaluations eval args left m cells n) (second : Evaluations eval args right n more k) :
    Evaluations eval args (left ++ right) m (cells ++ more) k := by
  induction first with
  | done m => exact second
  | next argument run _ ih => exact .next argument run (ih second)

theorem Evaluations.attempts {left right : List Nat} {cells : List CellId} {e : Stop}
    {n k : Machine} (first : Evaluations eval args left m cells n)
    (second : Attempts eval args e right n k) :
    Attempts eval args e (left ++ right) m k := by
  induction first with
  | done m => exact second
  | next argument run _ ih => exact .next argument run (ih second)

structure InOrder (start : Nat) (positions : List Nat) : Prop where
  increasing : positions.Pairwise (· < ·)
  later : ∀ i ∈ positions, start ≤ i

theorem InOrder.nil (start : Nat) : InOrder start [] := ⟨.nil, by simp⟩

theorem InOrder.append {start next : Nat} {left right : List Nat} (first : InOrder start left)
    (below : ∀ i ∈ left, i < next) (second : InOrder next right) (le : start ≤ next) :
    InOrder start (left ++ right) := by
  constructor
  · rw [List.pairwise_append]
    refine ⟨first.increasing, second.increasing, ?_⟩
    intro i before j after
    exact Nat.lt_of_lt_of_le (below i before) (second.later j after)
  · intro i member
    rcases List.mem_append.mp member with member | member
    · exact first.later i member
    · exact Nat.le_trans le (second.later i member)

/-- All that a computation does to the machine is to evaluate arguments, in order and from a
position on. -/
def Sweeps (eval : Argument → Eval CellId) (args : List Argument) (start : Nat)
    (good : List Nat → List CellId → α → Prop) (x : Eval α) (m : Machine) : Prop :=
  match x m with
  | .ok a n =>
    ∃ positions cells, InOrder start positions ∧ Evaluations eval args positions m cells n ∧
      good positions cells a
  | .error e n => ∃ positions, InOrder start positions ∧ Attempts eval args e positions m n

theorem sweeps_pure {start : Nat} {good : List Nat → List CellId → α → Prop} {a : α}
    (ok : good [] [] a) :
    Sweeps eval args start good (pure a) m :=
  ⟨[], [], .nil start, .done m, ok⟩

theorem sweeps_throw {start : Nat} {good : List Nat → List CellId → α → Prop} {e : Stop} :
    Sweeps eval args start good (throw e) m :=
  ⟨[], .nil start, .done m⟩

theorem sweeps_get {start : Nat} {good : List Nat → List CellId → β → Prop} {f : Machine → Eval β}
    (rest : Sweeps eval args start good (f m) m) : Sweeps eval args start good (get >>= f) m :=
  rest

theorem sweeps_contents {start : Nat} {good : List Nat → List CellId → β → Prop} {c : CellId}
    {f : Datum → Eval β} (rest : Sweeps eval args start good (f (m.heap.get c)) m) :
    Sweeps eval args start good (contents c >>= f) m :=
  rest

theorem sweeps_need {start : Nat} {good : List Nat → List CellId → β → Prop} {o : Option α}
    {f : α → Eval β} (rest : ∀ a, o = some a → Sweeps eval args start good (f a) m) :
    Sweeps eval args start good (need o >>= f) m := by
  cases o with
  | none => exact sweeps_throw
  | some a => exact rest a rfl

theorem sweeps_argument {start : Nat} {a : Argument} (argument : args[start]? = some a) :
    Sweeps eval args start (fun positions cells c => positions = [start] ∧ cells = [c])
      (eval a) m := by
  have order : InOrder start [start] := ⟨by simp, by simp⟩
  unfold Sweeps
  split
  · rename_i c n run
    exact ⟨[start], [c], order, .next argument run (.done n), rfl, rfl⟩
  · rename_i e n run
    exact ⟨[start], order, .failed argument run⟩

theorem Sweeps.bind {start : Nat} {good : List Nat → List CellId → α → Prop}
    {better : List Nat → List CellId → β → Prop} {x : Eval α} {f : α → Eval β}
    (first : Sweeps eval args start good x m)
    (rest : ∀ positions cells a n, good positions cells a → ∃ next, start ≤ next ∧
      (∀ i ∈ positions, i < next) ∧
      Sweeps eval args next (fun more others b => better (positions ++ more) (cells ++ others) b)
        (f a) n) :
    Sweeps eval args start better (x >>= f) m := by
  unfold Sweeps at first ⊢
  split at first
  · rename_i a n run
    obtain ⟨positions, cells, order, evaluations, ok⟩ := first
    obtain ⟨next, le, below, later⟩ := rest positions cells a n ok
    rw [bind_ok run]
    unfold Sweeps at later
    split at later
    · obtain ⟨more, others, order', evaluations', ok⟩ := later
      exact ⟨_, _, order.append below order' le, evaluations.append evaluations', ok⟩
    · obtain ⟨more, order', attempts⟩ := later
      exact ⟨_, order.append below order' le, evaluations.attempts attempts⟩
  · rename_i e n run
    rw [bind_error run]
    exact first

theorem Sweeps.ok {start : Nat} {good : List Nat → List CellId → α → Prop} {x : Eval α} {a : α}
    {n : Machine} (sweeps : Sweeps eval args start good x m) (run : x m = .ok a n) :
    ∃ positions cells, InOrder start positions ∧ Evaluations eval args positions m cells n ∧
      good positions cells a := by
  unfold Sweeps at sweeps
  rwa [run] at sweeps

theorem Sweeps.error {start : Nat} {good : List Nat → List CellId → α → Prop} {x : Eval α}
    {e : Stop} {n : Machine} (sweeps : Sweeps eval args start good x m) (run : x m = .error e n) :
    ∃ positions, InOrder start positions ∧ Attempts eval args e positions m n := by
  unfold Sweeps at sweeps
  rwa [run] at sweeps

theorem Sweeps.imp {start : Nat} {good better : List Nat → List CellId → α → Prop} {x : Eval α}
    (sweeps : Sweeps eval args start good x m)
    (implies : ∀ positions cells a, good positions cells a → better positions cells a) :
    Sweeps eval args start better x m := by
  unfold Sweeps at sweeps ⊢
  split at sweeps
  · obtain ⟨positions, cells, order, evaluations, ok⟩ := sweeps
    exact ⟨positions, cells, order, evaluations, implies _ _ _ ok⟩
  · exact sweeps

theorem Sweeps.map {start : Nat} {good : List Nat → List CellId → α → Prop}
    {better : List Nat → List CellId → β → Prop} {x : Eval α} {g : α → β}
    (sweeps : Sweeps eval args start good x m)
    (implies : ∀ positions cells a, good positions cells a → better positions cells (g a)) :
    Sweeps eval args start better (x >>= fun a => pure (g a)) m := by
  have same := sweeps.imp implies
  unfold Sweeps at same ⊢
  cases run : x m with
  | ok a n => simpa [run, bind_ok run, pure_run] using same
  | error e n => simpa [run, bind_error run] using same

/-- The computation evaluates the arguments after those whose cells are known, one by one as far as
it goes. -/
def Prolongs (eval : Argument → Eval CellId) (args : List Argument) (known : List CellId)
    (good : List CellId → α → Prop) (x : Eval α) (m : Machine) : Prop :=
  Sweeps eval args known.length (fun positions new a =>
    positions = List.range' known.length new.length ∧ good (known ++ new) a) x m

variable {known : List CellId}

theorem prolongs_pure {good : List CellId → α → Prop} {a : α} (ok : good known a) :
    Prolongs eval args known good (pure a) m :=
  sweeps_pure ⟨rfl, by rwa [List.append_nil]⟩

theorem Prolongs.bind {good : List CellId → α → Prop} {better : List CellId → β → Prop} {x : Eval α}
    {f : α → Eval β} (first : Prolongs eval args known good x m)
    (rest : ∀ more a n, good more a → Prolongs eval args more better (f a) n) :
    Prolongs eval args known better (x >>= f) m := by
  refine Sweeps.bind first ?_
  rintro positions new a n ⟨rfl, ok⟩
  have le : known.length ≤ (known ++ new).length := by simp
  refine ⟨(known ++ new).length, le, by simp, ?_⟩
  refine Sweeps.imp (rest (known ++ new) a n ok) ?_
  rintro positions more b ⟨rfl, ok⟩
  refine ⟨?_, by rwa [← List.append_assoc]⟩
  rw [List.length_append, List.length_append, List.range'_append_1]

end Sweeping

end CallScript
