import CallScript.Proofs.Run.Closure
import CallScript.Proofs.Run.Discipline

/- Runs that differ only in what their failures say. A computation is retold by others when they do
   what it does, and fail at the same machine when it fails, each with its own words. Evaluation is
   retold when the evaluation of nested invocations is, since the failures that it raises by itself
   are the same in all of them. -/
namespace CallScript

open Eval

/-- Failures of the computation are ones it has raised itself, and say nothing but the fault. -/
def Plain {α : Type} (x : Eval α) : Prop :=
  ∀ m f n, x m = .error (.failed f) n → ∃ fault, f = .raise fault

section Plain

variable {α β : Type}

theorem plain_pure (a : α) : Plain (pure a) := by
  intro m f n run
  cases run

theorem plain_fail (fault : Fault) : Plain (fail fault : Eval α) := by
  intro m f n run
  cases run
  exact ⟨fault, rfl⟩

theorem plain_crash : Plain (throw .crashed : Eval α) := by
  intro m f n run
  cases run

theorem plain_modifyGet (change : Machine → α × Machine) : Plain (modifyGet change : Eval α) := by
  intro m f n run
  cases run

theorem plain_bind {x : Eval α} {f : α → Eval β} (first : Plain x) (rest : ∀ a, Plain (f a)) :
    Plain (x >>= f) := by
  intro m failure n run
  cases ran : x m with
  | ok a k =>
    rw [bind_ok ran] at run
    exact rest a k failure n run
  | error e k =>
    rw [bind_error ran] at run
    cases run
    exact first m failure n ran

theorem plain_closed : Closed @Plain :=
  ⟨plain_pure, plain_fail, fun f _ => plain_modifyGet f, plain_bind⟩

end Plain

section Retelling

variable {ι α β : Type}

/-- The others give the same and leave the same machine. Where the computation fails, they fail with
what its failure is told as on the heap that is left. -/
def Retells (tells : Heap → Failure → (ι → Failure) → Prop) (x : Eval α) (y : ι → Eval α) : Prop :=
  ∀ m,
  match x m with
  | .ok a n => ∀ i, y i m = .ok a n
  | .error (.failed f) n => ∃ g, tells n.heap f g ∧ ∀ i, y i m = .error (.failed (g i)) n
  | .error e n => ∀ i, y i m = .error e n

variable {tells : Heap → Failure → (ι → Failure) → Prop}

theorem Retells.mono {wider : Heap → Failure → (ι → Failure) → Prop}
    (implies : ∀ h f g, tells h f g → wider h f g)
    {x : Eval α} {y : ι → Eval α} (retells : Retells tells x y) : Retells wider x y := by
  intro m
  have runs := retells m
  cases run : x m with
  | ok a n =>
    rw [run] at runs
    exact runs
  | error e n =>
    rw [run] at runs
    cases e with
    | failed f =>
      obtain ⟨g, told, others⟩ := runs
      exact ⟨g, implies n.heap f g told, others⟩
    | crashed => exact runs
    | outOfFuel => exact runs

theorem retells_bind {x : Eval α} {y : ι → Eval α} {f : α → Eval β} {g : ι → α → Eval β}
    (first : Retells tells x y) (rest : ∀ a, Retells tells (f a) fun i => g i a) :
    Retells tells (x >>= f) fun i => y i >>= g i := by
  intro m
  have start := first m
  cases run : x m with
  | ok a n =>
    rw [run] at start
    have same : ∀ i, (y i >>= g i) m = g i a n := fun i => bind_ok (start i) _
    simp only [bind_ok run, same]
    exact rest a n
  | error e n =>
    rw [run] at start
    simp only [bind_error run]
    cases e with
    | failed failure =>
      obtain ⟨others, told, runs⟩ := start
      exact ⟨others, told, fun i => bind_error (runs i) _⟩
    | crashed => exact fun i => bind_error (start i) _
    | outOfFuel => exact fun i => bind_error (start i) _

theorem retells_throw {e : Stop} (silent : ∀ f, e ≠ .failed f) :
    Retells tells (throw e : Eval α) fun _ => throw e := by
  intro m
  cases e with
  | failed f => exact absurd rfl (silent f)
  | crashed => exact fun _ => rfl
  | outOfFuel => exact fun _ => rfl

theorem retells_inScope {x : Eval α} {y : ι → Eval α} (retells : Retells tells x y)
    (scope : Scope) : Retells tells (inScope scope x) fun i => inScope scope (y i) := by
  intro m
  have inside := retells { m with scope }
  cases run : x { m with scope } with
  | ok a n =>
    rw [run] at inside
    simp only [inScope, run, inside, implies_true]
  | error e n =>
    rw [run] at inside
    cases e with
    | failed f =>
      obtain ⟨others, told, runs⟩ := inside
      simp only [inScope, run, runs]
      exact ⟨others, told, fun _ => rfl⟩
    | crashed => simp only [inScope, run, inside, implies_true]
    | outOfFuel => simp only [inScope, run, inside, implies_true]

theorem retells_inBlock {x : Eval α} {y : ι → Eval α} (retells : Retells tells x y) :
    Retells tells (inBlock x) fun i => inBlock (y i) :=
  fun m => retells_inScope retells m.scope m

variable (own : ∀ h fault, tells h (.raise fault) fun _ => .raise fault)
include own

theorem retells_plain {x : Eval α} (plain : Plain x) : Retells tells x fun _ => x := by
  intro m
  cases run : x m with
  | ok a n => exact fun _ => run
  | error e n =>
    cases e with
    | failed f =>
      obtain ⟨fault, rfl⟩ := plain m f n run
      exact ⟨fun _ => .raise fault, own n.heap fault, fun _ => run⟩
    | crashed => exact fun _ => run
    | outOfFuel => exact fun _ => run

theorem retells_pure (a : α) : Retells tells (pure a) fun _ => pure a :=
  retells_plain own (plain_pure a)

theorem retells_get {f : Machine → Eval β} {g : ι → Machine → Eval β}
    (rest : ∀ m, Retells tells (f m) fun i => g i m) :
    Retells tells (get >>= f) fun i => get >>= g i :=
  retells_bind (retells_plain own plain_closed.get) rest

theorem retells_contents {c : CellId} {f : Datum → Eval β} {g : ι → Datum → Eval β}
    (rest : ∀ d, Retells tells (f d) fun i => g i d) :
    Retells tells (contents c >>= f) fun i => contents c >>= g i :=
  retells_bind (retells_plain own (plain_closed.contents c)) rest

theorem retells_need {o : Option α} {f : α → Eval β} {g : ι → α → Eval β}
    (rest : ∀ a, Retells tells (f a) fun i => g i a) :
    Retells tells (need o >>= f) fun i => need o >>= g i :=
  retells_bind (retells_plain own (plain_closed.need o fun _ => plain_crash)) rest

theorem retells_mapM {f : α → Eval β} {g : ι → α → Eval β}
    (each : ∀ a, Retells tells (f a) fun i => g i a) (list : List α) :
    Retells tells (list.mapM f) fun i => list.mapM (g i) := by
  induction list with
  | nil => exact retells_pure own []
  | cons a rest ih =>
    simp only [List.mapM_cons]
    apply retells_bind (each a)
    intro b
    apply retells_bind ih
    intro bs
    exact retells_pure own (b :: bs)

section Arguments

variable {eval : Argument → Eval CellId} {others : ι → Argument → Eval CellId}
  (callee : ∀ a, Retells tells (eval a) fun i => others i a)
include callee

theorem retells_force (s : Signature) (last position : Nat) (args : List Pending) :
    Retells tells (Matching.force eval s last position args)
      fun i => Matching.force (others i) s last position args := by
  induction args generalizing position with
  | nil => exact retells_pure own []
  | cons p rest ih =>
    have goOn : ∀ q : Pending, Retells tells
        (do let rest ← Matching.force eval s last (position + 1) rest; return q :: rest)
        fun i => do let rest ← Matching.force (others i) s last (position + 1) rest; return q ::
          rest :=
      fun q => retells_bind (ih (position + 1)) fun _ => retells_pure own _
    simp only [Matching.force]
    split
    · exact retells_pure own _
    · split
      · exact goOn _
      · exact retells_bind (callee p.arg) fun _ => goOn _
      · exact retells_plain own plain_crash
      · exact goOn _

theorem retells_accepts (s : Signature) (left position : Nat) (args : List Pending) :
    Retells tells (Matching.accepts eval s left position args)
      fun i => Matching.accepts (others i) s left position args := by
  induction left generalizing position args with
  | zero => exact retells_pure own _
  | succ left ih =>
    simp only [Matching.accepts]
    apply retells_need own
    intro slot
    split
    · apply retells_need own
      intro p
      apply retells_get own
      intro m
      split
      · split
        · exact ih _ _
        · exact retells_pure own _
      · apply retells_bind (retells_force own callee s position 0 args)
        intro forced
        apply retells_need own
        intro c
        apply retells_contents own
        intro d
        split
        · exact ih _ _
        · exact retells_pure own _
    · exact ih _ _

theorem retells_choose (name : Name) (candidates : List Function) (args : List Pending) :
    Retells tells (Matching.choose eval name candidates args)
      fun i => Matching.choose (others i) name candidates args := by
  induction candidates generalizing args with
  | nil => exact retells_plain own (plain_bind plain_closed.get fun _ => plain_fail _)
  | cons f rest ih =>
    simp only [Matching.choose]
    split
    · apply retells_bind (retells_accepts own callee f.signature args.length 0 args)
      intro out
      split
      · exact retells_pure own _
      · exact ih _
    · exact ih _

theorem retells_resolve (inv : Invocation) :
    Retells tells (Matching.resolve eval inv) fun i => Matching.resolve (others i) inv :=
  retells_get own fun _ => retells_choose own callee _ _ _

theorem retells_evalRemaining (args : List Pending) :
    Retells tells (evalRemaining eval args) fun i => evalRemaining (others i) args := by
  apply retells_mapM own
  intro p
  cases p.cell with
  | some c => exact retells_pure own c
  | none => exact callee p.arg

theorem retells_prepare (s : Signature) (position : Nat) (args : List Pending) :
    Retells tells (prepare eval s position args) fun i => prepare (others i) s position args := by
  induction args generalizing position with
  | nil => exact retells_pure own []
  | cons p rest ih =>
    have one : ∀ slot, Retells tells (prepareOne eval p slot) fun i =>
      prepareOne (others i) p slot := by
      intro slot
      unfold prepareOne
      split
      · exact retells_pure own _
      · split
        · exact retells_pure own _
        · exact retells_bind (callee p.arg) fun _ => retells_pure own _
    apply retells_need own
    intro slot
    apply retells_bind (one slot)
    intro first
    exact retells_bind (ih (position + 1)) fun _ => retells_pure own _

theorem retells_runBlock (body : List Prepared) :
    Retells tells (runBlock eval body) fun i => runBlock (others i) body := by
  induction body with
  | nil => exact retells_pure own none
  | cons s rest ih =>
    apply retells_bind (callee s.raw)
    intro c
    apply retells_contents own
    intro d
    split
    · exact retells_pure own _
    · exact ih

theorem retells_runConditional (args : List Prepared) :
    Retells tells (ContextFunction.runConditional eval args)
      fun i => ContextFunction.runConditional (others i) args := by
  cases args with
  | nil => exact retells_plain own (plain_fail _)
  | cons condition body =>
    apply retells_need own
    intro c
    apply retells_bind (retells_plain own (plain_closed.expect _ _ c))
    intro value
    split
    · apply retells_bind (retells_inBlock (retells_runBlock own callee body))
      intro out
      cases out with
      | none => exact retells_plain own (plain_closed.alloc _)
      | some c => exact retells_pure own c
    · exact retells_plain own (plain_closed.alloc _)

theorem retells_runLoop (predicate : Argument) (body : List Prepared) (fuel : Nat) :
    Retells tells (ContextFunction.runLoop eval predicate body fuel)
      fun i => ContextFunction.runLoop (others i) predicate body fuel := by
  induction fuel with
  | zero => exact retells_throw (by simp)
  | succ fuel ih =>
    simp only [ContextFunction.runLoop]
    apply retells_bind (retells_plain own (plain_closed.checkPatience plain_modifyGet))
    intro _
    apply retells_bind (callee predicate)
    intro c
    apply retells_bind (retells_plain own (plain_closed.expect _ _ c))
    intro value
    split
    · apply retells_bind (retells_inBlock (retells_runBlock own callee body))
      intro out
      cases out with
      | none => exact ih
      | some c =>
        apply retells_contents own
        intro d
        split
        · exact retells_plain own (plain_closed.alloc _)
        · exact ih
        · exact retells_pure own c
    · exact retells_plain own (plain_closed.alloc _)

theorem retells_context (f : ContextFunction) (fuel : Nat) (args : List Prepared) :
    Retells tells (f.run eval fuel args) fun i => f.run (others i) fuel args := by
  cases f with
  | bindName => exact retells_plain own (plain_closed.runBind args fun _ => plain_crash)
  | assign => exact retells_plain own (plain_closed.runAssign args fun _ => plain_crash)
  | conditional => exact retells_runConditional own callee args
  | loop =>
    cases args with
    | nil => exact retells_plain own (plain_fail _)
    | cons predicate body => exact retells_runLoop own callee predicate.raw body fuel
  | define => exact retells_plain own (plain_closed.runDefine args)

end Arguments

section Evaluation

variable {eval : Invocation → Eval CellId} {others : ι → Invocation → Eval CellId}
  (callee : ∀ inv, Retells tells (eval inv) fun i => others i inv)
include callee

theorem retells_evalArgument (a : Argument) :
    Retells tells (evalArgument eval a) fun i => evalArgument (others i) a := by
  cases a with
  | literal value =>
    exact retells_plain own (plain_bind (plain_closed.copy value) plain_closed.alloc)
  | ident name => exact retells_plain own (plain_closed.lookup name)
  | call name args => exact callee ⟨name, args⟩
  | unknown tag => exact retells_plain own (plain_fail _)

theorem retells_runBody (body : List Invocation) :
    Retells tells (Definition.runBody eval body) fun i => Definition.runBody (others i) body := by
  induction body with
  | nil => exact retells_plain own (plain_closed.alloc _)
  | cons s rest ih =>
    apply retells_bind (callee s)
    intro c
    apply retells_contents own
    intro d
    split
    · exact retells_pure own _
    · exact retells_plain own (plain_closed.alloc _)
    · exact ih

theorem retells_dispatch (fuel : Nat) (f : Function) (args : List Pending) :
    Retells tells (dispatch eval fuel f args) fun i => dispatch (others i) fuel f args := by
  have argument := retells_evalArgument own callee
  cases f with
  | system s =>
    exact retells_bind (retells_evalRemaining own argument args) fun cells =>
      retells_plain own (plain_closed.system s cells fun _ => plain_crash)
  | context c =>
    exact retells_bind (retells_prepare own argument c.signature 0 args) fun given =>
      retells_context own argument c fuel given
  | defined d =>
    apply retells_bind (retells_evalRemaining own argument args)
    intro cells
    apply retells_bind (retells_plain own (plain_closed.checkPatience plain_modifyGet))
    intro _
    exact retells_inScope (retells_runBody own callee d.body) _

theorem retells_invoke (settings : Settings) (fuel depth : Nat) (inv : Invocation) :
    Retells tells (invoke settings eval fuel depth inv) fun i =>
      invoke settings (others i) fuel depth inv := by
  apply retells_bind (retells_resolve own (retells_evalArgument own callee) inv)
  rintro ⟨f, args⟩
  dsimp only
  split
  · exact retells_bind (retells_plain own (plain_modifyGet _)) fun _ =>
      retells_dispatch own callee fuel f args
  · exact retells_dispatch own callee fuel f args

end Evaluation

end Retelling

end CallScript
