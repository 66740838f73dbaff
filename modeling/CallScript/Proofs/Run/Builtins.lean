import CallScript.Proofs.Function.Registered
import CallScript.Proofs.Run.Discipline
import CallScript.Proofs.Value.Containment

/- What the built-in functions do to a machine. A system function other than `push`, `pop` and
   `index` puts a value of the shape it declares in a new cell, and touches nothing else but the
   console; so do the context functions that declare a shape, after they have done their work. -/
namespace CallScript

open Eval

/-- The computation puts a value in a new cell if it succeeds, and touches nothing else but the
console. -/
def Makes (good : Datum → Prop) (x : Eval CellId) (m : Machine) : Prop :=
  match x m with
  | .ok c n =>
    ∃ d console, good d ∧ c = m.heap.size ∧ n = { m with heap := (m.heap.alloc d).2, console }
  | .error _ n => ∃ console, n = { m with console }

section Making

variable {good : Datum → Prop} {m : Machine} {α : Type}

theorem makes_alloc {d : Datum} (ok : good d) : Makes good (alloc d) m :=
  ⟨d, m.console, ok, rfl, rfl⟩

theorem makes_fail {fault : Fault} : Makes good (fail fault) m := ⟨m.console, rfl⟩

theorem makes_crash : Makes good (throw .crashed) m := ⟨m.console, rfl⟩

theorem makes_get {f : Machine → Eval CellId} (rest : Makes good (f m) m) :
    Makes good (get >>= f) m := rest

theorem expect_run (read : Datum → Option α) (wanted : Shape) (c : CellId) (m : Machine) :
    (∃ a, expect read wanted c m = .ok a m) ∨ ∃ e, expect read wanted c m = .error e m := by
  cases found : read (m.heap.get c) with
  | some a =>
    left
    refine ⟨a, ?_⟩
    show ofExcept ((m.heap.get c).expect read wanted) m = _
    rw [Datum.expect, found]
    rfl
  | none =>
    right
    refine ⟨.failed (.raise (.unexpectedShape wanted (m.heap.get c).shape)), ?_⟩
    show ofExcept ((m.heap.get c).expect read wanted) m = _
    rw [Datum.expect, found]
    rfl

theorem makes_expect {read : Datum → Option α} {wanted : Shape} {c : CellId} {f : α → Eval CellId}
    (rest : ∀ a, Makes good (f a) m) : Makes good (expect read wanted c >>= f) m := by
  unfold Makes
  rcases expect_run read wanted c m with ⟨a, run⟩ | ⟨e, run⟩
  · rw [bind_ok run]
    exact rest a
  · rw [bind_error run]
    exact ⟨m.console, rfl⟩

theorem makes_expectAll {read : Datum → Option α} {wanted : Shape} {cells : List CellId}
    {f : List α → Eval CellId} (rest : ∀ list, Makes good (f list) m) :
    Makes good (cells.mapM (expect read wanted) >>= f) m := by
  induction cells generalizing f with
  | nil => exact rest []
  | cons c others ih =>
    rw [List.mapM_cons, bind_assoc]
    apply makes_expect
    intro a
    rw [bind_assoc]
    apply ih
    intro list
    exact rest (a :: list)

theorem makes_modifyGet {change : Machine → α × Machine} {f : α → Eval CellId} (console : Console)
    (changed : (change m).2 = { m with console })
    (rest : Makes good (f (change m).1) { m with console }) :
    Makes good (modifyGet change >>= f) m := by
  have run : (modifyGet change : Eval α) m = .ok (change m).1 { m with console } := by
    rw [← changed]
    rfl
  unfold Makes at rest ⊢
  rw [bind_ok run]
  exact rest

theorem makes_readLine (ok : ∀ text, good (.string text)) :
    Makes good SystemFunction.runReadLine m := by
  apply makes_modifyGet m.console.readLine.2
  · rfl
  · split
    · exact makes_alloc (ok _)
    · exact makes_fail

theorem makes_print (ok : good .unit) {ending : Bytes} {args : List CellId} :
    Makes good (SystemFunction.runPrint ending args) m := by
  apply makes_get
  dsimp only
  split
  · rename_i console _
    exact makes_modifyGet console rfl (makes_alloc ok)
  · exact makes_fail

end Making

namespace SystemFunction

/-- The ways in which a system function works on its arguments. -/
inductive Works (f : SystemFunction) (args : List CellId) : Prop where
  | value (makes : ∀ m, Makes (fun d => f.returns = .shape d.shape ∧ d.cells ⊆ args) (f.run args) m)
  | push (name : f = .push) (run : f.run args = runPush args)
  | pop (name : f = .pop) (target : CellId) (single : args = [target])
      (run : f.run args = runPop target)
  | index (name : f = .index) (target position : CellId) (pair : args = [target, position])
    (run : f.run args = runIndex target position)

theorem makes_value (f : SystemFunction) (args : List CellId) (m : Machine)
    (plain : f ≠ .push ∧ f ≠ .pop ∧ f ≠ .index) :
    Makes (fun d => f.returns = .shape d.shape ∧ d.cells ⊆ args) (f.run args) m := by
  have flat : ∀ {list : List CellId}, ([] : List CellId) ⊆ list :=
    fun {list} => List.nil_subset list
  have logical : ∀ {g : SystemFunction} {decide : Nat → Nat → Bool} {list : List CellId},
      g.returns = .shape .boolean →
      Makes (fun d => g.returns = .shape d.shape ∧ d.cells ⊆ list) (runLogical decide list) m :=
    fun declared => makes_expectAll fun _ => makes_alloc ⟨declared, flat⟩
  have compare : ∀ {g : SystemFunction} {op : Number → Number → Bool} {a b : CellId},
      g.returns = .shape .boolean →
      Makes (fun d => g.returns = .shape d.shape ∧ d.cells ⊆ [a, b]) (runCompare op a b) m :=
    fun declared => makes_expect fun _ => makes_expect fun _ => makes_alloc ⟨declared, flat⟩
  have arithmetic : ∀ {g : SystemFunction} {op : Number → Number → Number} {list : List CellId},
      g.returns = .shape .number →
      Makes (fun d => g.returns = .shape d.shape ∧ d.cells ⊆ list)
        (runArithmetic g.name op list) m := by
    intro g op list declared
    cases list with
    | nil => exact makes_fail
    | cons first rest =>
      exact makes_expect fun _ => makes_expectAll fun _ => makes_alloc ⟨declared, flat⟩
  unfold run
  split
  · exact makes_readLine fun _ => ⟨rfl, flat⟩
  · apply makes_expect
    intro text
    split
    · exact makes_alloc ⟨rfl, flat⟩
    · exact makes_fail
  · exact makes_expect fun _ => makes_alloc ⟨rfl, flat⟩
  · exact makes_expect fun _ => makes_alloc ⟨rfl, flat⟩
  · exact logical rfl
  · exact logical rfl
  · exact logical rfl
  · exact arithmetic rfl
  · exact arithmetic rfl
  · exact arithmetic rfl
  · exact arithmetic rfl
  · exact arithmetic rfl
  · exact makes_print ⟨rfl, flat⟩
  · exact makes_print ⟨rfl, flat⟩
  · exact makes_alloc ⟨rfl, flat⟩
  · exact makes_alloc ⟨rfl, flat⟩
  · exact makes_alloc ⟨rfl, List.Subset.refl _⟩
  · exact makes_get (makes_alloc ⟨rfl, flat⟩)
  · exact compare rfl
  · exact compare rfl
  · exact compare rfl
  · exact compare rfl
  · exact makes_alloc ⟨rfl, List.Subset.refl _⟩
  · exact absurd rfl plain.1
  · exact absurd rfl plain.2.1
  · exact absurd rfl plain.2.2
  · exact makes_expect fun _ => makes_alloc ⟨rfl, flat⟩
  · exact makes_crash

theorem works (f : SystemFunction) (args : List CellId) : f.Works args := by
  cases f with
  | push => exact .push rfl rfl
  | pop =>
    rcases args with _ | ⟨target, _ | ⟨_, _⟩⟩
    · exact .value fun _ => makes_crash
    · exact .pop rfl target rfl rfl
    · exact .value fun _ => makes_crash
  | index =>
    rcases args with _ | ⟨target, _ | ⟨position, _ | ⟨_, _⟩⟩⟩
    · exact .value fun _ => makes_crash
    · exact .value fun _ => makes_crash
    · exact .index rfl target position rfl rfl
    · exact .value fun _ => makes_crash
  | _ => exact .value fun m => makes_value _ args m (by decide)

end SystemFunction

section Frames

variable {m : Machine}

def Machine.Touched (m n : Machine) : Prop := n = { m with heap := n.heap, console := n.console }

theorem Machine.Touched.trans (m n k : Machine) (first : m.Touched n) (second : n.Touched k) :
    m.Touched k := by
  unfold Machine.Touched at *
  rw [second, first]

theorem Machine.Touched.refl (m : Machine) : m.Touched m := rfl

abbrev Touches {α : Type} (x : Eval α) (m : Machine) : Prop :=
  Keeps Machine.Touched (fun _ _ => True) x m

theorem Makes.touches {good : Datum → Prop} {x : Eval CellId} (makes : Makes good x m) :
    Touches x m := by
  unfold Makes at makes
  unfold Touches Keeps
  split at makes
  · rename_i run
    obtain ⟨d, console, _, _, rfl⟩ := makes
    rw [run]
    exact ⟨rfl, trivial⟩
  · rename_i run
    obtain ⟨console, rfl⟩ := makes
    rw [run]
    exact rfl

theorem touches_alloc (d : Datum) : Touches (alloc d) m := ⟨rfl, trivial⟩

theorem touches_store (c : CellId) (d : Datum) : Touches (store c d) m := ⟨rfl, trivial⟩

theorem touches_copied (d : Datum) : Touches (do alloc (← copy d)) m := ⟨rfl, trivial⟩

theorem touches_stored (c v : CellId) : Touches (do store c (← copy (← contents v))) m :=
  ⟨rfl, trivial⟩

theorem touches_expect {α : Type} (read : Datum → Option α) (wanted : Shape) (c : CellId) :
    Touches (expect read wanted c) m :=
  keeps_expect _ (.refl m) fun _ _ => trivial

theorem touches_detached (target c : CellId) : Touches (SystemFunction.detached target c) m := by
  apply keeps_get
  split
  · exact keeps_contents (touches_copied _)
  · exact keeps_pure (.refl m) trivial

theorem touches_push (args : List CellId) : Touches (SystemFunction.runPush args) m := by
  cases args with
  | nil => exact keeps_fail (.refl m)
  | cons target rest =>
    apply Keeps.bind Machine.Touched.trans (touches_expect _ _ target)
    intro elements n _ _
    have added : Keeps Machine.Touched (fun added _ => ∀ c ∈ added, True)
        (rest.mapM (SystemFunction.detached target)) n :=
      keeps_mapM Machine.Touched.trans (fun _ _ => True) (.refl n) (fun _ _ _ _ _ => trivial)
        (fun _ k _ => .refl k) fun c _ k _ => touches_detached target c
    apply Keeps.bind Machine.Touched.trans added
    intro added k _ _
    apply Keeps.bind Machine.Touched.trans (touches_store target (.list (elements ++ added)))
    intro _ j _ _
    exact touches_alloc .unit

theorem touches_pop (target : CellId) : Touches (SystemFunction.runPop target) m := by
  apply Keeps.bind Machine.Touched.trans (touches_expect _ _ target)
  intro elements n _ _
  split
  · apply Keeps.bind Machine.Touched.trans (touches_store target (.list elements.dropLast))
    intro _ k _ _
    exact keeps_pure (.refl k) trivial
  · exact keeps_fail (.refl n)

theorem touches_index (target position : CellId) :
    Touches (SystemFunction.runIndex target position) m := by
  apply Keeps.bind Machine.Touched.trans (touches_expect _ _ target)
  intro elements n _ _
  apply Keeps.bind Machine.Touched.trans (touches_expect _ _ position)
  intro value k _ _
  split
  · exact keeps_fail (.refl k)
  · exact keeps_need _ (.refl k) fun _ _ => trivial

theorem touches_system (f : SystemFunction) (args : List CellId) : Touches (f.run args) m := by
  cases f.works args with
  | value makes => exact (makes m).touches
  | push _ run => rw [run]; exact touches_push args
  | pop _ target _ run => rw [run]; exact touches_pop target
  | index _ target position _ run => rw [run]; exact touches_index target position

abbrev Machine.Registers (m n : Machine) : Prop := m.registry.Extends n.registry

theorem Touches.registers {α : Type} {x : Eval α} (touches : Touches x m) :
    Keeps Machine.Registers (fun _ _ => True) x m := by
  apply touches.looser
  intro n touched
  rw [Machine.Touched] at touched
  rw [Machine.Registers, touched]
  exact .refl _

def registration : Discipline where
  sound _ := True
  moved := Machine.Registers
  cell _ _ := True
  literal _ _ := True
  function _ _ := True
  still m _ := .refl m.registry
  trans _ _ _ first second := first.trans second
  sound_after _ _ _ := trivial
  cell_after _ _ _ _ _ := trivial
  literal_after _ _ _ _ _ := trivial
  function_after _ _ _ _ _ := trivial
  cell_scope _ _ _ _ := trivial
  bound _ _ _ _ _ := trivial
  returned _ _ _ _ _ _ := trivial
  candidate _ _ _ _ _ := trivial
  record m _ _ := .refl m.registry
  spend m _ _ := .refl m.registry
  unit _ _ := (touches_alloc .unit).registers
  copied _ d _ _ := (touches_copied d).registers
  bind m _ _ _ _ := .refl m.registry
  assign m _ _ _ _ _ := ⟨.refl m.registry, trivial⟩
  define m _ _ _ _ _ := .add m.registry _
  system _ f args _ _ := (touches_system f args).registers
  enter _ _ _ _ _ _ := ⟨trivial, fun inv _ => Argument.everyOf_of_all (fun _ => trivial) inv.args⟩
  leave _ _ _ _ grows := grows

end Frames

section Results

variable {m n : Machine} {c : CellId} {t : Shape}

abbrev GivesUnit (x : Eval CellId) (m : Machine) : Prop :=
  Keeps (fun _ _ => True) (fun c n => n.heap.get c = .unit) x m

theorem givesUnit_unit : GivesUnit Eval.unit m := ⟨trivial, Heap.get_alloc_self m.heap .unit⟩

theorem givesUnit_bind {α : Type} {x : Eval α} {f : α → Eval CellId}
    (rest : ∀ a n, GivesUnit (f a) n) :
    GivesUnit (x >>= f) m :=
  Keeps.bind (fun _ _ _ _ _ => trivial) (keeps_any x m) fun a n _ _ => rest a n

theorem givesUnit_push (args : List CellId) : GivesUnit (SystemFunction.runPush args) m := by
  cases args with
  | nil => exact keeps_fail trivial
  | cons target rest =>
    apply givesUnit_bind
    intro elements n
    apply givesUnit_bind
    intro added k
    apply givesUnit_bind
    intro _ j
    exact givesUnit_unit

theorem givesUnit_bindName (args : List Prepared) : GivesUnit (ContextFunction.runBind args) m := by
  unfold ContextFunction.runBind
  split
  · split
    · apply givesUnit_bind
      intro c n
      apply givesUnit_bind
      intro _ k
      exact givesUnit_unit
    · exact keeps_get (keeps_fail trivial)
  · exact keeps_throw trivial

theorem givesUnit_assign (args : List Prepared) : GivesUnit (ContextFunction.runAssign args) m := by
  unfold ContextFunction.runAssign
  split
  · split
    · apply givesUnit_bind
      intro target n
      apply givesUnit_bind
      intro value k
      apply givesUnit_bind
      intro held j
      apply givesUnit_bind
      intro copied i
      apply givesUnit_bind
      intro _ l
      exact givesUnit_unit
    · exact keeps_get (keeps_fail trivial)
  · exact keeps_throw trivial

theorem givesUnit_define (args : List Prepared) : GivesUnit (ContextFunction.runDefine args) m := by
  unfold ContextFunction.runDefine
  split
  · apply givesUnit_bind
    intro _ n
    apply givesUnit_bind
    intro _ k
    exact givesUnit_unit
  · exact keeps_get (keeps_fail trivial)

theorem GivesUnit.shape {x : Eval CellId} (gives : GivesUnit x m) (run : x m = .ok c n) :
    (n.heap.get c).shape = .unit := by
  unfold GivesUnit Keeps at gives
  rw [run] at gives
  rw [gives.2]
  rfl

theorem system_result {f : SystemFunction} {args : List CellId} (declared : f.returns = .shape t)
    (run : f.run args m = .ok c n) : (n.heap.get c).shape = t := by
  cases f.works args with
  | value makes =>
    have made := makes m
    unfold Makes at made
    rw [run] at made
    obtain ⟨d, console, ⟨promised, _⟩, rfl, rfl⟩ := made
    rw [declared] at promised
    cases promised
    rw [Heap.get_alloc_self]
  | push name pushed =>
    subst name
    cases declared
    rw [pushed] at run
    exact (givesUnit_push args).shape run
  | pop name =>
    subst name
    cases declared
  | index name =>
    subst name
    cases declared

theorem context_result {f : ContextFunction} {eval : Argument → Eval CellId} {fuel : Nat}
    {args : List Prepared} (declared : f.signature.returns = .shape t)
    (run : f.run eval fuel args m = .ok c n) :
    (n.heap.get c).shape = t := by
  cases f with
  | bindName =>
    cases declared
    exact (givesUnit_bindName args).shape run
  | assign =>
    cases declared
    exact (givesUnit_assign args).shape run
  | define =>
    cases declared
    exact (givesUnit_define args).shape run
  | conditional => cases declared
  | loop => cases declared

/-- A call that goes to a built-in function gives what the function declares. -/
theorem builtin_result {f : Function} {eval : Invocation → Eval CellId} {fuel : Nat}
    {args : List Pending} (builtin : ∀ d, f ≠ .defined d)
    (declared : f.signature.returns = .shape t) (run : dispatch eval fuel f args m = .ok c n) :
    (n.heap.get c).shape = t := by
  cases f with
  | defined d => exact absurd rfl (builtin d)
  | system s =>
    cases given : evalRemaining (evalArgument eval) args m with
    | ok cells k =>
      rw [dispatch, bind_ok given] at run
      exact system_result declared run
    | error e k =>
      rw [dispatch, bind_error given] at run
      cases run
  | context s =>
    cases given : prepare (evalArgument eval) s.signature 0 args m with
    | ok cells k =>
      rw [dispatch, bind_ok given] at run
      exact context_result declared run
    | error e k =>
      rw [dispatch, bind_error given] at run
      cases run

end Results

end CallScript
