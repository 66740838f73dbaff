import CallScript.Proofs.Run.Limits
import CallScript.Proofs.Run.OwnLets

/- What the code of a built-in function changes, once its arguments have been evaluated. It first
   looks at what it was given, and may fail while it does; what it changes comes after that, and
   cannot fail. So a call that fails has changed nothing, but for the line that `stdin` lost; and
   one that succeeds has made new cells and done one thing beside. -/
namespace CallScript

open Eval

namespace Heap

structure ExtendsBut (target : Option CellId) (h g : Heap) : Prop where
  size_le : h.size ≤ g.size
  get_eq : ∀ c < h.size, target ≠ some c → g.get c = h.get c

variable {h g k : Heap}

theorem Extends.but (grown : h.Extends g) (target : Option CellId) : h.ExtendsBut target g :=
  ⟨grown.size_le, fun c old _ => grown.get_eq c old⟩

theorem Extends.stored (grown : h.Extends g) (target : CellId) (d : Datum) :
    h.ExtendsBut (some target) (g.set target d) := by
  refine ⟨by simpa using grown.size_le, ?_⟩
  intro c old other
  rw [get_set_ne g d fun same => other (congrArg some same)]
  exact grown.get_eq c old

theorem ExtendsBut.extends {target : Option CellId} (first : h.ExtendsBut target g)
    (second : g.Extends k) :
    h.ExtendsBut target k := by
  refine ⟨Nat.le_trans first.size_le second.size_le, ?_⟩
  intro c old other
  rw [second.get_eq c (Nat.lt_of_lt_of_le old first.size_le), first.get_eq c old other]

theorem copyCells_extends {copy : Datum → Heap → Datum × Heap}
    (one : ∀ (d : Datum) (h : Heap), h.Extends (copy d h).2) (cells : List CellId) (h : Heap) :
    h.Extends (copyCells copy cells h).2 := by
  induction cells generalizing h with
  | nil => exact .refl h
  | cons c rest ih => exact ((one (h.get c) h).trans (extends_alloc _ _)).trans (ih _)

theorem copyWithin_extends (budget : Nat) (d : Datum) (h : Heap) :
    h.Extends (copyWithin budget d h).2 := by
  induction budget generalizing d h with
  | zero => exact .refl h
  | succ budget ih =>
    cases d with
    | list elements => exact copyCells_extends ih elements h
    | _ => exact .refl h

theorem copy_extends (h : Heap) (d : Datum) : h.Extends (h.copy d).2 :=
  copyWithin_extends (h.size + 1) d h

end Heap

namespace Duplication

theorem cells_extends {copy : CellId → Duplication → CellId × Duplication}
    (one : ∀ (c : CellId) (s : Duplication), s.heap.Extends (copy c s).2.heap) (list : List CellId)
    (s : Duplication) :
    s.heap.Extends (cells copy list s).2.heap := by
  induction list generalizing s with
  | nil => exact .refl s.heap
  | cons c rest ih => exact (one c s).trans (ih (copy c s).2)

theorem filled_extends {s t : Duplication} {c : CellId}
    (later : (reserve c s).2.heap.Extends t.heap) (d : Datum) :
    s.heap.Extends (t.heap.set (reserve c s).1 d) := by
  have reserved : s.heap.Extends (reserve c s).2.heap := Heap.extends_alloc s.heap .unit
  have grown := reserved.trans later
  refine ⟨by simpa using grown.size_le, ?_⟩
  intro e old
  have other : (reserve c s).1 ≠ e := Nat.ne_of_gt old
  rw [Heap.get_set_ne _ _ other]
  exact grown.get_eq e old

theorem cell_extends (budget : Nat) (c : CellId) (s : Duplication) :
    s.heap.Extends (cell budget c s).2.heap := by
  induction budget generalizing c s with
  | zero => exact .refl s.heap
  | succ budget ih =>
    simp only [cell]
    split
    · exact .refl s.heap
    · split
      · rename_i elements _
        exact filled_extends (cells_extends ih elements (reserve c s).2) _
      · exact filled_extends (.refl _) _

end Duplication

theorem Scope.snapshot_extends (s : Scope) (h : Heap) : h.Extends (s.snapshot h).2 :=
  Duplication.cells_extends (Duplication.cell_extends (h.size + 1)) (s.bindings.map Prod.snd)
    ⟨h, []⟩

namespace Console

/-- A line is taken from the front of the input; one that a broken input cuts off is lost with the
rest. -/
theorem readLine_cases (c : Console) :
    (∃ line rest, c.input = line ++ rest ∧ c.readLine = (some line, { c with input := rest })) ∨
      c.readLine = (none, { c with input := [] }) := by
  have whole :=
    List.takeWhile_append_dropWhile (p := fun b => decide (b ≠ Bytes.newline)) (l := c.input)
  unfold readLine
  cases left : c.input.dropWhile (fun b => decide (b ≠ Bytes.newline)) with
  | nil =>
    rw [left, List.append_nil] at whole
    cases c.inputBreaks with
    | false => exact Or.inl ⟨c.input, [], by simp, rfl⟩
    | true => exact Or.inr rfl
  | cons first rest =>
    have newline : first = Bytes.newline := by
      have head := List.head?_dropWhile_not (fun b => decide (b ≠ Bytes.newline)) c.input
      rw [left] at head
      simpa using head
    rw [left, newline] at whole
    refine Or.inl ⟨_, rest, ?_, rfl⟩
    rw [List.append_assoc]
    exact whole.symm

theorem input_write? {c d : Console} {text : Bytes} (written : c.write? text = some d) :
    d.input = c.input := by
  unfold write? at written
  dsimp only at written
  split at written
  · cases written
  · cases written
    rfl

end Console

section Looking

variable {α β : Type} {m : Machine} {effect : Machine → Prop}

abbrev Looks (x : Eval α) (m : Machine) : Prop := Keeps (fun m n => n = m) (fun _ _ => True) x m

/-- The computation leaves the machine as it is if it fails, and changes it as told if it does
not. -/
def Atomic (effect : Machine → Prop) (x : Eval α) (m : Machine) : Prop :=
  match x m with
  | .ok _ n => effect n
  | .error _ n => n = m

theorem looks_expect (read : Datum → Option α) (wanted : Shape) (c : CellId) :
    Looks (expect read wanted c) m :=
  keeps_expect _ rfl fun _ _ => trivial

theorem looks_expectAll (read : Datum → Option α) (wanted : Shape) (cells : List CellId) :
    Looks (cells.mapM (expect read wanted)) m := by
  have all : Keeps (fun m n => n = m) (fun list _ => ∀ a ∈ list, True)
      (cells.mapM (expect read wanted)) m :=
    keeps_mapM (fun _ _ _ first second => second.trans first) (fun _ _ => True)
      rfl (fun _ _ _ _ _ => trivial) (fun _ _ _ => rfl) fun c _ _ _ => looks_expect read wanted c
  exact all.imp fun _ _ _ _ => trivial

theorem looks_need (o : Option α) : Looks (need o) m := keeps_need _ rfl fun _ _ => trivial

theorem Looks.atomic {x : Eval α} {f : α → Eval β} (looks : Looks x m)
    (rest : ∀ a, Atomic effect (f a) m) :
    Atomic effect (x >>= f) m := by
  unfold Atomic
  unfold Looks Keeps at looks
  cases run : x m with
  | ok a n =>
    rw [run] at looks
    obtain ⟨rfl, -⟩ := looks
    rw [bind_ok run]
    exact rest a
  | error e n =>
    rw [run] at looks
    rw [bind_error run]
    exact looks

theorem atomic_fail {fault : Fault} : Atomic effect (fail fault : Eval α) m := rfl

theorem atomic_crash : Atomic effect (throw .crashed : Eval α) m := rfl

theorem atomic_get {f : Machine → Eval α} (rest : Atomic effect (f m) m) :
    Atomic effect (get >>= f) m := rest

theorem atomic_of_ok {x : Eval α} {a : α} {n : Machine} (run : x m = .ok a n) (done : effect n) :
    Atomic effect x m := by
  unfold Atomic
  rw [run]
  exact done

end Looking

namespace Arrival

def Direct : Arrival → Prop
  | .system _ _ => True
  | .context f _ => f = .bindName ∨ f = .assign ∨ f = .define
  | .defined _ _ => False

/-- The cell that a call may change: the list of `push` and `pop`, and the variable of `=`. -/
def target? (m : Machine) : Arrival → Option CellId
  | .system .push (c :: _) => some c
  | .system .pop (c :: _) => some c
  | .context .assign (target :: _) => target.raw.ident?.bind m.scope.find?
  | _ => none

def bound? : Arrival → Option Name
  | .context .bindName (target :: _) => target.raw.ident?
  | _ => none

structure Effect (a : Arrival) (m n : Machine) : Prop where
  heap : m.heap.ExtendsBut (a.target? m) n.heap
  scope : a.bound? = none → n.scope = m.scope
  names : ∀ x, a.bound? ≠ some x → n.scope.find? x = m.scope.find? x
  registry : n.registry = m.registry ∨
    a.function = .context .define ∧ ∃ d, n.registry = m.registry.add (.defined d)
  input : n.console.input = m.console.input ∨
    a.function = .system .readLine ∧ ∃ line, m.console.input = line ++ n.console.input
  output : n.console.output = m.console.output ∨
    (a.function = .system .print ∨ a.function = .system .printLine) ∧
      ∃ text, n.console.output = m.console.output ++ text
  patience : n.patience = m.patience
  log : n.log = m.log ∨ a.function = .context .define

/-- A call ends with its effect, or fails and has changed nothing; but a line that cannot be read is
lost. -/
def Clean (a : Arrival) (m : Machine) : EStateM.Result Stop Machine CellId → Prop
  | .ok _ n => a.Effect m n
  | .error _ n => n = m ∨
    a.function = .system .readLine ∧ n = { m with console := { m.console with input := [] } }

variable {a : Arrival} {m : Machine}

theorem effect_heap {heap : Heap} (changed : m.heap.ExtendsBut (a.target? m) heap) :
    a.Effect m { m with heap } :=
  ⟨changed, fun _ => rfl, fun _ _ => rfl, Or.inl rfl, Or.inl rfl, Or.inl rfl, rfl, Or.inl rfl⟩

theorem effect_none : a.Effect m m := effect_heap ((Heap.Extends.refl m.heap).but _)

theorem atomic_alloc (d : Datum) : Atomic (a.Effect m) (alloc d) m :=
  atomic_of_ok rfl (effect_heap ((Heap.extends_alloc m.heap d).but _))

end Arrival

variable {a : Arrival} {m : Machine}

theorem Atomic.clean {x : Eval CellId} (atomic : Atomic (a.Effect m) x m) : a.Clean m (x m) := by
  unfold Atomic at atomic
  cases run : x m with
  | ok c n =>
    rw [run] at atomic
    exact atomic
  | error e n =>
    rw [run] at atomic
    exact Or.inl atomic

namespace SystemFunction

open Arrival

theorem clean_readLine (args : List CellId) :
    (Arrival.system .readLine args).Clean m (runReadLine m) := by
  have run :
      (modifyGet fun m => (m.console.readLine.1, { m with console := m.console.readLine.2 }) :
      Eval (Option Bytes)) m =
        .ok m.console.readLine.1 { m with console := m.console.readLine.2 } := rfl
  unfold runReadLine
  rw [bind_ok run]
  rcases m.console.readLine_cases with ⟨line, rest, whole, read⟩ | read
  · rw [read]
    refine ⟨(Heap.extends_alloc m.heap _).but _, fun _ => rfl, fun _ _ => rfl, Or.inl rfl, ?_,
      Or.inl rfl, rfl, Or.inl rfl⟩
    exact Or.inr ⟨rfl, line, whole⟩
  · rw [read]
    exact Or.inr ⟨rfl, rfl⟩

theorem atomic_parseNumber (c : CellId) : Atomic (a.Effect m) (runParseNumber c) m := by
  apply (looks_expect _ _ c).atomic
  intro text
  split
  · exact atomic_alloc _
  · exact atomic_fail

theorem atomic_logical (decide : Nat → Nat → Bool) (args : List CellId) :
    Atomic (a.Effect m) (runLogical decide args) m :=
  (looks_expectAll _ _ args).atomic fun _ => atomic_alloc _

theorem atomic_arithmetic (name : Name) (op : Number → Number → Number) (args : List CellId) :
    Atomic (a.Effect m) (runArithmetic name op args) m := by
  cases args with
  | nil => exact atomic_fail
  | cons first rest =>
    exact (looks_expect _ _ first).atomic fun _ => (looks_expectAll _ _ rest).atomic fun _ =>
      atomic_alloc _

theorem atomic_compare (op : Number → Number → Bool) (x y : CellId) :
    Atomic (a.Effect m) (runCompare op x y) m :=
  (looks_expect _ _ x).atomic fun _ => (looks_expect _ _ y).atomic fun _ => atomic_alloc _

theorem atomic_print (prints : a.function = .system .print ∨ a.function = .system .printLine)
    (ending : Bytes) (args : List CellId) : Atomic (a.Effect m) (runPrint ending args) m := by
  apply atomic_get
  dsimp only
  split
  · rename_i console written
    refine atomic_of_ok rfl ?_
    refine ⟨(Heap.extends_alloc m.heap .unit).but _, fun _ => rfl, fun _ _ => rfl, Or.inl rfl,
      Or.inl (Console.input_write? written), ?_, rfl, Or.inl rfl⟩
    exact Or.inr ⟨prints, _, Console.output_write? written⟩
  · exact atomic_fail

theorem detached_runs (target c : CellId) (m : Machine) :
    ∃ e heap, detached target c m = .ok e { m with heap } ∧ m.heap.Extends heap := by
  by_cases holds : m.heap.reaches c target = true
  · have run : detached target c m = (do alloc (← Eval.copy (← contents c))) m := by
      show (if m.heap.reaches c target then _ else _ : Eval CellId) m = _
      rw [if_pos holds]
    exact ⟨_, _, run, (m.heap.copy_extends _).trans (Heap.extends_alloc _ _)⟩
  · have run : detached target c m = .ok c m := by
      show (if m.heap.reaches c target then _ else _ : Eval CellId) m = _
      rw [if_neg holds]
      rfl
    exact ⟨c, m.heap, run, .refl m.heap⟩

theorem detachedAll_runs (target : CellId) (args : List CellId) (m : Machine) :
    ∃ added heap, args.mapM (detached target) m = .ok added { m with heap } ∧
      m.heap.Extends heap := by
  induction args generalizing m with
  | nil => exact ⟨[], m.heap, rfl, .refl m.heap⟩
  | cons c rest ih =>
    obtain ⟨e, heap, first, grown⟩ := detached_runs target c m
    obtain ⟨added, heap', others, grown'⟩ := ih { m with heap }
    refine ⟨e :: added, heap', ?_, grown.trans grown'⟩
    rw [List.mapM_cons, bind_ok first, bind_ok others]
    rfl

theorem atomic_push (args : List CellId) :
    Atomic ((Arrival.system .push args).Effect m) (runPush args) m := by
  cases args with
  | nil => exact atomic_fail
  | cons target rest =>
    apply (looks_expect _ _ target).atomic
    intro elements
    obtain ⟨added, heap, run, grown⟩ := detachedAll_runs target rest m
    refine atomic_of_ok ((bind_ok run _).trans rfl) ?_
    exact effect_heap ((grown.stored target _).extends (Heap.extends_alloc _ _))

theorem atomic_pop (target : CellId) :
    Atomic ((Arrival.system .pop [target]).Effect m) (runPop target) m := by
  apply (looks_expect _ _ target).atomic
  intro elements
  split
  · refine atomic_of_ok rfl ?_
    exact effect_heap ((Heap.Extends.refl m.heap).stored target _)
  · exact atomic_fail

theorem atomic_index (target index : CellId) : Atomic (a.Effect m) (runIndex target index) m := by
  apply (looks_expect _ _ target).atomic
  intro elements
  apply (looks_expect _ _ index).atomic
  intro n
  split
  · exact atomic_fail
  · cases elements[n.floor]? with
    | none => exact atomic_crash
    | some c => exact atomic_of_ok rfl effect_none

theorem clean_run (f : SystemFunction) (args : List CellId) :
    (Arrival.system f args).Clean m (f.run args m) := by
  unfold run
  split
  · exact clean_readLine args
  · exact (atomic_parseNumber _).clean
  · exact ((looks_expect _ _ _).atomic fun _ => atomic_alloc _).clean
  · exact ((looks_expect _ _ _).atomic fun _ => atomic_alloc _).clean
  · exact (atomic_logical _ _).clean
  · exact (atomic_logical _ _).clean
  · exact (atomic_logical _ _).clean
  · exact (atomic_arithmetic _ _ _).clean
  · exact (atomic_arithmetic _ _ _).clean
  · exact (atomic_arithmetic _ _ _).clean
  · exact (atomic_arithmetic _ _ _).clean
  · exact (atomic_arithmetic _ _ _).clean
  · exact (atomic_print (Or.inr rfl) _ _).clean
  · exact (atomic_print (Or.inl rfl) _ _).clean
  · exact (atomic_alloc _).clean
  · exact (atomic_alloc _).clean
  · exact (atomic_alloc _).clean
  · exact (atomic_get (atomic_alloc _)).clean
  · exact (atomic_compare _ _ _).clean
  · exact (atomic_compare _ _ _).clean
  · exact (atomic_compare _ _ _).clean
  · exact (atomic_compare _ _ _).clean
  · exact (atomic_alloc _).clean
  · exact (atomic_push _).clean
  · exact (atomic_pop _).clean
  · exact (atomic_index _ _).clean
  · exact ((looks_expect _ _ _).atomic fun _ => atomic_alloc _).clean
  · exact atomic_crash.clean

end SystemFunction

namespace ContextFunction

open Arrival

theorem atomic_runBind (args : List Prepared) :
    Atomic ((Arrival.context .bindName args).Effect m) (runBind args) m := by
  unfold runBind
  split
  · rename_i target value
    split
    · rename_i name named
      apply (looks_need _).atomic
      intro c
      refine atomic_of_ok rfl ?_
      refine ⟨(Heap.extends_alloc m.heap .unit).but _, ?_, ?_, Or.inl rfl, Or.inl rfl, Or.inl rfl,
        rfl, Or.inl rfl⟩
      · intro unbound
        rw [bound?, named] at unbound
        cases unbound
      · intro x other
        rw [bound?, named] at other
        show (m.scope.bind name c).find? x = m.scope.find? x
        rw [Scope.find?_bind, if_neg fun same => other (congrArg some same.symm)]
    · exact atomic_get atomic_fail
  · exact atomic_crash

theorem atomic_runAssign (args : List Prepared) :
    Atomic ((Arrival.context .assign args).Effect m) (runAssign args) m := by
  unfold runAssign
  split
  · rename_i target value
    split
    · rename_i name named
      cases found : m.scope.find? name with
      | none =>
        unfold Atomic
        rw [bind_error (lookup_missing found)]
      | some c =>
        have changes : (Arrival.context .assign [target, value]).target? m = some c := by
          rw [target?, named]
          exact found
        unfold Atomic
        rw [bind_ok (lookup_found found)]
        show Atomic _ _ m
        apply (looks_need _).atomic
        intro v
        refine atomic_of_ok rfl ?_
        apply effect_heap
        rw [changes]
        exact ((m.heap.copy_extends _).stored c _).extends (Heap.extends_alloc _ _)
    · exact atomic_get atomic_fail
  · exact atomic_crash

theorem atomic_runDefine (args : List Prepared) :
    Atomic ((Arrival.context .define args).Effect m) (runDefine args) m := by
  unfold runDefine
  split
  · rename_i outline _
    refine atomic_of_ok rfl ?_
    refine ⟨((m.scope.snapshot_extends m.heap).trans (Heap.extends_alloc _ .unit)).but _,
      fun _ => rfl, fun _ _ => rfl, ?_, Or.inl rfl, Or.inl rfl, rfl, Or.inr rfl⟩
    exact Or.inr ⟨rfl, outline.close (m.scope.snapshot m.heap).1, rfl⟩
  · exact atomic_get atomic_fail

end ContextFunction

namespace Arrival

theorem Direct.clean {a : Arrival} (direct : a.Direct) (eval : Invocation → Eval CellId)
    (fuel : Nat) (m : Machine) :
    a.Clean m (a.run eval fuel m) := by
  cases a with
  | system f args => exact f.clean_run args
  | context f args =>
    rcases direct with rfl | rfl | rfl
    · exact (ContextFunction.atomic_runBind args).clean
    · exact (ContextFunction.atomic_runAssign args).clean
    · exact (ContextFunction.atomic_runDefine args).clean
  | defined f args => cases direct

theorem Clean.inCall {x : Eval CellId} (clean : a.Clean m (x m)) (inv : Invocation) :
    a.Clean m (inCall inv x m) := by
  unfold Eval.inCall
  cases run : x m with
  | ok c n => simpa [run] using clean
  | error e n =>
    rw [run] at clean
    cases e with
    | failed f => exact clean
    | crashed => exact clean
    | outOfFuel => exact clean

end Arrival

/-- The rest of an evaluation, from where the call has arrived. -/
theorem evaluate_arrived {settings : Settings} {fuel depth : Nat} {inv : Invocation} {m k : Machine}
    (shallow : ∀ limit, settings.depthLimit = some limit → depth < limit)
    (arrived : arrive settings (evaluate settings fuel (depth + 1)) (depth + 1) inv m = .ok a k) :
    evaluate settings (fuel + 1) depth inv m =
      inCall inv (a.run (evaluate settings fuel (depth + 1)) fuel) k := by
  have below : ∀ x, withinDepth settings depth x = x := by
    intro x
    unfold withinDepth
    split
    · rename_i limit limited
      rw [if_neg (Nat.not_le.mpr (shallow limit limited))]
    · rfl
  rw [evaluate_eq, below]
  unfold Eval.inCall
  rw [bind_ok arrived]

/-- The code of a system function, of `let`, of `=` and of `fn` either fails and has changed
nothing, but for a line that `stdin` could not read; or it makes new cells, and changes beside them
the cell that it names, or the binding that it names, adds one function, takes a line from the input
or writes to the output. It does so on any arguments and in any state, and so does the evaluation of
a call from where its arguments have been evaluated. -/
theorem builtin_all_or_nothing {a : Arrival} (direct : a.Direct) :
    (∀ eval fuel m, a.Clean m (a.run eval fuel m)) ∧
    ∀ settings fuel depth inv m k, (∀ limit, settings.depthLimit = some limit → depth < limit) →
      arrive settings (evaluate settings fuel (depth + 1)) (depth + 1) inv m = .ok a k →
      a.Clean k (evaluate settings (fuel + 1) depth inv m) := by
  refine ⟨direct.clean, ?_⟩
  intro settings fuel depth inv m k shallow arrived
  rw [evaluate_arrived shallow arrived]
  exact (direct.clean _ fuel k).inCall inv

/-- `=(missing, list(println("x")))` -/
def assignMissing : Invocation :=
  ⟨utf8 "=", [.ident (utf8 "missing"),
    .call (utf8 "list") [.call (utf8 "println") [.literal (.string (utf8 "x"))]]]⟩

theorem builtin_all_or_nothing_missing :
    let m := Machine.initial (.ofInput [])
    let settings : Settings := ⟨none, false⟩
    ∃ a k e, arrive settings (evaluate settings 3 1) 1 assignMissing m = .ok a k ∧ a.Direct ∧
      k.console.output = utf8 "x\n" ∧ evaluate settings 4 0 assignMissing m = .error e k := by
  intro m settings
  have arrives :
      yields (fun a k => decide (a.function = .context .assign) &&
        decide (k.console.output = utf8 "x\n"))
      (arrive settings (evaluate settings 3 1) 1 assignMissing) m = true := by decide +kernel
  obtain ⟨a, k, arrived, shown⟩ := ok_of_yields arrives
  simp only [Bool.and_eq_true, decide_eq_true_eq] at shown
  obtain ⟨assigns, printed⟩ := shown
  have direct : a.Direct := by
    cases a with
    | context f args =>
      cases assigns
      exact Or.inr (Or.inl rfl)
    | system f args => cases assigns
    | defined f args => cases assigns
  obtain ⟨-, evaluated⟩ := builtin_all_or_nothing direct
  have clean := evaluated settings 3 0 assignMissing m k (by simp [settings]) arrived
  have fails : yields (fun _ _ => true) (evaluate settings 4 0 assignMissing) m = false := by
    decide +kernel
  cases run : evaluate settings 4 0 assignMissing m with
  | ok c n =>
    rw [yields, run] at fails
    cases fails
  | error e n =>
    rw [run] at clean
    rcases clean with rfl | ⟨reads, -⟩
    · exact ⟨a, n, e, arrived, direct, printed, rfl⟩
    · rw [assigns] at reads
      cases reads

end CallScript
