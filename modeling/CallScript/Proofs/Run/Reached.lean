import CallScript.Proofs.Run.Soundness
import CallScript.Run.Interpreter

/- The machines that programs reach. A host makes an interpreter and gives it one program or
   invocation after another; a machine is reached when it is that of such an interpreter, or one
   that a program or an invocation passes through. Since all of them are sound, no list ever
   contains itself. -/
namespace CallScript

open Eval

namespace Interpreter

/-- Runs statements with any evaluator of invocations. -/
def statementsBy (eval : Invocation → Eval CellId) : Nat → Program → Eval Unit
  | _, [] => return ()
  | number, inv :: rest => do
    checkPatience
    let _ ← inStatement number (eval inv)
    statementsBy eval (number + 1) rest

def programBy (eval : Invocation → Eval CellId) (p : Program) : Eval Unit := do
  record (.executing p.length)
  statementsBy eval 1 p

def singleBy (eval : Invocation → Eval CellId) (inv : Invocation) : Eval CellId := do
  checkPatience
  eval inv

theorem statements_eq (settings : Settings) (fuel number : Nat) (p : Program) :
    statements settings fuel number p =
      statementsBy (CallScript.evaluate settings fuel 0) number p := by
  induction p generalizing number with
  | nil => rfl
  | cons inv rest ih => simp only [statements, statementsBy, ih]

theorem program_eq (settings : Settings) (fuel : Nat) (p : Program) :
    program settings fuel p = programBy (CallScript.evaluate settings fuel 0) p := by
  simp only [program, programBy, statements_eq]

/-- The interpreters of a host, whose programs have only finite literals: what a literal refers to
are cells that the interpreter already has. -/
inductive Hosted : Interpreter → Prop where
  | new (maxDepth : Int) (trace : Bool) (console : Console) : Hosted (.new maxDepth trace console)
  | build {i : Interpreter} (hosted : Hosted i) (d : Datum)
      (finite : d.Within i.machine.heap.size) :
    Hosted { i with machine := { i.machine with heap := (i.machine.heap.alloc d).2 } }
  | execute {i : Interpreter} (hosted : Hosted i) (fuel : Nat) (patience : Patience) (p : Program)
    (finite : ∀ inv ∈ p, inv.Every (·.Within i.machine.heap.size)) :
    Hosted (i.execute fuel patience p).2
  | evaluate {i : Interpreter} (hosted : Hosted i) (fuel : Nat) (patience : Patience)
      (inv : Invocation)
    (finite : inv.Every (·.Within i.machine.heap.size)) :
    Hosted (i.evaluate fuel patience inv).2

end Interpreter

/-- The machines of a host's interpreters, between its programs and while they run. -/
inductive Reached : Machine → Prop where
  | between {i : Interpreter} (hosted : i.Hosted) : Reached i.machine
  | executing {i : Interpreter} (hosted : i.Hosted) (halt : Machine → Bool) (fuel : Nat)
    (patience : Patience) (p : Program)
    (finite : ∀ inv ∈ p, inv.Every (·.Within i.machine.heap.size)) :
    Reached (after (Interpreter.programBy (evaluateUntil halt i.settings fuel 0) p)
      { i.machine with patience })
  | evaluating {i : Interpreter} (hosted : i.Hosted) (halt : Machine → Bool) (fuel : Nat)
    (patience : Patience) (inv : Invocation) (finite : inv.Every (·.Within i.machine.heap.size)) :
    Reached (after (Interpreter.singleBy (evaluateUntil halt i.settings fuel 0) inv)
      { i.machine with patience })

namespace Discipline

variable {R : Discipline} {m : Machine} {eval : Invocation → Eval CellId}

theorem keeps_inStatement {α : Type} {good : α → Machine → Prop} {x : Eval α} {number : Nat}
    (keeps : Keeps R.moved good x m) : Keeps R.moved good (Interpreter.inStatement number x) m := by
  unfold Keeps at keeps ⊢
  unfold Interpreter.inStatement
  cases run : x m with
  | ok a n => simpa [run] using keeps
  | error e n =>
    simp only [run] at keeps
    cases e with
    | failed f => exact R.trans _ _ _ keeps (R.record n _ (R.sound_after m n keeps))
    | crashed => exact keeps
    | outOfFuel => exact keeps

theorem keeps_statementsBy (obeyed : R.Obeyed eval) {number : Nat} {p : Program} (sound : R.sound m)
    (every : ∀ inv ∈ p, inv.Every (R.literal m)) :
    Keeps R.moved (fun _ _ => True) (Interpreter.statementsBy eval number p) m := by
  induction p generalizing m number with
  | nil => exact keeps_pure (R.still m sound) trivial
  | cons inv rest ih =>
    apply Keeps.bind R.trans (keeps_checkPatience sound)
    intro _ n move _
    have sound' := R.sound_after m n move
    have first := (every inv List.mem_cons_self).mono fun d ok => R.literal_after m n d move ok
    apply Keeps.bind R.trans (keeps_inStatement (obeyed inv n sound' first))
    intro _ k move' _
    exact ih (R.sound_after n k move') fun other member =>
      (every other (List.mem_cons_of_mem inv member)).mono
        fun d ok => R.literal_after m k d (R.trans _ _ _ move move') ok

theorem keeps_programBy (obeyed : R.Obeyed eval) {p : Program} (sound : R.sound m)
    (every : ∀ inv ∈ p, inv.Every (R.literal m)) :
    Keeps R.moved (fun _ _ => True) (Interpreter.programBy eval p) m := by
  apply Keeps.bind R.trans (keeps_record _ sound)
  intro _ n move _
  exact keeps_statementsBy obeyed (R.sound_after m n move) fun inv member =>
    (every inv member).mono fun d ok => R.literal_after m n d move ok

theorem gives_singleBy (obeyed : R.Obeyed eval) {inv : Invocation} (sound : R.sound m)
    (every : inv.Every (R.literal m)) : R.Gives (Interpreter.singleBy eval inv) m := by
  apply Keeps.bind R.trans (keeps_checkPatience sound)
  intro _ n move _
  exact obeyed inv n (R.sound_after m n move) (every.mono fun d ok => R.literal_after m n d move ok)

end Discipline

namespace Scope

theorem foldl_alloc_sound {list : List (Name × Datum)} (flat : ∀ p ∈ list, p.2.cells = [])
    {s : Scope} {h : Heap} (heap : h.Sound) (inside : s.Within h.size) :
    let out := list.foldl (fun (s, h) (name, d) => (s.bind name (Heap.alloc h d).1, (h.alloc d).2))
      (s, h)
    out.2.Sound ∧ out.1.Within out.2.size := by
  induction list generalizing s h with
  | nil => exact ⟨heap, inside⟩
  | cons first rest ih =>
    have ok : first.2.Within h.size := by simp [Datum.Within, flat first List.mem_cons_self]
    apply ih (fun p member => flat p (List.mem_cons_of_mem first member)) (heap.alloc ok)
    exact (inside.mono (by simp)).bind first.1 (by simp)

theorem root_sound :
    (Scope.root .empty).2.Sound ∧ (Scope.root .empty).1.Within (Scope.root .empty).2.size := by
  apply foldl_alloc_sound
  · decide +kernel
  · have unranked : Heap.empty.Ranked fun _ => 0 := fun c e holds =>
      absurd (Heap.holds_inside holds) (Nat.not_lt_zero c)
    refine ⟨fun c => ?_, unranked.acyclic⟩
    simp [Heap.get, Heap.empty, Datum.Within, Datum.cells]
  · simp [Scope.Within, Scope.empty]

end Scope

theorem Machine.initial_sound (console : Console) : (Machine.initial console).Sound := by
  obtain ⟨heap, scope⟩ := Scope.root_sound
  refine ⟨heap, scope, .initial, ?_⟩
  intro f member
  have builtin : f ∈ Registry.builtins := by
    rw [← Registry.functions_initial]
    exact Array.mem_toList_iff.mpr member
  simp only [Registry.builtins, List.mem_append, List.mem_map] at builtin
  rcases builtin with ⟨s, _, rfl⟩ | ⟨c, _, rfl⟩
  · trivial
  · trivial

namespace Interpreter

theorem run_machine {α : Type} (i : Interpreter) (patience : Patience) (act : Settings → Eval α) :
    (i.run patience act).2.machine =
      { after (act i.settings) { i.machine with patience } with patience := .endless } := by
  unfold run after
  split
  · rename_i run
    simp only [run]
  · rename_i run
    simp only [run]

end Interpreter

theorem Machine.Sound.withPatience {m : Machine} (sound : m.Sound) (patience : Patience) :
    Sound { m with patience } :=
  (soundness.spend m patience sound).sound

section Running

variable {m : Machine} (sound : m.Sound) {eval : Invocation → Eval CellId}
  (obeyed : soundness.Obeyed eval)
include sound obeyed

theorem sound_after_program (patience : Patience) {p : Program}
    (finite : ∀ inv ∈ p, inv.Every (·.Within m.heap.size)) :
    (after (Interpreter.programBy eval p) { m with patience }).Sound :=
  (Discipline.keeps_programBy obeyed (sound.withPatience patience) finite).move.sound

theorem sound_after_single (patience : Patience) {inv : Invocation}
    (finite : inv.Every (·.Within m.heap.size)) :
    (after (Interpreter.singleBy eval inv) { m with patience }).Sound :=
  (Discipline.gives_singleBy obeyed (sound.withPatience patience) finite).move.sound

end Running

theorem Interpreter.Hosted.sound {i : Interpreter} (hosted : i.Hosted) : i.machine.Sound := by
  induction hosted with
  | new maxDepth trace console => exact Machine.initial_sound console
  | build _ d finite ih => exact ih.withHeap (ih.heap.alloc finite) (by simp)
  | @execute i _ fuel patience p finite ih =>
    have ran :=
      sound_after_program ih (Discipline.obeyed_evaluate i.settings fuel 0) patience finite
    rw [← program_eq] at ran
    rw [Interpreter.execute, run_machine]
    exact ran.withPatience .endless
  | @evaluate i _ fuel patience inv finite ih =>
    rw [Interpreter.evaluate, run_machine]
    exact (sound_after_single ih (Discipline.obeyed_evaluate i.settings fuel 0) patience
      finite).withPatience .endless

theorem Reached.sound {m : Machine} (reached : Reached m) : m.Sound := by
  cases reached with
  | between hosted => exact hosted.sound
  | executing hosted halt fuel patience p finite =>
    exact sound_after_program hosted.sound (Discipline.obeyed_evaluateUntil halt _ fuel 0)
      patience finite
  | evaluating hosted halt fuel patience inv finite =>
    exact sound_after_single hosted.sound (Discipline.obeyed_evaluateUntil halt _ fuel 0)
      patience finite

/-- No list contains itself, at any point of any run. So printing, comparing and copying come to an
end on every value that refers to cells of the machine, and every cell holds such a value. -/
theorem no_list_contains_itself {m : Machine} (reached : Reached m) :
    m.heap.Acyclic ∧ (∀ c, (m.heap.get c).Within m.heap.size) ∧
      ∀ d : Datum, d.Within m.heap.size →
        m.heap.Renders d (m.heap.render d) ∧ (∀ e, m.heap.Compares d e (m.heap.equal d e)) ∧
          Heap.Copies d m.heap (m.heap.copy d).1 (m.heap.copy d).2 := by
  have sound := reached.sound.heap
  exact ⟨sound.acyclic, sound.closed,
    fun d inside => ⟨sound.acyclic.renders d, sound.acyclic.compares d, sound.copies inside⟩⟩

def pushOntoItself : Program :=
  [⟨utf8 "let", [.ident (utf8 "l"), .call (utf8 "list") [.literal (.string (utf8 "a"))]]⟩,
    ⟨utf8 "push", [.ident (utf8 "l"), .ident (utf8 "l")]⟩]

theorem no_list_contains_itself_pushed :
    let m := ((Interpreter.new 0 false (.ofInput [])).execute 4 .endless pushOntoItself).2.machine
    m.heap.Acyclic ∧
      (m.scope.find? (utf8 "l")).map (fun c => m.heap.render (m.heap.get c)) =
        some (utf8 "[a, [a]]") := by
  have hosted := Interpreter.Hosted.new 0 false (.ofInput [])
  have reached := Reached.between (hosted.execute 4 .endless pushOntoItself (by
    simp [pushOntoItself, Invocation.Every, Argument.EveryOf, Argument.Every, Datum.Within,
      Datum.cells]))
  exact ⟨(no_list_contains_itself reached).1, by decide +kernel⟩

end CallScript
