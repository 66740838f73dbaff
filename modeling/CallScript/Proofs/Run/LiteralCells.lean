import CallScript.Proofs.Run.Footprint

/- What becomes of the literals of a program while it runs. A literal is copied each time it is
   evaluated, so the cells in its lists are only read: they are lent to the program. But a cell that
   a literal carries, or that is carried by something in its lists, is handed to the program with
   the copy, which may then change it. So however often a program is run, its literals keep their
   contents as far as nothing in them carries a cell. -/
namespace CallScript

open Eval

theorem Datum.mem_cells_iff {d : Datum} {c : CellId} :
    c ∈ d.cells ↔ c ∈ d.elements ∨ d.carried? = some c := by
  cases d with
  | flow kind e =>
    cases e with
    | none => simp [cells, elements, carried?]
    | some e => simp [cells, elements, carried?, eq_comm]
  | _ => simp [cells, elements, carried?]

section Lending

variable {free lent : CellId → Prop}

/-- A value whose copies hold free cells only: its elements are lent, and what it carries is
free. -/
structure Datum.Lent (free lent : CellId → Prop) (d : Datum) : Prop where
  element : ∀ c ∈ d.elements, lent c
  carried : ∀ c, d.carried? = some c → free c

/-- Lent cells hold values that can be copied, and free cells only values made of free cells. -/
structure Heap.Lends (free lent : CellId → Prop) (h : Heap) : Prop where
  fenced : h.Fenced free
  lent_of_free : ∀ c, free c → lent c
  contents : ∀ c, lent c → (h.get c).Lent free lent

theorem Heap.Lends.after {h g : Heap} (lends : h.Lends free lent) (spares : h.Spares free g) :
    g.Lends free lent := by
  refine ⟨spares.fenced, lends.lent_of_free, ?_⟩
  intro c isLent
  -- A free cell may have changed, but still refers to free cells only; others are as they were.
  by_cases isFree : free c
  · have inside : ∀ e ∈ (g.get c).cells, free e :=
      fun e refers => spares.fenced.closed c e isFree refers
    exact ⟨fun e member =>
      lends.lent_of_free e (inside e (Datum.mem_cells_iff.mpr (Or.inl member))),
      fun e carries => inside e (Datum.mem_cells_iff.mpr (Or.inr carries))⟩
  · rw [spares.same c isFree]
    exact lends.contents c isLent

mutual

theorem Heap.Copies.lent {d e : Datum} {h g : Heap} :
    Copies d h e g → h.Lends free lent → d.Lent free lent → h.Spares free g ∧ ∀ c ∈ e.cells, free c
  | .flat flat, lends, value => by
    refine ⟨lends.fenced.refl, ?_⟩
    intro c member
    rcases Datum.mem_cells_iff.mp member with element | carries
    · rw [Datum.elements_eq_nil flat] at element
      cases element
    · exact value.carried c carries
  | .list all, lends, value => all.lent lends value.element

theorem Heap.CopiesAll.lent {cells dups : List CellId} {h g : Heap} : CopiesAll cells h dups g →
    h.Lends free lent → (∀ c ∈ cells, lent c) → h.Spares free g ∧ ∀ c ∈ dups, free c
  | .nil, lends, _ => ⟨lends.fenced.refl, by simp⟩
  | @CopiesAll.cons c rest _ _ middle _ _ first others, lends, inside => by
    obtain ⟨copied, cells⟩ := first.lent lends (lends.contents c (inside c List.mem_cons_self))
    have made := copied.trans (copied.fenced.alloc cells)
    obtain ⟨later, dups⟩ := others.lent (lends.after made) fun e member =>
      inside e (List.mem_cons_of_mem c member)
    refine ⟨made.trans later, ?_⟩
    intro e member
    rcases List.mem_cons.mp member with same | member
    · rw [same]
      exact copied.fenced.later middle.size (Nat.le_refl _)
    · exact dups e member

end

def Function.Lent (free lent : CellId → Prop) : Function → Prop
  | .defined f =>
    (∀ p ∈ f.closure.bindings, free p.2) ∧ ∀ inv ∈ f.body, inv.Every (·.Lent free lent)
  | _ => True

/-- Programs on this machine can get hold of free cells only, and read lent ones. -/
structure Machine.Lending (free lent : CellId → Prop) (m : Machine) : Prop where
  sound : m.Sound
  heap : m.heap.Lends free lent
  scope : ∀ p ∈ m.scope.bindings, free p.2
  functions : ∀ f ∈ m.registry.functions, f.Lent free lent

structure Machine.Lasts (free lent : CellId → Prop) (m n : Machine) : Prop where
  heap : m.heap.Spares free n.heap
  size_le : m.heap.size ≤ n.heap.size
  lending : n.Lending free lent

variable {m : Machine}

theorem Machine.Lending.refl (lending : m.Lending free lent) : m.Lasts free lent m :=
  ⟨lending.heap.fenced.refl, Nat.le_refl _, lending⟩

theorem Machine.Lasts.trans (m n k : Machine) (first : m.Lasts free lent n)
    (second : n.Lasts free lent k) :
    m.Lasts free lent k :=
  ⟨first.heap.trans second.heap, Nat.le_trans first.size_le second.size_le, second.lending⟩

theorem Machine.Lending.touches {α : Type} {good : α → Prop} {inside : α → Machine → Prop}
    {x : Eval α} (lending : m.Lending free lent) (touches : Touches x m)
    (sparing : Sparing free good x m) (grows : Keeps Machine.Grows inside x m) :
    Keeps (Machine.Lasts free lent) (fun a n => good a ∧ inside a n) x m := by
  apply (((touches.and sparing).and grows).imp fun a n _ all => ⟨all.1.2, all.2⟩).looser
  intro n all
  obtain ⟨⟨touched, spares⟩, grows⟩ := all
  refine ⟨spares, grows.size_le, grows.sound, lending.heap.after spares, ?_, ?_⟩
  · rw [touched]
    exact lending.scope
  · rw [touched]
    exact lending.functions

theorem Machine.Lending.sparing_copied (lending : m.Lending free lent) {d : Datum}
    (inside : d.Within m.heap.size) (value : d.Lent free lent) :
    Sparing free free (do alloc (← Eval.copy d)) m := by
  obtain ⟨copied, cells⟩ := (lending.sound.heap.copies inside).lent lending.heap value
  exact ⟨copied.trans (copied.fenced.alloc cells), copied.fenced.later _ (Nat.le_refl _)⟩

theorem Machine.Lending.define (lending : m.Lending free lent) {args : List Argument}
    {outline : Outline} (read : Outline.ofArguments args = .ok outline)
    (every : ∀ a ∈ args, a.Every fun d => d.Within m.heap.size ∧ d.Lent free lent) :
    m.Lasts free lent (m.define outline) := by
  have grows := lending.sound.define read fun a member => (every a member).mono fun d both => both.1
  obtain ⟨closure, spares⟩ := Scope.snapshot_spares lending.heap.fenced lending.scope
  refine ⟨spares, grows.size_le, grows.sound, lending.heap.after spares, lending.scope, ?_⟩
  intro f member
  rcases Array.mem_push.mp member with member | new
  · exact lending.functions f member
  · rw [new]
    refine ⟨closure, fun inv held => ?_⟩
    have statement := every _ (Outline.statement_mem read held)
    exact Argument.every_call.mp (statement.mono fun d both => both.2)

/-- A program changes free cells only, if its literals can be copied. -/
def lending (free lent : CellId → Prop) : Discipline where
  sound := Machine.Lending free lent
  moved := Machine.Lasts free lent
  cell m c := free c ∧ c < m.heap.size
  literal m d := d.Within m.heap.size ∧ d.Lent free lent
  function m f := f.Within m.heap.size ∧ f.Lent free lent
  still _ lending := lending.refl
  trans := Machine.Lasts.trans
  sound_after _ _ lasts := lasts.lending
  cell_after _ _ _ lasts held := ⟨held.1, Nat.lt_of_lt_of_le held.2 lasts.size_le⟩
  literal_after _ _ _ lasts value := ⟨value.1.mono lasts.size_le, value.2⟩
  function_after _ _ _ lasts kept := ⟨kept.1.mono lasts.size_le, kept.2⟩
  cell_scope _ _ _ held := held
  bound _ name c lending found := by
    obtain ⟨before, after, bindings, _⟩ := List.lookup_eq_some_iff.mp found
    exact ⟨lending.scope (name, c) (by simp [bindings]), lending.sound.scope.find found⟩
  returned m c e lending held contents := by
    have refers : m.heap.Refers c e := by simp [Heap.Refers, contents, Datum.cells]
    exact ⟨lending.heap.fenced.closed c e held.1 refers, lending.sound.heap.closed c e refers⟩
  candidate _ _ f lending member :=
    ⟨lending.sound.functions f (Registry.mem_of_candidate member),
      lending.functions f (Registry.mem_of_candidate member)⟩
  record m entry lending :=
    ⟨lending.heap.fenced.refl, Nat.le_refl _, (soundness.record m entry lending.sound).sound,
      lending.heap, lending.scope, lending.functions⟩
  spend m patience lending :=
    ⟨lending.heap.fenced.refl, Nat.le_refl _, lending.sound.withPatience patience, lending.heap,
      lending.scope, lending.functions⟩
  unit _ lending :=
    lending.touches (touches_alloc .unit) (sparing_unit lending.heap.fenced) lending.sound.unit
  copied _ d lending value :=
    lending.touches (touches_copied d) (lending.sparing_copied value.1 value.2)
      (lending.sound.copied value.1)
  bind _ name c lending held := by
    have grows := lending.sound.withScope (lending.sound.scope.bind name held.2)
    refine ⟨lending.heap.fenced.refl, grows.size_le, grows.sound, lending.heap, ?_,
      lending.functions⟩
    intro p member
    rcases Scope.mem_insert member with same | member
    · rw [same]
      exact held.1
    · exact lending.scope p member
  assign _ _ _ lending target value :=
    (lending.touches (touches_stored _ _) (sparing_stored lending.heap.fenced target.1 value.1)
      (lending.sound.assign target.2)).imp fun _ _ _ _ => trivial
  define _ _ _ lending read every := lending.define read every
  system _ f args lending inside :=
    lending.touches (touches_system f args)
      (sparing_system f lending.heap.fenced fun c member => (inside c member).1)
      (lending.sound.system f fun c member => (inside c member).2)
  enter m f args lending kept inside := by
    obtain ⟨sound, every⟩ := soundness.enter m f args lending.sound kept.1 fun c member =>
      (inside c member).2
    refine ⟨⟨sound, lending.heap, ?_, lending.functions⟩, ?_⟩
    · intro p member
      rcases Scope.mem_bindAll member with given | held
      · exact (inside p.2 (List.of_mem_zip given).2).1
      · exact kept.2.1 p held
    · intro inv member
      have inside' := (Argument.everyOf_iff_literals _).mp (every inv member)
      have lent' := (Argument.everyOf_iff_literals _).mp (kept.2.2 inv member)
      exact (Argument.everyOf_iff_literals _).mpr fun d written =>
        ⟨inside' d written, lent' d written⟩
  leave m n scope lending lasts := by
    have grows := soundness.leave m n scope lending.sound ⟨lasts.lending.sound, lasts.size_le⟩
    exact ⟨lasts.heap, lasts.size_le, grows.sound, lasts.lending.heap, lending.scope,
      lasts.lending.functions⟩

end Lending

def Datum.Lists (d : Datum) (h : Heap) (c : CellId) : Prop :=
  ∃ e ∈ d.elements, Relation.ReflTransGen h.Holds e c

/-- Copies of the value share a cell with it: the value carries the cell, or something in its lists
does. -/
def Datum.HandsOut (d : Datum) (h : Heap) (c : CellId) : Prop :=
  d.carried? = some c ∨ ∃ e, d.Lists h e ∧ (h.get e).carried? = some c

theorem Datum.Lists.inside {d : Datum} {h : Heap} (within : d.Within h.size) (closed : h.Closed)
    {c : CellId} (lists : d.Lists h c) : c < h.size := by
  obtain ⟨e, element, path⟩ := lists
  induction path with
  | refl => exact within e (d.elements_subset_cells element)
  | tail _ holds _ => exact closed.holds holds

theorem Heap.Holds.handsOut {h : Heap} {c e : CellId} (path : Relation.ReflTransGen h.Holds c e)
    {shared : CellId} (carries : (h.get e).carried? = some shared) :
    (h.get c).HandsOut h shared := by
  rcases path.cases_head with same | ⟨next, holds, rest⟩
  · rw [same]
    exact Or.inl carries
  · exact Or.inr ⟨e, ⟨next, holds, rest⟩, carries⟩

theorem Heap.Extends.get_of_ne_unit {h g : Heap} (grown : h.Extends g) {c : CellId}
    (filled : h.get c ≠ .unit) :
    g.get c = h.get c := by
  apply grown.get_eq
  by_contra outside
  exact filled (get_outside (Nat.le_of_not_lt outside))

theorem Heap.Extends.refers_le {h g : Heap} (grown : h.Extends g) : h.Refers ≤ g.Refers := by
  intro c e refers
  rw [Refers] at refers ⊢
  rwa [grown.get_of_ne_unit fun unit => by simp [unit, Datum.cells] at refers]

theorem Heap.Extends.holds_le {h g : Heap} (grown : h.Extends g) : h.Holds ≤ g.Holds := by
  intro c e holds
  rw [Holds] at holds ⊢
  rwa [grown.get_of_ne_unit fun unit => by simp [unit, Datum.elements] at holds]

theorem Heap.alloc_leads {h : Heap} {d : Datum} {c e : CellId} (held : c ∈ d.cells)
    (leads : Relation.ReflTransGen h.Refers c e) :
    Relation.ReflTransGen (h.alloc d).2.Refers h.size e := by
  have first : (h.alloc d).2.Refers h.size c := by
    rw [Refers, get_alloc_self]
    exact held
  exact .head first (Relation.ReflTransGen.mono (extends_alloc h d).refers_le _ _ leads)

mutual

theorem Heap.Copies.leads {d e : Datum} {h g : Heap} {shared : CellId} :
    Copies d h e g → d.HandsOut h shared → ∃ c ∈ e.cells, Relation.ReflTransGen g.Refers c shared
  | .flat flat, hands => by
    rcases hands with carries | ⟨_, ⟨_, element, _⟩, _⟩
    · exact ⟨shared, Datum.mem_cells_iff.mpr (Or.inr carries), .refl⟩
    · rw [Datum.elements_eq_nil flat] at element
      cases element
  | .list all, hands => by
    rcases hands with carries | ⟨_, ⟨_, element, path⟩, carries⟩
    · cases carries
    · exact all.leads element path carries

theorem Heap.CopiesAll.leads {cells dups : List CellId} {h g : Heap} {shared c e : CellId} :
    CopiesAll cells h dups g → c ∈ cells → Relation.ReflTransGen h.Holds c e →
    (h.get e).carried? = some shared →
    ∃ dup ∈ dups, Relation.ReflTransGen g.Refers dup shared
  | .nil, member, _, _ => by cases member
  | @CopiesAll.cons first rest _ _ middle _ d copied others, member, path, carries => by
    rcases List.mem_cons.mp member with same | member
    -- The cell made for the first element leads to what that element hands out, and no later cell
    -- changes it.
    · rw [same] at path
      obtain ⟨x, held, leads⟩ := copied.leads (Holds.handsOut path carries)
      have made := alloc_leads held leads
      exact ⟨middle.size, List.mem_cons_self,
        Relation.ReflTransGen.mono others.extends.refers_le _ _ made⟩
    · have grown := copied.extends.trans (extends_alloc middle d)
      have path' := Relation.ReflTransGen.mono grown.holds_le _ _ path
      have carries' : ((middle.alloc d).2.get e).carried? = some shared := by
        rwa [grown.get_of_ne_unit fun unit => by simp [unit, Datum.carried?] at carries]
      obtain ⟨dup, held, leads⟩ := others.leads member path' carries'
      exact ⟨dup, List.mem_cons_of_mem _ held, leads⟩

end

theorem evalArgument_leads {m : Machine} (sound : m.Sound) {d : Datum}
    (inside : d.Within m.heap.size) {shared : CellId} (hands : d.HandsOut m.heap shared)
    (eval : Invocation → Eval CellId) :
    ∃ c n, evalArgument eval (.literal d) m = .ok c n ∧
      Relation.ReflTransGen n.heap.Refers c shared := by
  obtain ⟨x, held, leads⟩ := (sound.heap.copies inside).leads hands
  exact ⟨_, _, rfl, Heap.alloc_leads held leads⟩

def Program.literals (p : Program) : List Datum := p.flatMap fun inv => Argument.literalsOf inv.args

/-- The cells that programs with the given literals can get hold of on this machine: from the
variables, from what functions have captured, and from what the literals and those of function
bodies hand out. -/
inductive Machine.Exposed (m : Machine) (literals : List Datum) : CellId → Prop where
  | bound {p : Name × CellId} (held : p ∈ m.scope.bindings) : Exposed m literals p.2
  | captured {f : Function} (registered : f ∈ m.registry.functions) {p : Name × CellId}
    (bound : p ∈ f.captured.bindings) : Exposed m literals p.2
  | body {f : Function} (registered : f ∈ m.registry.functions) {d : Datum}
      (written : d ∈ f.literals) {c : CellId}
    (hands : d.HandsOut m.heap c) : Exposed m literals c
  | literal {d : Datum} (written : d ∈ literals) {c : CellId} (hands : d.HandsOut m.heap c) :
      Exposed m literals c
  | refers {c e : CellId} (exposed : Exposed m literals c) (refers : m.heap.Refers c e) :
      Exposed m literals e

namespace Machine.Exposed

variable {m : Machine} {literals : List Datum}

theorem without (nothing : ∀ d ∈ literals, ∀ c, ¬ d.HandsOut m.heap c) {c : CellId}
    (exposed : m.Exposed literals c) :
    m.Exposed [] c := by
  induction exposed with
  | bound held => exact .bound held
  | captured registered bound => exact .captured registered bound
  | body registered written hands => exact .body registered written hands
  | literal written hands => exact absurd hands (nothing _ written _)
  | refers _ refers ih => exact .refers ih refers

def Written (m : Machine) (literals : List Datum) (d : Datum) : Prop :=
  d ∈ literals ∨ ∃ f ∈ m.registry.functions, d ∈ f.literals

theorem of_written {d : Datum} (written : Written m literals d) {c : CellId}
    (hands : d.HandsOut m.heap c) :
    m.Exposed literals c := by
  rcases written with written | ⟨f, registered, written⟩
  · exact .literal written hands
  · exact .body registered written hands

def Free (m : Machine) (literals : List Datum) (c : CellId) : Prop :=
  m.Exposed literals c ∨ m.heap.size ≤ c

def Readable (m : Machine) (literals : List Datum) (c : CellId) : Prop :=
  Free m literals c ∨ ∃ d, Written m literals d ∧ d.Lists m.heap c

theorem lent_written {d : Datum} (written : Written m literals d) :
    d.Lent (Free m literals) (Readable m literals) :=
  ⟨fun c element => Or.inr ⟨d, written, c, element, .refl⟩,
    fun _ carries => Or.inl (of_written written (Or.inl carries))⟩

theorem lends (m : Machine) (literals : List Datum) :
    m.heap.Lends (Free m literals) (Readable m literals) := by
  have fenced : m.heap.Fenced (Free m literals) := Heap.fenced_of_closed fun _ _ exposed refers =>
    exposed.refers refers
  refine ⟨fenced, fun c free => Or.inl free, ?_⟩
  intro c readable
  rcases readable with free | ⟨d, written, e, element, path⟩
  · constructor
    · intro e element
      exact Or.inl (fenced.closed c e free (Datum.mem_cells_iff.mpr (Or.inl element)))
    · intro e carries
      exact fenced.closed c e free (Datum.mem_cells_iff.mpr (Or.inr carries))
  · constructor
    · intro x holds
      exact Or.inr ⟨d, written, e, element, path.tail holds⟩
    · intro x carries
      exact Or.inl (of_written written (Or.inr ⟨c, ⟨e, element, path⟩, carries⟩))

theorem lending (sound : m.Sound) (literals : List Datum) :
    m.Lending (Free m literals) (Readable m literals) := by
  refine ⟨sound, lends m literals, fun p held => Or.inl (.bound held), ?_⟩
  intro f registered
  cases f with
  | system _ => trivial
  | context _ => trivial
  | defined f =>
    constructor
    · intro p bound
      exact Or.inl (.captured registered bound)
    · intro inv member
      apply (Argument.everyOf_iff_literals _).mpr
      intro d written
      exact lent_written (Or.inr ⟨_, registered, List.mem_flatMap.mpr ⟨inv, member, written⟩⟩)

end Machine.Exposed

namespace Interpreter

/-- A program is run again and again, as a whole or one of its statements. -/
inductive Reruns (p : Program) (i : Interpreter) : Interpreter → Prop where
  | start : Reruns p i i
  | execute {j : Interpreter} (earlier : Reruns p i j) (fuel : Nat) (patience : Patience) :
    Reruns p i (j.execute fuel patience p).2
  | evaluate {j : Interpreter} (earlier : Reruns p i j) (fuel : Nat) (patience : Patience)
      {inv : Invocation}
    (member : inv ∈ p) : Reruns p i (j.evaluate fuel patience inv).2

variable {i j : Interpreter} {free lent : CellId → Prop}

theorem lasts_run {α : Type} {good : α → Machine → Prop} {patience : Patience}
    {act : Settings → Eval α} (start : j.machine.Lending free lent)
    (ran : Machine.Lending free lent { j.machine with patience } →
      Keeps (Machine.Lasts free lent) good (act j.settings) { j.machine with patience }) :
    j.machine.Lasts free lent (j.run patience act).2.machine := by
  have ready := (CallScript.lending free lent).spend j.machine patience start
  have lasts := (ran ready.lending).move
  have rested := (CallScript.lending free lent).spend _ .endless lasts.lending
  rw [run_machine]
  exact ready.trans _ _ _ (lasts.trans _ _ _ rested)

theorem Reruns.lasts {p : Program} (reruns : Reruns p i j) (start : i.machine.Lending free lent)
    (literals : ∀ inv ∈ p, inv.Every ((CallScript.lending free lent).literal i.machine)) :
    i.machine.Lasts free lent j.machine := by
  induction reruns with
  | start => exact start.refl
  | @execute j _ fuel patience ih =>
    apply ih.trans
    apply lasts_run ih.lending
    intro ready
    rw [program_eq]
    exact Discipline.keeps_programBy (R := CallScript.lending free lent)
      (Discipline.obeyed_evaluate j.settings fuel 0)
      ready fun inv member => (literals inv member).mono fun d ok =>
        (CallScript.lending free lent).literal_after _ _ d ih ok
  | @evaluate j _ fuel patience inv member ih =>
    apply ih.trans
    apply lasts_run ih.lending
    intro ready
    exact Discipline.gives_singleBy (R := CallScript.lending free lent)
      (Discipline.obeyed_evaluate j.settings fuel 0)
      ready ((literals inv member).mono fun d ok =>
        (CallScript.lending free lent).literal_after _ _ d ih ok)

end Interpreter

/-- However often a program is run, a cell that was there before has changed only if programs could
get hold of it: from the variables, from the functions, or because a literal carries it or has it
carried in its lists. Literals that carry no cell keep their contents, unless the interpreter had
got hold of their cells before. A cell that is carried is got hold of whenever its literal is
evaluated. -/
theorem literals_kept_unless_handed_out {i j : Interpreter} (hosted : i.Hosted) {p : Program}
    (finite : ∀ inv ∈ p, inv.Every (·.Within i.machine.heap.size)) (reruns : i.Reruns p j) :
    (∀ c < i.machine.heap.size, j.machine.heap.get c ≠ i.machine.heap.get c →
      i.machine.Exposed p.literals c) ∧
    ((∀ d ∈ p.literals, ∀ c, ¬ d.HandsOut i.machine.heap c) →
      (∀ d ∈ p.literals, ∀ c, d.Lists i.machine.heap c → ¬ i.machine.Exposed [] c) →
      ∀ d ∈ p.literals, ∀ c, d.Lists i.machine.heap c →
      j.machine.heap.get c = i.machine.heap.get c) ∧
    ∀ d ∈ p.literals, ∀ c, d.HandsOut j.machine.heap c → ∀ eval, ∃ e n,
      evalArgument eval (.literal d) j.machine = .ok e n ∧
        Relation.ReflTransGen n.heap.Refers e c := by
  have inside : ∀ d ∈ p.literals, d.Within i.machine.heap.size := by
    intro d written
    obtain ⟨inv, member, written⟩ := List.mem_flatMap.mp written
    exact (Argument.everyOf_iff_literals _).mp (finite inv member) d written
  have literals : ∀ inv ∈ p, inv.Every ((lending (Machine.Exposed.Free i.machine p.literals)
      (Machine.Exposed.Readable i.machine p.literals)).literal i.machine) := by
    intro inv member
    apply (Argument.everyOf_iff_literals _).mpr
    intro d held
    have written : d ∈ p.literals := List.mem_flatMap.mpr ⟨inv, member, held⟩
    exact ⟨inside d written, Machine.Exposed.lent_written (Or.inl written)⟩
  -- Only free cells change, and those that were there before are free if they are exposed.
  have lasts := reruns.lasts (Machine.Exposed.lending hosted.sound p.literals) literals
  have changed : ∀ c < i.machine.heap.size, j.machine.heap.get c ≠ i.machine.heap.get c →
      i.machine.Exposed p.literals c := by
    intro c old differs
    by_contra unexposed
    apply differs
    apply lasts.heap.same c
    intro free
    rcases free with exposed | new
    · exact unexposed exposed
    · exact absurd old (Nat.not_lt.mpr new)
  refine ⟨changed, ?_, ?_⟩
  · intro nothing apart d written c lists
    by_contra differs
    have old := lists.inside (inside d written) hosted.sound.heap.closed
    exact apart d written c lists ((changed c old differs).without nothing)
  · intro d written c hands eval
    exact evalArgument_leads lasts.lending.sound ((inside d written).mono lasts.size_le) hands eval

def Interpreter.furnished : Interpreter :=
  let i := Interpreter.new 0 false (.ofInput [])
  let j : Interpreter :=
    { i with machine := { i.machine with heap := (i.machine.heap.alloc (.number (.ofNat 1))).2 } }
  { j with machine := { j.machine with heap := (j.machine.heap.alloc (.list [4])).2 } }

theorem Interpreter.furnished_hosted : Interpreter.furnished.Hosted := by
  refine .build (.build (.new 0 false (.ofInput [])) _ (by simp [Datum.Within, Datum.cells])) _ ?_
  unfold Datum.Within
  decide +kernel

-- Programs can get hold of the constants only.
theorem Interpreter.furnished_exposed {c : CellId}
    (exposed : Interpreter.furnished.machine.Exposed [] c) : c < 4 := by
  have empty : ∀ f ∈ Interpreter.furnished.machine.registry.functions.toList,
      f.captured.bindings = [] ∧ f.literals = [] := by decide +kernel
  induction exposed with
  | bound held =>
    exact (by decide +kernel : ∀ p ∈ Interpreter.furnished.machine.scope.bindings, p.2 < 4) _ held
  | captured registered bound =>
    rw [(empty _ (Array.mem_toList_iff.mpr registered)).1] at bound
    cases bound
  | body registered written =>
    rw [(empty _ (Array.mem_toList_iff.mpr registered)).2] at written
    cases written
  | literal written => cases written
  | refers _ refers ih =>
    rw [Heap.Refers,
      (by decide +kernel : ∀ c < 4, (Interpreter.furnished.machine.heap.get c).cells = []) _
        ih] at refers
    cases refers

/-- `let(x, [[1]]) let(y, pop(x)) push(y, 2) println(y)`, with a list of lists written as a
literal. -/
def pushToLiteral : Program :=
  [⟨utf8 "let", [.ident (utf8 "x"), .literal (.list [5])]⟩,
    ⟨utf8 "let", [.ident (utf8 "y"), .call (utf8 "pop") [.ident (utf8 "x")]]⟩,
    ⟨utf8 "push", [.ident (utf8 "y"), .literal (.number (.ofNat 2))]⟩,
    ⟨utf8 "println", [.ident (utf8 "y")]⟩]

-- Nothing that the literals lead to carries a cell, and the constants are not among it.
theorem pushToLiteral_apart {d : Datum} (written : d ∈ pushToLiteral.literals) {c : CellId} :
    ¬ d.HandsOut Interpreter.furnished.machine.heap c ∧
      (d.Lists Interpreter.furnished.machine.heap c → 4 ≤ c) := by
  have plain : ∀ d ∈ pushToLiteral.literals, d.carried? = none ∧ ∀ c ∈ d.elements, 4 ≤ c := by
    decide +kernel
  have cells : ∀ c < Interpreter.furnished.machine.heap.size,
      (Interpreter.furnished.machine.heap.get c).carried? = none ∧
        ∀ e ∈ (Interpreter.furnished.machine.heap.get c).elements, 4 ≤ e := by decide +kernel
  constructor
  · intro hands
    rcases hands with here | ⟨e, _, within⟩
    · simp [(plain d written).1] at here
    · by_cases inside : e < Interpreter.furnished.machine.heap.size
      · simp [(cells e inside).1] at within
      · simp [Heap.get_outside (Nat.le_of_not_lt inside), Datum.carried?] at within
  · intro lists
    obtain ⟨e, element, path⟩ := lists
    induction path with
    | refl => exact (plain d written).2 e element
    | tail _ holds _ => exact (cells _ (Heap.holds_inside holds)).2 _ holds

theorem literals_kept_unless_handed_out_twice :
    let i := Interpreter.furnished
    let j := ((i.execute 6 .endless pushToLiteral).2.execute 6 .endless pushToLiteral).2
    j.machine.console.output = utf8 "[1, 2]\n[1, 2]\n" ∧
      ∀ c, (Datum.list [5]).Lists i.machine.heap c →
        j.machine.heap.get c = i.machine.heap.get c := by
  have finite : ∀ inv ∈ pushToLiteral,
      inv.Every (·.Within Interpreter.furnished.machine.heap.size) := by
    intro inv member
    apply (Argument.everyOf_iff_literals _).mpr
    unfold Datum.Within
    revert inv
    decide +kernel
  obtain ⟨-, kept, -⟩ := literals_kept_unless_handed_out Interpreter.furnished_hosted finite
    (.execute (.execute .start 6 .endless) 6 .endless)
  have literal := kept (fun d written c => (pushToLiteral_apart written).1)
    (fun d written c lists exposed => absurd (Interpreter.furnished_exposed exposed)
      (Nat.not_lt.mpr ((pushToLiteral_apart written).2 lists))) (.list [5])
    (by simp [pushToLiteral, Program.literals, Argument.literalsOf, Argument.literals])
  exact ⟨by decide +kernel, literal⟩

/-- `fn(f, any, if(true, return)) let(x, f()) =(x, 2) println(f())`, where the return is a literal
that carries a cell with the number one. -/
def assignToReturned : Program :=
  [⟨utf8 "fn", [.ident (utf8 "f"), .ident (utf8 "any"),
      .call (utf8 "if") [.ident (utf8 "true"), .literal (.flow .returns (some 4))]]⟩,
    ⟨utf8 "let", [.ident (utf8 "x"), .call (utf8 "f") []]⟩,
    ⟨utf8 "=", [.ident (utf8 "x"), .literal (.number (.ofNat 2))]⟩,
    ⟨utf8 "println", [.call (utf8 "f") []]⟩]

/-- The cell that a return carries is handed out, and the program changes its own literal. -/
theorem returned_literal_rewritten :
    let i := Interpreter.furnished
    let j := (i.execute 8 .endless assignToReturned).2
    j.machine.console.output = utf8 "2\n" ∧ i.machine.heap.get 4 = .number (.ofNat 1) ∧
      j.machine.heap.get 4 = .number (.ofNat 2) := by
  decide +kernel

end CallScript
