import CallScript.Proofs.Run.Discipline
import CallScript.Proofs.Function.Registered
import CallScript.Proofs.Value.Bindings
import CallScript.Proofs.Value.Search
import CallScript.Proofs.Value.Unfolding
import CallScript.Proofs.Value.Snapshot

/- A sound machine has an acyclic heap, and refers to cells of that heap only. Every action of
   evaluation keeps a machine sound: a new list is put in a new cell, a list that is stored in an
   old cell is made of new cells or of cells from which the old one cannot be reached. -/
namespace CallScript

open Eval

def Function.Within (bound : Nat) : Function → Prop
  | .defined f => f.closure.Within bound ∧ ∀ inv ∈ f.body, inv.Every (·.Within bound)
  | _ => True

structure Machine.Sound (m : Machine) : Prop where
  heap : m.heap.Sound
  scope : m.scope.Within m.heap.size
  registry : m.registry.Grown
  functions : ∀ f ∈ m.registry.functions, f.Within m.heap.size

/-- Cells are only added, and the machine stays sound. -/
structure Machine.Grows (m n : Machine) : Prop where
  sound : n.Sound
  size_le : m.heap.size ≤ n.heap.size

theorem Scope.Within.mono {s : Scope} {bound larger : Nat} (inside : s.Within bound)
    (le : bound ≤ larger) : s.Within larger :=
  fun p member => Nat.lt_of_lt_of_le (inside p member) le

theorem Function.Within.mono {f : Function} {bound larger : Nat} (inside : f.Within bound)
    (le : bound ≤ larger) : f.Within larger := by
  cases f with
  | defined f =>
    exact ⟨inside.1.mono le, fun inv member => (inside.2 inv member).mono fun d ok => ok.mono le⟩
  | _ => trivial

theorem Scope.Within.bind {s : Scope} {bound : Nat} (inside : s.Within bound) (name : Name)
    {c : CellId} (ok : c < bound) : (s.bind name c).Within bound := by
  intro p member
  rcases mem_insert member with rfl | member
  · exact ok
  · exact inside p member

theorem Scope.Within.bindAll {s : Scope} {bound : Nat} (inside : s.Within bound)
    {pairs : List (Name × CellId)} (ok : ∀ p ∈ pairs, p.2 < bound) :
    (s.bindAll pairs).Within bound := by
  induction pairs generalizing s with
  | nil => exact inside
  | cons first rest ih =>
    exact ih (inside.bind first.1 (ok first List.mem_cons_self))
      fun p member => ok p (List.mem_cons_of_mem first member)

theorem Scope.Within.find {s : Scope} {bound : Nat} (inside : s.Within bound) {name : Name}
    {c : CellId} (found : s.find? name = some c) : c < bound := by
  obtain ⟨before, after, bindings, _⟩ := List.lookup_eq_some_iff.mp found
  exact inside (name, c) (by simp [bindings])

namespace Machine

structure Adds (m n : Machine) : Prop where
  sound : n.Sound
  old : m.heap.Extends n.heap

variable {m : Machine}

theorem Sound.still (sound : m.Sound) : m.Grows m := ⟨sound, Nat.le_refl _⟩

theorem Grows.trans (m n k : Machine) (first : m.Grows n) (second : n.Grows k) : m.Grows k :=
  ⟨second.sound, Nat.le_trans first.size_le second.size_le⟩

theorem Adds.trans (m n k : Machine) (first : m.Adds n) (second : n.Adds k) : m.Adds k :=
  ⟨second.sound, first.old.trans second.old⟩

theorem Adds.grows {n : Machine} (adds : m.Adds n) : m.Grows n := ⟨adds.sound, adds.old.size_le⟩

theorem Sound.withHeap (sound : m.Sound) {heap : Heap} (ok : heap.Sound)
    (le : m.heap.size ≤ heap.size) :
    Sound { m with heap } :=
  ⟨ok, sound.scope.mono le, sound.registry, fun f member => (sound.functions f member).mono le⟩

theorem Sound.withScope (sound : m.Sound) {scope : Scope} (ok : scope.Within m.heap.size) :
    m.Grows { m with scope } :=
  ⟨⟨sound.heap, ok, sound.registry, sound.functions⟩, Nat.le_refl _⟩

theorem Sound.withConsole (sound : m.Sound) (console : Console) : m.Grows { m with console } :=
  ⟨⟨sound.heap, sound.scope, sound.registry, sound.functions⟩, Nat.le_refl _⟩

theorem Sound.define (sound : m.Sound) {args : List Argument} {outline : Outline}
    (read : Outline.ofArguments args = .ok outline)
    (every : ∀ a ∈ args, a.Every (·.Within m.heap.size)) :
    m.Grows (m.define outline) := by
  obtain ⟨grown, heap, closure⟩ := Scope.snapshot_sound sound.heap sound.scope
  refine ⟨⟨heap, sound.scope.mono grown.size_le, .define sound.registry read _, ?_⟩, grown.size_le⟩
  intro f member
  rcases Array.mem_push.mp member with member | rfl
  · exact (sound.functions f member).mono grown.size_le
  · refine ⟨closure, fun inv held => ?_⟩
    have statement := Argument.every_call.mp (every _ (Outline.statement_mem read held))
    exact statement.mono fun d ok => ok.mono grown.size_le

end Machine

abbrev GivesCell (x : Eval CellId) (m : Machine) : Prop :=
  Keeps Machine.Grows (fun c n => c < n.heap.size) x m

namespace Machine.Sound

variable {m : Machine} (sound : m.Sound)
include sound

theorem adds_alloc {d : Datum} (inside : d.Within m.heap.size) :
    Keeps Machine.Adds (fun c n => c = m.heap.size ∧ n.heap = (m.heap.alloc d).2)
      (Eval.alloc d) m := by
  have grown := Heap.extends_alloc m.heap d
  exact ⟨⟨sound.withHeap (sound.heap.alloc inside) grown.size_le, grown⟩, rfl, rfl⟩

theorem alloc {d : Datum} (inside : d.Within m.heap.size) : GivesCell (Eval.alloc d) m := by
  refine ((sound.adds_alloc inside).imp ?_).looser fun n adds => adds.grows
  rintro c n - ⟨rfl, heap⟩
  simp [heap]

theorem alloc_flat {d : Datum} (flat : d.cells = []) : GivesCell (Eval.alloc d) m :=
  sound.alloc (by simp [Datum.Within, flat])

theorem unit : GivesCell Eval.unit m := sound.alloc_flat rfl

theorem adds_copy {d : Datum} (inside : d.Within m.heap.size) :
    Keeps Machine.Adds (fun e n => Heap.Copies d m.heap e n.heap ∧ e.Within n.heap.size)
      (Eval.copy d) m := by
  have copies := sound.heap.copies inside
  obtain ⟨heap, ok⟩ := copies.sound sound.heap inside
  exact ⟨⟨sound.withHeap heap copies.extends.size_le, copies.extends⟩, copies, ok⟩

theorem copied {d : Datum} (inside : d.Within m.heap.size) :
    GivesCell (do Eval.alloc (← Eval.copy d)) m := by
  apply Keeps.bind Machine.Grows.trans ((sound.adds_copy inside).looser fun n adds => adds.grows)
  intro e n grows ok
  exact grows.sound.alloc ok.2

theorem store {c : CellId} {d : Datum} (inside : d.Within m.heap.size)
    (apart : ∀ e ∈ d.elements, ¬ Relation.ReflTransGen m.heap.Holds e c) :
    Keeps Machine.Grows (fun _ _ => True) (Eval.store c d) m := by
  have le : m.heap.size ≤ (m.heap.set c d).size := by simp
  exact ⟨⟨sound.withHeap (sound.heap.set inside apart) le, le⟩, trivial⟩

theorem assign {c v : CellId} (old : c < m.heap.size) :
    Keeps Machine.Grows (fun _ _ => True) (do Eval.store c (← Eval.copy (← contents v))) m := by
  apply keeps_contents
  apply Keeps.bind Machine.Grows.trans
    ((sound.adds_copy (sound.heap.closed v)).looser fun n adds => adds.grows)
  rintro d n grows ⟨copies, inside⟩
  obtain ⟨upward, fresh⟩ := copies.fresh
  exact grows.sound.store inside fun e member => upward.apart (fresh e member) old

theorem expect {α : Type} {read : Datum → Option α} {wanted : Shape} {c : CellId} :
    Keeps Machine.Grows (fun a n => n = m ∧ read (m.heap.get c) = some a)
      (Eval.expect read wanted c) m :=
  keeps_expect _ sound.still fun _ found => ⟨rfl, found⟩

theorem expectAll {α : Type} {read : Datum → Option α} {wanted : Shape} {cells : List CellId} :
    Keeps Machine.Grows (fun _ n => n.Sound) (cells.mapM (Eval.expect read wanted)) m := by
  refine (keeps_mapM Machine.Grows.trans (fun _ _ => True) sound.still (fun _ _ _ _ _ => trivial)
    (fun _ _ grows => grows.sound.still) ?_).imp fun _ _ grows _ => grows.sound
  intro c _ n grows
  exact keeps_expect _ grows.sound.still fun _ _ => trivial

/-- An argument of `push` is appended as a cell from which the list cannot be reached. -/
theorem adds_detached {target c : CellId} (list : target < m.heap.size) (old : c < m.heap.size) :
    Keeps Machine.Adds (fun e n => e < n.heap.size ∧ ¬ Relation.ReflTransGen n.heap.Holds e target)
      (SystemFunction.detached target c) m := by
  unfold SystemFunction.detached
  apply keeps_get
  split
  · apply keeps_contents
    apply Keeps.bind Machine.Adds.trans (sound.adds_copy (sound.heap.closed c))
    rintro d n adds ⟨copies, inside⟩
    refine (adds.sound.adds_alloc inside).imp ?_
    rintro e k - ⟨rfl, heap⟩
    obtain ⟨upward, fresh⟩ := copies.fresh
    rw [heap]
    exact ⟨by simp, (upward.alloc fresh).apart adds.old.size_le list⟩
  · rename_i unreached
    refine keeps_pure ⟨sound, .refl _⟩ ⟨old, ?_⟩
    rwa [← Heap.reaches_iff_path]

theorem adds_detachedAll {target : CellId} {cells : List CellId} (list : target < m.heap.size)
    (old : ∀ c ∈ cells, c < m.heap.size) :
    Keeps Machine.Adds (fun added n => ∀ e ∈ added, e < n.heap.size ∧
      ¬ Relation.ReflTransGen n.heap.Holds e target)
        (cells.mapM (SystemFunction.detached target)) m := by
  -- A relation that remembers the soundness of both machines, for the paths of the earlier one.
  let moved (n k : Machine) := n.Sound ∧ n.Adds k
  have added : Keeps moved (fun added n => ∀ e ∈ added, e < n.heap.size ∧
      ¬ Relation.ReflTransGen n.heap.Holds e target)
        (cells.mapM (SystemFunction.detached target)) m := by
    apply keeps_mapM
    · exact fun m n k first second => ⟨first.1, first.2.trans m n k second.2⟩
    · exact ⟨sound, sound, .refl _⟩
    · rintro e n k ⟨sound', adds⟩ ⟨inside, apart⟩
      exact ⟨Nat.lt_of_lt_of_le inside adds.old.size_le,
        fun path => apart (adds.old.path sound'.heap.closed inside path)⟩
    · exact fun n k move => ⟨move.2.sound, move.2.sound, .refl _⟩
    · intro c member n move
      have le := move.2.old.size_le
      exact (move.2.sound.adds_detached (Nat.lt_of_lt_of_le list le)
        (Nat.lt_of_lt_of_le (old c member) le)).looser fun k adds => ⟨move.2.sound, adds⟩
  exact added.looser fun n move => move.2

theorem push {args : List CellId} (old : ∀ c ∈ args, c < m.heap.size) :
    GivesCell (SystemFunction.runPush args) m := by
  cases args with
  | nil => exact keeps_fail sound.still
  | cons target rest =>
    have list := old target List.mem_cons_self
    apply Keeps.bind Machine.Grows.trans sound.expect
    rintro elements n - ⟨rfl, held⟩
    have contents : n.heap.get target = .list elements := Datum.eq_list held
    have added :=
      (sound.adds_detachedAll list fun c member => old c (List.mem_cons_of_mem target member)).imp
      fun added k adds ok => And.intro adds ok
    apply Keeps.bind Machine.Grows.trans (added.looser fun k adds => adds.grows)
    rintro added k grows ⟨adds, new⟩
    have before : ∀ e ∈ elements, n.heap.Holds target e := by
      intro e member
      rwa [Heap.Holds, contents]
    have inside : (Datum.list (elements ++ added)).Within k.heap.size := by
      intro e member
      rcases List.mem_append.mp member with member | member
      · exact Nat.lt_of_lt_of_le (sound.heap.closed.holds (before e member)) adds.old.size_le
      · exact (new e member).1
    -- The list cannot be reached from its old elements either, which are as they were.
    have apart : ∀ e ∈ elements ++ added, ¬ Relation.ReflTransGen k.heap.Holds e target := by
      intro e member path
      rcases List.mem_append.mp member with member | member
      · have path :=
          adds.old.path sound.heap.closed (sound.heap.closed.holds (before e member)) path
        exact sound.heap.acyclic.apart (before e member) path
      · exact (new e member).2 path
    apply Keeps.bind Machine.Grows.trans (grows.sound.store inside apart)
    intro _ j grows' _
    exact grows'.sound.unit

theorem pop {target : CellId} : GivesCell (SystemFunction.runPop target) m := by
  apply Keeps.bind Machine.Grows.trans sound.expect
  rintro elements n - ⟨rfl, held⟩
  have contents : n.heap.get target = .list elements := Datum.eq_list held
  have closed : (Datum.list elements).Within n.heap.size := contents ▸ sound.heap.closed target
  split
  · rename_i last found
    have fewer : (Datum.list elements.dropLast).elements ⊆ (n.heap.get target).elements := by
      rw [contents]
      exact List.dropLast_subset elements
    have le : n.heap.size ≤ (n.heap.set target (.list elements.dropLast)).size := by simp
    have inside : (Datum.list elements.dropLast).Within n.heap.size :=
      fun c member => closed c (List.dropLast_subset elements member)
    have heap := sound.heap.set_fewer inside fewer
    have stored : Keeps Machine.Grows (fun _ k => n.heap.size ≤ k.heap.size)
        (Eval.store target (.list elements.dropLast)) n :=
      ⟨⟨sound.withHeap heap le, le⟩, le⟩
    apply Keeps.bind Machine.Grows.trans stored
    intro _ k grows le
    exact keeps_pure grows.sound.still
      (Nat.lt_of_lt_of_le (closed last (List.mem_of_getLast? found)) le)
  · exact keeps_fail sound.still

theorem index {target position : CellId} :
    GivesCell (SystemFunction.runIndex target position) m := by
  apply Keeps.bind Machine.Grows.trans sound.expect
  rintro elements n - ⟨rfl, held⟩
  apply Keeps.bind Machine.Grows.trans sound.expect
  rintro value k - ⟨rfl, -⟩
  split
  · exact keeps_fail sound.still
  · apply keeps_need _ sound.still
    intro c found
    have closed := sound.heap.closed target
    rw [Datum.eq_list held] at closed
    exact closed c (List.mem_of_getElem? found)

theorem readLine : GivesCell SystemFunction.runReadLine m := by
  have read : Keeps Machine.Grows (fun _ n => n.Sound)
      (modifyGet fun m => (m.console.readLine.1, { m with console := m.console.readLine.2 }) :
        Eval (Option Bytes)) m :=
    ⟨sound.withConsole _, (sound.withConsole _).sound⟩
  apply Keeps.bind Machine.Grows.trans read
  intro line n _ sound
  split
  · exact sound.alloc_flat rfl
  · exact keeps_fail sound.still

theorem parseNumber {c : CellId} : GivesCell (SystemFunction.runParseNumber c) m := by
  apply Keeps.bind Machine.Grows.trans sound.expect
  rintro text n - ⟨rfl, -⟩
  split
  · exact sound.alloc_flat rfl
  · exact keeps_fail sound.still

theorem logical {decide : Nat → Nat → Bool} {args : List CellId} :
    GivesCell (SystemFunction.runLogical decide args) m := by
  apply Keeps.bind Machine.Grows.trans sound.expectAll
  intro values n _ sound
  exact sound.alloc_flat rfl

theorem arithmetic {name : Name} {op : Number → Number → Number} {args : List CellId} :
    GivesCell (SystemFunction.runArithmetic name op args) m := by
  cases args with
  | nil => exact keeps_fail sound.still
  | cons first rest =>
    apply Keeps.bind Machine.Grows.trans sound.expect
    rintro acc n - ⟨rfl, -⟩
    apply Keeps.bind Machine.Grows.trans sound.expectAll
    intro values k _ sound
    exact sound.alloc_flat rfl

theorem compare {op : Number → Number → Bool} {a b : CellId} :
    GivesCell (SystemFunction.runCompare op a b) m := by
  apply Keeps.bind Machine.Grows.trans sound.expect
  rintro x n - ⟨rfl, -⟩
  apply Keeps.bind Machine.Grows.trans sound.expect
  rintro y k - ⟨rfl, -⟩
  exact sound.alloc_flat rfl

theorem print {ending : Bytes} {args : List CellId} :
    GivesCell (SystemFunction.runPrint ending args) m := by
  apply keeps_get
  dsimp only
  split
  · rename_i console _
    have written : Keeps Machine.Grows (fun _ n => n.Sound) (modify fun m => { m with console })
        m :=
      ⟨sound.withConsole console, (sound.withConsole console).sound⟩
    apply Keeps.bind Machine.Grows.trans written
    intro _ n _ sound
    exact sound.unit
  · exact keeps_fail sound.still

theorem expect_alloc {α : Type} {read : Datum → Option α} {wanted : Shape} {c : CellId}
    {result : α → Datum} (flat : ∀ a, (result a).cells = []) :
    GivesCell (do Eval.alloc (result (← Eval.expect read wanted c))) m := by
  apply Keeps.bind Machine.Grows.trans sound.expect
  rintro a n - ⟨rfl, -⟩
  exact sound.alloc_flat (flat a)

theorem system (f : SystemFunction) {args : List CellId} (old : ∀ c ∈ args, c < m.heap.size) :
    GivesCell (f.run args) m := by
  unfold SystemFunction.run
  split
  · exact sound.readLine
  · exact sound.parseNumber
  · exact sound.expect_alloc fun _ => rfl
  · exact sound.expect_alloc fun _ => rfl
  · exact sound.logical
  · exact sound.logical
  · exact sound.logical
  · exact sound.arithmetic
  · exact sound.arithmetic
  · exact sound.arithmetic
  · exact sound.arithmetic
  · exact sound.arithmetic
  · exact sound.print
  · exact sound.print
  · exact sound.alloc_flat rfl
  · exact sound.alloc_flat rfl
  · exact sound.alloc old
  · exact keeps_get (sound.alloc_flat rfl)
  · exact sound.compare
  · exact sound.compare
  · exact sound.compare
  · exact sound.compare
  · exact sound.alloc old
  · exact sound.push old
  · exact sound.pop
  · exact sound.index
  · exact sound.expect_alloc fun _ => rfl
  · exact keeps_throw sound.still

end Machine.Sound

def soundness : Discipline where
  sound := Machine.Sound
  moved := Machine.Grows
  cell m c := c < m.heap.size
  literal m d := d.Within m.heap.size
  function m f := f.Within m.heap.size
  still _ sound := sound.still
  trans := Machine.Grows.trans
  sound_after _ _ grows := grows.sound
  cell_after _ _ _ grows old := Nat.lt_of_lt_of_le old grows.size_le
  literal_after _ _ _ grows inside := inside.mono grows.size_le
  function_after _ _ _ grows inside := inside.mono grows.size_le
  cell_scope _ _ _ old := old
  bound _ _ _ sound found := sound.scope.find found
  returned m c e sound _ held := sound.heap.closed c e (by simp [held, Datum.cells])
  candidate _ _ f sound member := sound.functions f (Registry.mem_of_candidate member)
  record _ _ sound := ⟨⟨sound.heap, sound.scope, sound.registry, sound.functions⟩, Nat.le_refl _⟩
  spend _ _ sound := ⟨⟨sound.heap, sound.scope, sound.registry, sound.functions⟩, Nat.le_refl _⟩
  unit _ sound := sound.unit
  copied _ _ sound inside := sound.copied inside
  bind _ name _ sound old := sound.withScope (sound.scope.bind name old)
  assign _ _ _ sound old _ := sound.assign old
  define _ _ _ sound read every := sound.define read every
  system _ f _ sound old := sound.system f old
  enter m f args sound kept old :=
    ⟨(sound.withScope (kept.1.bindAll fun p member => old p.2 (List.of_mem_zip member).2)).sound,
      kept.2⟩
  leave _ _ _ sound grows :=
    ⟨⟨grows.sound.heap, sound.scope.mono grows.size_le, grows.sound.registry,
      grows.sound.functions⟩, grows.size_le⟩

end CallScript
