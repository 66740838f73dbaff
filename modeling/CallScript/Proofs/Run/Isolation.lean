import CallScript.Proofs.Value.Images
import CallScript.Proofs.Run.Reached

/- What a new function shares with the scope it is defined in. The copy that it keeps is made of new
   cells, but a value that carries a cell is copied with that very cell. So the function is cut off
   from its scope exactly when nothing that the scope leads to carries a cell; and when it is, the
   cells of one side keep their contents whatever is done with those of the other. -/
namespace CallScript

open Eval

def Datum.carried? : Datum → Option CellId
  | .flow _ c => c
  | _ => none

theorem Datum.cells_flat {d : Datum} (flat : ∀ elements, d ≠ .list elements)
    (none : d.carried? = none) :
    d.cells = [] := by
  cases d with
  | list elements => exact absurd rfl (flat elements)
  | flow kind c =>
    simp only [carried?] at none
    simp [none, cells]
  | _ => rfl

theorem Datum.mem_cells_of_carried {d : Datum} {c : CellId} (carries : d.carried? = some c) :
    c ∈ d.cells := by
  cases d with
  | flow kind e =>
    simp only [carried?] at carries
    simp [carries, cells]
  | _ => simp [carried?] at carries

/-- The value in the cell `c` refers to the cell `e`, as a list element or as the cell it
carries. -/
def Heap.Refers (h : Heap) (c e : CellId) : Prop := e ∈ (h.get c).cells

def Scope.Reaches (s : Scope) (h : Heap) (c : CellId) : Prop :=
  ∃ p ∈ s.bindings, Relation.ReflTransGen h.Refers p.2 c

theorem Heap.Holds.refers {h : Heap} {c e : CellId} (holds : h.Holds c e) : h.Refers c e :=
  (h.get c).elements_subset_cells holds

theorem Scope.Reaches.refers {s : Scope} {h : Heap} {c e : CellId} (reaches : s.Reaches h c)
    (refers : h.Refers c e) : s.Reaches h e := by
  obtain ⟨p, bound, path⟩ := reaches
  exact ⟨p, bound, path.tail refers⟩

theorem Scope.Reaches.of_region {s : Scope} {h : Heap} {c : CellId} (reaches : s.Reaches h c)
    (region : CellId → Prop) (bound : ∀ p ∈ s.bindings, region p.2)
    (closed : ∀ c e, region c → h.Refers c e → region e) : region c := by
  obtain ⟨p, member, path⟩ := reaches
  induction path with
  | refl => exact bound p member
  | tail _ refers ih => exact closed _ _ ih refers

section Captured

/- A scope, its copy, and a heap that has the cells of the copy and possibly more. -/
variable {s copy : Scope} {h g : Heap} {done : Duplication}
  (copying : Duplication.Copying h (s.Lists h) [] done) (later : done.heap.Extends g)
  (bound : List.Forall₂ (fun p q => q.1 = p.1 ∧ (p.2, q.2) ∈ done.images) s.bindings copy.bindings)
include copying later

theorem image_refers_image (none : ∀ c, s.Lists h c → (h.get c).carried? = none) {c dup e : CellId}
    (image : (c, dup) ∈ done.images) (refers : g.Refers dup e) : ∃ x, (x, e) ∈ done.images := by
  have mirrors := copying.filled _ image (by simp)
  rw [Heap.Refers, later.get_eq dup (copying.new _ image).2] at refers
  unfold Duplication.Mirrors at mirrors
  split at mirrors
  · obtain ⟨dups, held, images⟩ := mirrors
    rw [held] at refers
    obtain ⟨x, _, image⟩ := exists_left_of_mem images refers
    exact ⟨x, image⟩
  · rename_i flat
    rw [mirrors, Datum.cells_flat flat (none c (copying.old _ image).2)] at refers
    simp at refers

include bound

/-- The copy leads to the image of every cell that the scope leads to through lists. -/
theorem image_reached {c : CellId} (lists : s.Lists h c) :
    ∃ dup, (c, dup) ∈ done.images ∧ copy.Reaches g dup := by
  obtain ⟨p, member, path⟩ := lists
  induction path with
  | refl =>
    obtain ⟨q, captured, _, image⟩ := exists_right_of_mem bound member
    exact ⟨q.2, image, q, captured, .refl⟩
  | @tail c e _ holds ih =>
    obtain ⟨dup, image, reaches⟩ := ih
    obtain ⟨x, image', held⟩ := (copying.filled _ image (by simp)).holds holds
    refine ⟨x, image', reaches.refers ?_⟩
    rw [Heap.Refers, later.get_eq dup (copying.new _ image).2]
    exact held.refers

theorem new_reached {c : CellId} (above : h.size ≤ c) (below : c < done.heap.size) :
    copy.Reaches g c := by
  obtain ⟨p, image, rfl⟩ := copying.every c above below
  obtain ⟨dup, image', reaches⟩ := image_reached copying later bound (copying.old p image).2
  rwa [copying.image_unique image image']

theorem reached_is_image (none : ∀ c, s.Lists h c → (h.get c).carried? = none) {e : CellId}
    (reaches : copy.Reaches g e) : ∃ x, (x, e) ∈ done.images := by
  apply reaches.of_region fun e => ∃ x, (x, e) ∈ done.images
  · intro q member
    obtain ⟨p, _, _, image⟩ := exists_left_of_mem bound member
    exact ⟨p.2, image⟩
  · rintro c e ⟨x, image⟩ refers
    exact image_refers_image copying later none image refers

/-- The copy leads to no old cell exactly if nothing in the lists of the scope carries a cell. -/
theorem apart_iff_nothing_carried (closed : h.Closed) : (∀ e, copy.Reaches g e → h.size ≤ e) ↔
    ∀ c, s.Lists h c → (h.get c).carried? = none := by
  constructor
  · intro apart c lists
    cases carries : (h.get c).carried? with
    | none => rfl
    | some e =>
      have refers := Datum.mem_cells_of_carried carries
      obtain ⟨dup, image, reaches⟩ := image_reached copying later bound lists
      have mirrors := copying.filled _ image (by simp)
      unfold Duplication.Mirrors at mirrors
      split at mirrors
      · rename_i isList
        simp [isList, Datum.carried?] at carries
      · rw [← mirrors, ← later.get_eq dup (copying.new _ image).2] at refers
        exact absurd (closed c e (Datum.mem_cells_of_carried carries))
          (Nat.not_lt.mpr (apart e (reaches.refers refers)))
  · intro none e reaches
    obtain ⟨x, image⟩ := reached_is_image copying later bound none reaches
    exact (copying.new _ image).1

end Captured

namespace Heap

/-- Cells that refer only to each other, with all cells that are still to be made. -/
structure Fenced (h : Heap) (free : CellId → Prop) : Prop where
  closed : ∀ c e, free c → h.Refers c e → free e
  later : ∀ c, h.size ≤ c → free c

structure Spares (free : CellId → Prop) (h g : Heap) : Prop where
  fenced : g.Fenced free
  same : ∀ c, ¬ free c → g.get c = h.get c

variable {h : Heap} {free : CellId → Prop}

theorem fenced_of_closed {region : CellId → Prop}
    (closed : ∀ c e, region c → h.Refers c e → region e) :
    h.Fenced fun c => region c ∨ h.size ≤ c := by
  constructor
  · intro c e held refers
    rcases held with inside | outside
    · exact Or.inl (closed c e inside refers)
    · rw [Refers, get_outside outside] at refers
      simp [Datum.cells] at refers
  · exact fun c outside => Or.inr outside

theorem Fenced.refl (fenced : h.Fenced free) : h.Spares free h := ⟨fenced, fun _ _ => rfl⟩

theorem Spares.trans {g k : Heap} (first : h.Spares free g) (second : g.Spares free k) :
    h.Spares free k :=
  ⟨second.fenced, fun c held => by rw [second.same c held, first.same c held]⟩

theorem Fenced.alloc (fenced : h.Fenced free) {d : Datum} (inside : ∀ c ∈ d.cells, free c) :
    h.Spares free (h.alloc d).2 := by
  refine ⟨⟨?_, ?_⟩, ?_⟩
  · intro c e isFree refers
    by_cases old : c < h.size
    · rw [Refers, get_alloc_old h d old] at refers
      exact fenced.closed c e isFree refers
    · by_cases last : c = h.size
      · rw [Refers, last, get_alloc_self] at refers
        exact inside e refers
      · have outside : (h.alloc d).2.size ≤ c := by
          rw [size_alloc]
          exact Nat.lt_of_le_of_ne (Nat.le_of_not_lt old) (Ne.symm last)
        rw [Refers, get_outside outside] at refers
        simp [Datum.cells] at refers
  · intro c outside
    simp only [size_alloc] at outside
    exact fenced.later c (by omega)
  · intro c held
    have old : c < h.size := Nat.lt_of_not_le fun outside => held (fenced.later c outside)
    exact get_alloc_old h d old

theorem Fenced.set (fenced : h.Fenced free) {target : CellId} (isFree : free target) {d : Datum}
    (inside : ∀ c ∈ d.cells, free c) : h.Spares free (h.set target d) := by
  have same : ∀ c, target ≠ c → (h.set target d).get c = h.get c := fun c ne => get_set_ne h d ne
  refine ⟨⟨?_, by simpa using fenced.later⟩, ?_⟩
  · intro c e held refers
    by_cases own : target = c
    · subst own
      by_cases old : target < h.size
      · rw [Refers, get_set_self h d old] at refers
        exact inside e refers
      · rw [Refers, get_outside (by simpa using old)] at refers
        simp [Datum.cells] at refers
    · rw [Refers, same c own] at refers
      exact fenced.closed c e held refers
  · intro c held
    exact same c fun own => held (own ▸ isFree)

theorem copyCells_spares {copy : Datum → Heap → Datum × Heap}
    (one : ∀ d h, h.Fenced free → (∀ c ∈ d.cells, free c) →
      h.Spares free (copy d h).2 ∧ ∀ c ∈ (copy d h).1.cells, free c)
    (list : List CellId) (inside : ∀ c ∈ list, free c) (fenced : h.Fenced free) :
    h.Spares free (copyCells copy list h).2 ∧ ∀ c ∈ (copyCells copy list h).1, free c := by
  induction list generalizing h with
  | nil => exact ⟨fenced.refl, by simp [copyCells]⟩
  | cons c rest ih =>
    have isFree := inside c List.mem_cons_self
    obtain ⟨copied, cells⟩ := one (h.get c) h fenced fun e refers => fenced.closed c e isFree refers
    have made := copied.fenced.alloc cells
    obtain ⟨others, dups⟩ :=
      ih (fun e member => inside e (List.mem_cons_of_mem c member)) made.fenced
    refine ⟨copied.trans (made.trans others), ?_⟩
    intro e member
    rcases List.mem_cons.mp member with rfl | member
    · exact copied.fenced.later _ (Nat.le_refl _)
    · exact dups e member

theorem copyWithin_spares (budget : Nat) (d : Datum) (fenced : h.Fenced free)
    (inside : ∀ c ∈ d.cells, free c) :
    h.Spares free (copyWithin budget d h).2 ∧ ∀ c ∈ (copyWithin budget d h).1.cells, free c := by
  induction budget generalizing d h with
  | zero => exact ⟨fenced.refl, inside⟩
  | succ budget ih =>
    cases d with
    | list elements =>
      exact copyCells_spares (fun d h fenced inside => ih d fenced inside) elements inside fenced
    | _ => exact ⟨fenced.refl, inside⟩

end Heap

/-- What can be done with cells that are at hand: a value of them is put in a new cell, or a copy of
it is; a variable is assigned; a list is pushed to or popped from. -/
inductive Deed (free : CellId → Prop) (m : Machine) : Eval CellId → Prop where
  | value (d : Datum) (inside : ∀ c ∈ d.cells, free c) : Deed free m (alloc d)
  | copied (d : Datum) (inside : ∀ c ∈ d.cells, free c) : Deed free m (do alloc (← Eval.copy d))
  | assign (args : List Prepared) (bound : ∀ p ∈ m.scope.bindings, free p.2)
    (inside : ∀ p ∈ args, ∀ c, p.cell = some c → free c) :
      Deed free m (ContextFunction.runAssign args)
  | push (args : List CellId) (inside : ∀ c ∈ args, free c) :
      Deed free m (SystemFunction.runPush args)
  | pop (target : CellId) (inside : free target) : Deed free m (SystemFunction.runPop target)

inductive Worked (free : CellId → Prop) (m : Machine) : Machine → Prop where
  | nothing : Worked free m m
  | deed {n : Machine} {x : Eval CellId} (earlier : Worked free m n) (scope : Scope)
    (deed : Deed free { n with scope } x) : Worked free m (after x { n with scope })

section Sparing

variable {free : CellId → Prop} {m : Machine}

abbrev Sparing {α : Type} (free : CellId → Prop) (good : α → Prop) (x : Eval α) (m : Machine) :
    Prop :=
  Keeps (fun m n => m.heap.Spares free n.heap) (fun a _ => good a) x m

theorem sparing_trans (m n k : Machine) (first : m.heap.Spares free n.heap)
    (second : n.heap.Spares free k.heap) :
    m.heap.Spares free k.heap :=
  first.trans second

theorem sparing_alloc (fenced : m.heap.Fenced free) {d : Datum} (inside : ∀ c ∈ d.cells, free c) :
    Sparing free free (alloc d) m :=
  ⟨fenced.alloc inside, fenced.later _ (Nat.le_refl _)⟩

theorem sparing_copy (fenced : m.heap.Fenced free) {d : Datum} (inside : ∀ c ∈ d.cells, free c) :
    Sparing free (fun d => ∀ c ∈ d.cells, free c) (Eval.copy d) m :=
  Heap.copyWithin_spares _ d fenced inside

theorem sparing_store (fenced : m.heap.Fenced free) {c : CellId} {d : Datum} (isFree : free c)
    (inside : ∀ c ∈ d.cells, free c) : Sparing free (fun _ => True) (store c d) m :=
  ⟨fenced.set isFree inside, trivial⟩

theorem sparing_unit (fenced : m.heap.Fenced free) : Sparing free free Eval.unit m :=
  sparing_alloc fenced (by simp [Datum.cells])

theorem sparing_copied (fenced : m.heap.Fenced free) {d : Datum} (inside : ∀ c ∈ d.cells, free c) :
    Sparing free free (do alloc (← Eval.copy d)) m := by
  apply Keeps.bind sparing_trans (sparing_copy fenced inside)
  intro e n spares ok
  exact sparing_alloc spares.fenced ok

theorem sparing_lookup (fenced : m.heap.Fenced free) (bound : ∀ p ∈ m.scope.bindings, free p.2)
    (name : Name) :
    Keeps (fun m n => m.heap.Spares free n.heap) (fun c n => n = m ∧ free c) (lookup name) m := by
  apply keeps_get
  apply keeps_ofExcept fenced.refl
  intro c found
  unfold Scope.lookup at found
  split at found
  · rename_i held
    cases found
    obtain ⟨before, after, bindings, _⟩ := List.lookup_eq_some_iff.mp held
    refine ⟨rfl, bound (name, c) ?_⟩
    rw [bindings]
    exact List.mem_append_right before List.mem_cons_self
  · cases found

theorem sparing_assign (fenced : m.heap.Fenced free) {args : List Prepared}
    (bound : ∀ p ∈ m.scope.bindings, free p.2)
    (inside : ∀ p ∈ args, ∀ c, p.cell = some c → free c) :
    Sparing free free (ContextFunction.runAssign args) m := by
  unfold ContextFunction.runAssign
  split
  · rename_i target value
    split
    · rename_i name _
      apply Keeps.bind sparing_trans (sparing_lookup fenced bound name)
      rintro c n - ⟨rfl, held⟩
      apply Keeps.bind sparing_trans (keeps_need (fun v k => k = n ∧ free v) fenced.refl
        fun v found => ⟨rfl, inside value (by simp) v found⟩)
      rintro v k - ⟨rfl, ok⟩
      apply keeps_contents
      apply Keeps.bind sparing_trans
        (sparing_copy fenced fun e refers => fenced.closed v e ok refers)
      intro d j spares cells
      apply Keeps.bind sparing_trans (sparing_store spares.fenced held cells)
      intro _ i spares' _
      exact sparing_unit spares'.fenced
    · exact keeps_get (keeps_fail fenced.refl)
  · exact keeps_throw fenced.refl

theorem sparing_detached (fenced : m.heap.Fenced free) {target c : CellId} (isFree : free c) :
    Sparing free free (SystemFunction.detached target c) m := by
  unfold SystemFunction.detached
  apply keeps_get
  split
  · apply keeps_contents
    exact sparing_copied fenced fun e refers => fenced.closed c e isFree refers
  · exact keeps_pure fenced.refl isFree

theorem sparing_elements (fenced : m.heap.Fenced free) {target : CellId} (isFree : free target) :
    Keeps (fun m n => m.heap.Spares free n.heap) (fun elements n => n = m ∧ ∀ c ∈ elements, free c)
      (expectList target) m := by
  apply keeps_expect _ fenced.refl
  intro elements held
  refine ⟨rfl, fun e member => fenced.closed target e isFree ?_⟩
  rw [Heap.Refers, Datum.eq_list held]
  exact member

theorem sparing_push (fenced : m.heap.Fenced free) {args : List CellId}
    (inside : ∀ c ∈ args, free c) :
    Sparing free free (SystemFunction.runPush args) m := by
  cases args with
  | nil => exact keeps_fail fenced.refl
  | cons target rest =>
    have isFree := inside target List.mem_cons_self
    apply Keeps.bind sparing_trans (sparing_elements fenced isFree)
    rintro elements n - ⟨rfl, before⟩
    have added : Sparing free (fun added => ∀ c ∈ added, free c)
        (rest.mapM (SystemFunction.detached target)) n := by
      apply keeps_mapM sparing_trans (fun c _ => free c) fenced.refl
      · exact fun c n k _ isFree => isFree
      · exact fun n k spares => spares.fenced.refl
      · exact fun c member k spares =>
          sparing_detached spares.fenced (inside c (List.mem_cons_of_mem target member))
    apply Keeps.bind sparing_trans added
    intro added k spares new
    have cells : ∀ c ∈ (Datum.list (elements ++ added)).cells, free c := by
      intro c member
      rcases List.mem_append.mp member with member | member
      · exact before c member
      · exact new c member
    apply Keeps.bind sparing_trans (sparing_store spares.fenced isFree cells)
    intro _ j spares' _
    exact sparing_unit spares'.fenced

theorem sparing_pop (fenced : m.heap.Fenced free) {target : CellId} (isFree : free target) :
    Sparing free free (SystemFunction.runPop target) m := by
  apply Keeps.bind sparing_trans (sparing_elements fenced isFree)
  rintro elements n - ⟨rfl, before⟩
  split
  · rename_i last found
    have cells : ∀ c ∈ (Datum.list elements.dropLast).cells, free c := by
      intro c member
      exact before c (List.dropLast_subset elements member)
    apply Keeps.bind sparing_trans (sparing_store fenced isFree cells)
    intro _ k spares _
    exact keeps_pure spares.fenced.refl (before last (List.mem_of_getLast? found))
  · exact keeps_fail fenced.refl

theorem Deed.spares {x : Eval CellId} (deed : Deed free m x) (fenced : m.heap.Fenced free) :
    m.heap.Spares free (after x m).heap := by
  cases deed with
  | value d inside => exact (sparing_alloc fenced inside).move
  | copied d inside => exact (sparing_copied fenced inside).move
  | assign args bound inside => exact (sparing_assign fenced bound inside).move
  | push args inside => exact (sparing_push fenced inside).move
  | pop target inside => exact (sparing_pop fenced inside).move

theorem Worked.spares {n : Machine} (worked : Worked free m n) (fenced : m.heap.Fenced free) :
    m.heap.Spares free n.heap := by
  induction worked with
  | nothing => exact fenced.refl
  | deed _ scope deed ih => exact ih.trans (deed.spares ih.fenced)

end Sparing

theorem runDefine_ok {m n : Machine} {args : List Prepared} {c : CellId}
    (defined : ContextFunction.runDefine args m = .ok c n) :
    ∃ outline : Outline, n.registry.functions =
        m.registry.functions.push (.defined (outline.close (m.scope.snapshot m.heap).1)) ∧
      n.heap = ((m.scope.snapshot m.heap).2.alloc .unit).2 := by
  unfold ContextFunction.runDefine at defined
  cases read : Outline.ofArguments (args.map Prepared.raw) with
  | ok outline =>
    rw [read] at defined
    cases defined
    exact ⟨outline, rfl, rfl⟩
  | error fault =>
    rw [read] at defined
    cases defined

section Apart

variable {s copy : Scope} {h : Heap} {done : Duplication}
  (copying : Duplication.Copying h (s.Lists h) [] done)
  (bound : List.Forall₂ (fun p q => q.1 = p.1 ∧ (p.2, q.2) ∈ done.images) s.bindings copy.bindings)
  (none : ∀ c, s.Lists h c → (h.get c).carried? = none)
include copying bound none

theorem fenced_outside (closed : h.Closed) :
    (done.heap.alloc .unit).2.Fenced fun c => ¬ copy.Reaches (done.heap.alloc .unit).2 c := by
  have later := Heap.extends_alloc done.heap .unit
  constructor
  · intro c e unreached refers reaches
    obtain ⟨x, image⟩ := reached_is_image copying later bound none reaches
    by_cases below : c < done.heap.size
    · have old : c < h.size :=
        Nat.lt_of_not_le fun above => unreached (new_reached copying later bound above below)
      rw [Heap.Refers, (copying.grown.trans later).get_eq c old] at refers
      exact absurd (closed c e refers) (Nat.not_lt.mpr (copying.new _ image).1)
    · have unit : (done.heap.alloc .unit).2.get c = .unit := by
        by_cases last : c = done.heap.size
        · rw [last, Heap.get_alloc_self]
        · apply Heap.get_outside
          rw [Heap.size_alloc]
          exact Nat.lt_of_le_of_ne (Nat.le_of_not_lt below) (Ne.symm last)
      rw [Heap.Refers, unit] at refers
      simp [Datum.cells] at refers
  · intro c outside reaches
    obtain ⟨x, image⟩ := reached_is_image copying later bound none reaches
    have below := Nat.lt_of_lt_of_le (copying.new _ image).2 later.size_le
    exact absurd below (Nat.not_lt.mpr outside)

end Apart

theorem fenced_inside (s : Scope) (h : Heap) : h.Fenced fun c => s.Reaches h c ∨ h.size ≤ c :=
  Heap.fenced_of_closed fun _ _ reaches refers => reaches.refers refers

theorem Scope.Reaches.old {s : Scope} {h g : Heap} (inside : s.Within h.size) (closed : h.Closed)
    (grown : h.Extends g) {c : CellId} (reaches : s.Reaches g c) : c < h.size := by
  apply reaches.of_region (· < h.size) inside
  intro c e old refers
  rw [Heap.Refers, grown.get_eq c old] at refers
  exact closed c e refers

theorem Scope.snapshot_names {s : Scope} {h : Heap} (closed : h.Closed) (inside : s.Within h.size) :
    (s.snapshot h).1.names = s.names := by
  obtain ⟨done, _, _, bound⟩ := Scope.snapshot_images closed inside
  have pairs : List.Forall₂ (· = ·) s.names (s.snapshot h).1.names := by
    rw [Scope.names, Scope.names, List.forall₂_map_left_iff, List.forall₂_map_right_iff]
    exact bound.imp fun _ _ image => image.1.symm
  rw [List.forall₂_eq_eq_eq] at pairs
  exact pairs.symm

/-- A new function captures a copy of every variable. The copy leads to a cell that was there before
only through a cell that a value in the lists of the scope carries. If no value there carries one,
then work with cells outside of the copy leaves the copy as it is, and work with the copy leaves
what the scope leads to. -/
theorem captured_scope_apart {m : Machine} (reached : Reached m) {scope : Scope}
    (inside : scope.Within m.heap.size) {args : List Prepared} {result : CellId} {n : Machine}
    (defined : ContextFunction.runDefine args { m with scope } = .ok result n) :
    ∃ f : Definition, n.registry.functions = m.registry.functions.push (.defined f) ∧
      f.closure.names = scope.names ∧
      ((∀ c, f.closure.Reaches n.heap c → m.heap.size ≤ c) ↔
        ∀ c, scope.Lists m.heap c → (m.heap.get c).carried? = none) ∧
      ((∀ c, scope.Lists m.heap c → (m.heap.get c).carried? = none) →
        (∀ k, Worked (fun c => ¬ f.closure.Reaches n.heap c) n k →
          ∀ c, f.closure.Reaches n.heap c → k.heap.get c = n.heap.get c) ∧
        ∀ k, Worked (fun c => f.closure.Reaches n.heap c ∨ n.heap.size ≤ c) n k →
          ∀ c, scope.Reaches n.heap c → k.heap.get c = n.heap.get c) := by
  have closed := reached.sound.heap.closed
  obtain ⟨outline, added, heap⟩ := runDefine_ok defined
  obtain ⟨done, copied, copying, bound⟩ := Scope.snapshot_images closed inside
  -- The cell of the result is made after the copy, so the copy is still there.
  have later : done.heap.Extends n.heap := by
    rw [heap, copied]
    exact Heap.extends_alloc done.heap .unit
  have cut := apart_iff_nothing_carried copying later bound closed
  refine ⟨_, added, Scope.snapshot_names closed inside, cut, ?_⟩
  intro none
  have apart := cut.mpr none
  constructor
  · intro k worked c reaches
    have fenced := fenced_outside copying bound none closed
    rw [← copied, ← heap] at fenced
    exact (worked.spares fenced).same c (not_not_intro reaches)
  · intro k worked c reaches
    have old := reaches.old inside closed (copying.grown.trans later)
    apply (worked.spares (fenced_inside _ n.heap)).same c
    rintro (captured | outside)
    · exact absurd old (Nat.not_lt.mpr (apart c captured))
    · exact absurd (Nat.lt_of_lt_of_le old (copying.grown.trans later).size_le)
        (Nat.not_lt.mpr outside)

def makeVariable : Program :=
  [⟨utf8 "let", [.ident (utf8 "x"), .call (utf8 "list") [.literal (.number (.ofNat 1))]]⟩]

theorem captured_scope_apart_list :
    let m := ((Interpreter.new 0 false (.ofInput [])).execute 4 .endless makeVariable).2.machine
    let args : List Prepared := [⟨.ident (utf8 "g"), none⟩, ⟨.ident (utf8 "any"), none⟩,
      ⟨.call (utf8 "pop") [.ident (utf8 "x")], none⟩]
    ∃ result n, ContextFunction.runDefine args { m with scope := m.scope } = .ok result n ∧
      ∃ f, n.registry.functions = m.registry.functions.push (.defined f) ∧
        ∀ c, f.closure.Reaches n.heap c → m.heap.size ≤ c := by
  intro m args
  have hosted := Interpreter.Hosted.new 0 false (.ofInput [])
  have reached : Reached m := .between (hosted.execute 4 .endless makeVariable (by
    simp [makeVariable, Invocation.Every, Argument.EveryOf, Argument.Every, Datum.Within,
      Datum.cells]))
  have nothing : ∀ c, (m.heap.get c).carried? = none := by
    intro c
    by_cases inside : c < m.heap.size
    · exact (by decide +kernel : ∀ c < m.heap.size, (m.heap.get c).carried? = none) c inside
    · rw [Heap.get_outside (Nat.le_of_not_lt inside)]
      rfl
  cases run : ContextFunction.runDefine args { m with scope := m.scope } with
  | ok result n =>
    obtain ⟨f, added, _, cut, _⟩ := captured_scope_apart reached reached.sound.scope run
    exact ⟨result, n, rfl, f, added, cut.mpr fun c _ => nothing c⟩
  | error stop n =>
    have defined :
        (EStateM.run' (fun _ => ContextFunction.runDefine args { m with scope := m.scope })
          m).isSome = true := by
      decide +kernel
    rw [run] at defined
    cases defined

/-- `let(x, list(1)) let(r, return(x)) fn(g, any, if(true, r)) push(x, 5) println(g())` -/
def captureReturn : Program :=
  [⟨utf8 "let", [.ident (utf8 "x"), .call (utf8 "list") [.literal (.number (.ofNat 1))]]⟩,
    ⟨utf8 "let", [.ident (utf8 "r"), .call (utf8 "return") [.ident (utf8 "x")]]⟩,
    ⟨utf8 "fn", [.ident (utf8 "g"), .ident (utf8 "any"),
      .call (utf8 "if") [.ident (utf8 "true"), .ident (utf8 "r")]]⟩,
    ⟨utf8 "push", [.ident (utf8 "x"), .literal (.number (.ofNat 5))]⟩,
    ⟨utf8 "println", [.call (utf8 "g") []]⟩]

def Function.captured : Function → Scope
  | .defined f => f.closure
  | .system _ | .context _ => .empty

/-- A captured return leads to the variable that it carries, and shows what is pushed to it
later. -/
theorem captured_return_shared :
    let m := ((Interpreter.new 0 false (.ofInput [])).execute 6 .endless captureReturn).2.machine
    m.console.output = utf8 "[1, 5]\n" ∧
      ∃ f ∈ m.registry.functions.toList, ∃ c, m.scope.find? (utf8 "x") = some c ∧
        f.captured.Reaches m.heap c := by
  intro m
  refine ⟨by decide +kernel, ?_⟩
  have carried : ∃ f ∈ m.registry.functions.toList, ∃ p ∈ f.captured.bindings,
      ∃ c ∈ (m.heap.get p.2).carried?, m.scope.find? (utf8 "x") = some c := by decide +kernel
  obtain ⟨f, registered, p, bound, c, carries, found⟩ := carried
  exact ⟨f, registered, c, found, p, bound, .single (Datum.mem_cells_of_carried carries)⟩

end CallScript
