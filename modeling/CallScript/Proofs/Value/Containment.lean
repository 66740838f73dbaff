import Mathlib.Logic.Relation
import Mathlib.Data.Finset.Card
import CallScript.Value.Heap

/- Which cells hold which. A list cell holds its elements; a heap is acyclic when no cell holds
   itself, at any depth. In an acyclic heap a list nests at most as deep as there are cells, which
   is the budget that the functions following list elements are given. -/
namespace CallScript

namespace Datum

def cells : Datum → List CellId
  | .list elements => elements
  | .flow _ (some c) => [c]
  | _ => []

def Within (d : Datum) (bound : Nat) : Prop := ∀ c ∈ d.cells, c < bound

theorem elements_subset_cells (d : Datum) : d.elements ⊆ d.cells := by
  cases d <;> simp [elements, cells]

theorem Within.mono {d : Datum} {bound larger : Nat} (inside : d.Within bound)
    (le : bound ≤ larger) : d.Within larger := by
  intro c member
  exact Nat.lt_of_lt_of_le (inside c member) le

theorem Within.element {d : Datum} {bound : Nat} {c : CellId} (inside : d.Within bound)
    (member : c ∈ d.elements) : c < bound :=
  inside c (d.elements_subset_cells member)

theorem elements_eq_nil {d : Datum} (flat : d.list? = none) : d.elements = [] := by
  cases d <;> simp_all [elements, list?]

theorem eq_list {d : Datum} {elements : List CellId} (h : d.list? = some elements) :
    d = .list elements := by
  cases d <;> simp_all [list?]

end Datum

namespace Heap

def Holds (h : Heap) (c e : CellId) : Prop := e ∈ (h.get c).elements

def Acyclic (h : Heap) : Prop := ∀ c, ¬ Relation.TransGen h.Holds c c

def Closed (h : Heap) : Prop := ∀ c, (h.get c).Within h.size

structure Sound (h : Heap) : Prop where
  closed : h.Closed
  acyclic : h.Acyclic

/-- A number for every cell that falls from a list to its elements. -/
def Ranked (h : Heap) (rank : CellId → Nat) : Prop := ∀ c e, h.Holds c e → rank e < rank c

/-- The lists of a value nest at most so deep. -/
def Nested (h : Heap) : Nat → Datum → Prop
  | 0, d => d.list? = none
  | depth + 1, d => ∀ c ∈ d.elements, h.Nested depth (h.get c)

structure Extends (h g : Heap) : Prop where
  size_le : h.size ≤ g.size
  get_eq : ∀ c < h.size, g.get c = h.get c

theorem get_outside {h : Heap} {c : CellId} (outside : h.size ≤ c) : h.get c = .unit := by
  simp only [size] at outside
  simp [get, outside]

theorem holds_inside {h : Heap} {c e : CellId} (holds : h.Holds c e) : c < h.size := by
  by_contra outside
  rw [Holds, get_outside (Nat.le_of_not_lt outside)] at holds
  simp [Datum.elements] at holds

theorem Closed.holds {h : Heap} (closed : h.Closed) {c e : CellId} (holds : h.Holds c e) :
    e < h.size :=
  (closed c).element holds

theorem Ranked.falls {h : Heap} {rank : CellId → Nat} (ranked : h.Ranked rank) {c e : CellId}
    (path : Relation.TransGen h.Holds c e) : rank e < rank c := by
  induction path with
  | single holds => exact ranked _ _ holds
  | tail _ holds ih => exact Nat.lt_trans (ranked _ _ holds) ih

theorem Ranked.acyclic {h : Heap} {rank : CellId → Nat} (ranked : h.Ranked rank) : h.Acyclic := by
  intro c cycle
  have := ranked.falls cycle
  omega

theorem Acyclic.apart {h : Heap} (acyclic : h.Acyclic) {c e : CellId} (holds : h.Holds c e) :
    ¬ Relation.ReflTransGen h.Holds e c :=
  fun path => acyclic c (.head' holds path)

/-- The cells that can be reached from a cell, itself among them, are fewer for its elements. -/
theorem Acyclic.exists_height {h : Heap} (acyclic : h.Acyclic) :
    ∃ height, h.Ranked height ∧ ∀ c, height c ≤ h.size ∧ (c < h.size → 0 < height c) := by
  classical
  let reached (c : CellId) := (Finset.range h.size).filter fun e =>
    Relation.ReflTransGen h.Holds c e
  have own : ∀ c < h.size, c ∈ reached c := fun c inside =>
    Finset.mem_filter.mpr ⟨Finset.mem_range.mpr inside, .refl⟩
  refine ⟨fun c => (reached c).card, ?_, ?_⟩
  · intro c e holds
    apply Finset.card_lt_card
    rw [Finset.ssubset_iff_of_subset]
    · refine ⟨c, own c (holds_inside holds), ?_⟩
      simp only [reached, Finset.mem_filter, not_and]
      exact fun _ => acyclic.apart holds
    · intro x member
      simp only [reached, Finset.mem_filter] at member ⊢
      exact ⟨member.1, .head holds member.2⟩
  · intro c
    constructor
    · simpa using Finset.card_le_card (Finset.filter_subset _ (Finset.range h.size))
    · exact fun inside => Finset.card_pos.mpr ⟨c, own c inside⟩

theorem Sound.exists_rank {h : Heap} (sound : h.Sound) :
    ∃ rank, h.Ranked rank ∧ ∀ c < h.size, rank c < h.size := by
  obtain ⟨height, ranked, bounds⟩ := sound.acyclic.exists_height
  refine ⟨fun c => height c - 1, ?_, ?_⟩
  · intro c e holds
    have falls := ranked c e holds
    have positive := (bounds e).2 (sound.closed.holds holds)
    show height e - 1 < height c - 1
    omega
  · intro c inside
    have := bounds c
    show height c - 1 < h.size
    omega

theorem nested_of_height {h : Heap} {height : CellId → Nat} (ranked : h.Ranked height)
    (positive : ∀ c < h.size, 0 < height c) (depth : Nat) {c : CellId} (low : height c ≤ depth) :
    h.Nested depth (h.get c) := by
  induction depth generalizing c with
  | zero =>
    have outside : ¬ c < h.size := fun inside => Nat.not_lt.mpr low (positive c inside)
    rw [get_outside (Nat.le_of_not_lt outside)]
    rfl
  | succ depth ih =>
    intro e member
    have := ranked c e member
    exact ih (by omega)

theorem Acyclic.nested {h : Heap} (acyclic : h.Acyclic) (d : Datum) : h.Nested (h.size + 1) d := by
  obtain ⟨height, ranked, bounds⟩ := acyclic.exists_height
  intro c _
  exact nested_of_height ranked (fun e => (bounds e).2) h.size (bounds c).1

theorem Extends.refl (h : Heap) : h.Extends h := ⟨Nat.le_refl _, fun _ _ => rfl⟩

theorem Extends.trans {h g k : Heap} (first : h.Extends g) (second : g.Extends k) :
    h.Extends k := by
  refine ⟨Nat.le_trans first.size_le second.size_le, ?_⟩
  intro c inside
  rw [second.get_eq c (Nat.lt_of_lt_of_le inside first.size_le), first.get_eq c inside]

theorem extends_alloc (h : Heap) (d : Datum) : h.Extends (h.alloc d).2 :=
  ⟨by simp, fun _ inside => get_alloc_old h d inside⟩

theorem Extends.path {h g : Heap} (grown : h.Extends g) (closed : h.Closed) {c e : CellId}
    (old : c < h.size) (path : Relation.ReflTransGen g.Holds c e) :
    Relation.ReflTransGen h.Holds c e := by
  induction path using Relation.ReflTransGen.head_induction_on with
  | refl => exact .refl
  | @head c d holds _ ih =>
    rw [Holds, grown.get_eq c old] at holds
    exact .head holds (ih (closed.holds holds))

theorem Extends.nested {h g : Heap} (grown : h.Extends g) (closed : h.Closed) {depth : Nat}
    {d : Datum} (inside : d.Within h.size) (nested : h.Nested depth d) : g.Nested depth d := by
  induction depth generalizing d with
  | zero => exact nested
  | succ depth ih =>
    intro c member
    have old : c < h.size := inside.element member
    rw [grown.get_eq c old]
    exact ih (closed c) (nested c member)

theorem holds_alloc {h : Heap} {d : Datum} {c e : CellId} :
    (h.alloc d).2.Holds c e ↔ c = h.size ∧ e ∈ d.elements ∨ h.Holds c e := by
  rcases Nat.lt_trichotomy c h.size with before | same | after
  · rw [Holds, get_alloc_old h d before]
    simp [Holds, Nat.ne_of_lt before]
  · subst same
    rw [Holds, get_alloc_self]
    simp [Holds, get_outside (Nat.le_refl h.size), Datum.elements]
  · rw [Holds, get_outside (by simp; omega)]
    simp [Holds, get_outside (Nat.le_of_lt after), Datum.elements, Nat.ne_of_gt after]

theorem Closed.alloc {h : Heap} (closed : h.Closed) {d : Datum} (inside : d.Within h.size) :
    (h.alloc d).2.Closed := by
  intro c
  rw [size_alloc]
  rcases Nat.lt_trichotomy c h.size with before | same | after
  · rw [get_alloc_old h d before]
    exact (closed c).mono (Nat.le_succ _)
  · subst same
    rw [get_alloc_self]
    exact inside.mono (Nat.le_succ _)
  · rw [get_outside (by simp; omega)]
    intro e member
    simp [Datum.cells] at member

theorem Ranked.alloc {h : Heap} {rank : CellId → Nat} (closed : h.Closed) (ranked : h.Ranked rank)
    {d : Datum} (inside : d.Within h.size) {top : Nat} (above : ∀ e ∈ d.elements, rank e < top) :
    (h.alloc d).2.Ranked fun c => if c = h.size then top else rank c := by
  intro c e holds
  rcases holds_alloc.mp holds with ⟨rfl, member⟩ | holds
  · have old := inside.element member
    simp [Nat.ne_of_lt old, above e member]
  · have old := closed.holds holds
    simp [Nat.ne_of_lt (holds_inside holds), Nat.ne_of_lt old, ranked c e holds]

theorem Sound.alloc {h : Heap} (sound : h.Sound) {d : Datum} (inside : d.Within h.size) :
    (h.alloc d).2.Sound := by
  obtain ⟨rank, ranked, low⟩ := sound.exists_rank
  have above : ∀ e ∈ d.elements, rank e < h.size := fun e member => low e (inside.element member)
  exact ⟨sound.closed.alloc inside, (ranked.alloc sound.closed inside above).acyclic⟩

theorem holds_set {h : Heap} {target : CellId} {d : Datum} {c e : CellId}
    (holds : (h.set target d).Holds c e) :
    c = target ∧ e ∈ d.elements ∨ c ≠ target ∧ h.Holds c e := by
  by_cases same : target = c
  · subst same
    have inside : target < h.size := by simpa using holds_inside holds
    rw [Holds, get_set_self h d inside] at holds
    exact Or.inl ⟨rfl, holds⟩
  · rw [Holds, get_set_ne h d same] at holds
    exact Or.inr ⟨Ne.symm same, holds⟩

theorem Closed.set {h : Heap} (closed : h.Closed) {d : Datum} (inside : d.Within h.size)
    (target : CellId) : (h.set target d).Closed := by
  intro c
  rw [size_set]
  by_cases same : target = c
  · subst same
    by_cases old : target < h.size
    · rw [get_set_self h d old]
      exact inside
    · rw [get_outside (by simpa using old)]
      intro e member
      simp [Datum.cells] at member
  · rw [get_set_ne h d same]
    exact closed c

/-- A list may be stored in a cell that none of its elements reaches. The cells that reach the
target are ranked above all others. -/
theorem Sound.set {h : Heap} (sound : h.Sound) {target : CellId} {d : Datum}
    (inside : d.Within h.size)
    (apart : ∀ e ∈ d.elements, ¬ Relation.ReflTransGen h.Holds e target) :
    (h.set target d).Sound := by
  classical
  obtain ⟨rank, ranked, low⟩ := sound.exists_rank
  let lifted (c : CellId) :=
    if Relation.ReflTransGen h.Holds c target then rank c + h.size else rank c
  have lifts : (h.set target d).Ranked lifted := by
    intro c e holds
    rcases holds_set holds with ⟨rfl, member⟩ | ⟨_, holds⟩
    · have below := low e (inside.element member)
      simp only [lifted, apart e member, Relation.ReflTransGen.refl, if_true, if_false]
      omega
    · have falls := ranked c e holds
      simp only [lifted]
      by_cases reaches : Relation.ReflTransGen h.Holds e target
      · have : Relation.ReflTransGen h.Holds c target := .head holds reaches
        simp only [reaches, this, if_true]
        omega
      · simp only [reaches, if_false]
        split <;> omega
  exact ⟨sound.closed.set inside target, lifts.acyclic⟩

theorem Sound.set_fewer {h : Heap} (sound : h.Sound) {target : CellId} {d : Datum}
    (inside : d.Within h.size) (fewer : d.elements ⊆ (h.get target).elements) :
    (h.set target d).Sound := by
  refine ⟨sound.closed.set inside target, ?_⟩
  intro c cycle
  apply sound.acyclic c
  refine Relation.TransGen.mono ?_ _ _ cycle
  intro a b holds
  rcases holds_set holds with ⟨rfl, member⟩ | ⟨_, holds⟩
  · exact fewer member
  · exact holds

end Heap
end CallScript
