import Mathlib.Order.Interval.Finset.Nat
import CallScript.Proofs.Value.Bindings
import CallScript.Proofs.Value.Images

/- A snapshot looks like what it is a copy of. Whatever the order in which names are visited, and
   also where lists contain themselves, there is one new cell for every cell that the scope leads
   to, and taking each cell to its new one takes names and list elements along. This says all there
   is to say: two copies of which it holds are the same but for the names of their new cells. -/
namespace CallScript

namespace Datum

def mapElements (f : CellId → CellId) : Datum → Datum
  | .list elements => .list (elements.map f)
  | d => d

theorem elements_mapElements (f : CellId → CellId) (d : Datum) :
    (d.mapElements f).elements = d.elements.map f := by
  cases d <;> rfl

theorem mapElements_mapElements (f g : CellId → CellId) (d : Datum) :
    (d.mapElements f).mapElements g = d.mapElements (g ∘ f) := by
  cases d <;> simp [mapElements]

theorem mapElements_congr {f g : CellId → CellId} {d : Datum} (same : ∀ c ∈ d.elements, f c = g c) :
    d.mapElements f = d.mapElements g := by
  cases d with
  | list elements => exact congrArg list (List.map_congr_left same)
  | _ => rfl

theorem mapElements_fixed {f : CellId → CellId} {d : Datum} (fixed : ∀ c ∈ d.elements, f c = c) :
    d.mapElements f = d := by
  cases d with
  | list elements => exact congrArg list ((List.map_congr_left fixed).trans (List.map_id elements))
  | _ => rfl

end Datum

namespace Duplication

def image (s : Duplication) (c : CellId) : CellId := (s.images.lookup c).getD c

theorem Copying.image_eq {h : Heap} {wanted : CellId → Prop} {waiting : List CellId}
    {s : Duplication} (copying : Copying h wanted waiting s) {c d : CellId}
    (member : (c, d) ∈ s.images) : s.image c = d := by
  rw [image, lookup_of_mem copying.once member]
  rfl

theorem Copying.get_image {h : Heap} {wanted : CellId → Prop} {s : Duplication}
    (copying : Copying h wanted [] s) {c d : CellId} (member : (c, d) ∈ s.images) :
    s.heap.get d = (h.get c).mapElements s.image := by
  have mirrors := copying.filled _ member (by simp)
  unfold Mirrors at mirrors
  split at mirrors
  · rename_i elements isList
    obtain ⟨dups, held, images⟩ := mirrors
    rw [held, isList, eq_map_of_pairs images fun e d pair => (copying.image_eq pair).symm]
    rfl
  · rename_i flat
    rw [mirrors]
    cases contents : h.get c with
    | list elements => exact absurd contents (flat elements)
    | _ => rfl

end Duplication

namespace Scope

def snapshotBy (order : List (Name × CellId)) (h : Heap) : Scope × Heap :=
  let (list, done) := Duplication.bindings (h.size + 1) order ⟨h, []⟩
  (empty.bindAll list, done.heap)

theorem snapshotBy_eq_snapshot (order : List (Name × CellId)) (h : Heap) : snapshotBy order h =
    (empty.bindAll ((Scope.mk order).snapshot h).1.bindings, ((Scope.mk order).snapshot h).2) := rfl

/-- `image` takes the cells that a scope leads to in `h` to the new cells of a copy, and everything
else along. -/
structure Isomorphic (s : Scope) (h : Heap) (image : CellId → CellId) (copy : Scope × Heap) :
    Prop where
  names : ∀ name, copy.1.find? name = (s.find? name).map image
  contents : ∀ c, s.Lists h c → copy.2.get (image c) = (h.get c).mapElements image
  injective : ∀ c e, s.Lists h c → s.Lists h e → image c = image e → c = e
  new : ∀ c, s.Lists h c → h.size ≤ image c ∧ image c < copy.2.size
  every : ∀ d, h.size ≤ d → d < copy.2.size → ∃ c, s.Lists h c ∧ image c = d
  old : h.Extends copy.2

/-- Two copies that `rename` takes to each other; it leaves the cells of `h` alone. -/
structure Renamed (h : Heap) (rename : CellId → CellId) (first second : Scope × Heap) : Prop where
  size : second.2.size = first.2.size
  names : ∀ name, second.1.find? name = (first.1.find? name).map rename
  contents : ∀ c < first.2.size, second.2.get (rename c) = (first.2.get c).mapElements rename
  injective : ∀ c e, c < first.2.size → e < first.2.size → rename c = rename e → c = e
  new : ∀ c, h.size ≤ c → c < first.2.size → h.size ≤ rename c ∧ rename c < second.2.size
  old : ∀ c < h.size, rename c = c

inductive Place where
  | binding (under : Name)
  | element (list : CellId) (index : Nat)

def Place.cell? (s : Scope) (h : Heap) : Place → Option CellId
  | .binding under => s.find? under
  | .element list index => (h.get list).elements[index]?

def Place.Of (s : Scope) (h : Heap) : Place → Prop
  | .binding _ => True
  | .element list _ => s.Lists h list

def Place.map (f : CellId → CellId) : Place → Place
  | .binding under => .binding under
  | .element list index => .element (f list) index

variable {s : Scope} {h : Heap} {image image' : CellId → CellId} {copy copy' : Scope × Heap}

theorem lists_of_find? {name : Name} {c : CellId} (found : s.find? name = some c) :
    s.Lists h c := by
  obtain ⟨before, after, bindings, -⟩ := List.lookup_eq_some_iff.mp found
  exact ⟨(name, c), by simp [bindings], .refl⟩

theorem Place.Of.lists {p : Place} (place : p.Of s h) {c : CellId} (found : p.cell? s h = some c) :
    s.Lists h c := by
  cases p with
  | binding under => exact lists_of_find? found
  | element list index =>
    have holds : h.Holds list c := List.mem_of_getElem? found
    exact Lists.holds place holds

namespace Isomorphic

theorem cell?_map (iso : s.Isomorphic h image copy) {p : Place} (place : p.Of s h) :
    (p.map image).cell? copy.1 copy.2 = (p.cell? s h).map image := by
  cases p with
  | binding under => exact iso.names under
  | element list index =>
    simp only [Place.map, Place.cell?, iso.contents list place, Datum.elements_mapElements,
      List.getElem?_map]

theorem shared_iff (iso : s.Isomorphic h image copy) {p q : Place} (first : p.Of s h)
    (second : q.Of s h) :
    (p.map image).cell? copy.1 copy.2 = (q.map image).cell? copy.1 copy.2 ↔
      p.cell? s h = q.cell? s h := by
  rw [iso.cell?_map first, iso.cell?_map second]
  constructor
  · intro same
    cases found : p.cell? s h with
    | none =>
      rw [found] at same
      exact (Option.map_eq_none_iff.mp same.symm).symm
    | some c =>
      rw [found] at same
      obtain ⟨e, found', same'⟩ := Option.map_eq_some_iff.mp same.symm
      rw [found', iso.injective e c (second.lists found') (first.lists found) same']
  · intro same
    rw [same]

theorem exists_rename (first : s.Isomorphic h image copy) (image' : CellId → CellId) :
    ∃ rename : CellId → CellId,
      (∀ c, s.Lists h c → rename (image c) = image' c) ∧ ∀ c < h.size, rename c = c := by
  classical
  refine ⟨fun d => if new : ∃ c, s.Lists h c ∧ image c = d then image' new.choose else d, ?_, ?_⟩
  · intro c lists
    have new : ∃ e, s.Lists h e ∧ image e = image c := ⟨c, lists, rfl⟩
    dsimp only
    rw [dif_pos new, first.injective _ c new.choose_spec.1 lists new.choose_spec.2]
  · intro c old
    apply dif_neg
    rintro ⟨e, lists, rfl⟩
    exact Nat.not_lt.mpr (first.new e lists).1 old

section Renaming

variable (first : s.Isomorphic h image copy) (second : s.Isomorphic h image' copy')
  {rename : CellId → CellId} (renamed : ∀ c, s.Lists h c → rename (image c) = image' c)
include first second renamed

theorem rename_new {d : CellId} (above : h.size ≤ d) (below : d < copy.2.size) :
    h.size ≤ rename d ∧ rename d < copy'.2.size := by
  obtain ⟨c, lists, rfl⟩ := first.every d above below
  rw [renamed c lists]
  exact second.new c lists

theorem rename_injective {d e : CellId} (above : h.size ≤ d) (below : d < copy.2.size)
    (above' : h.size ≤ e) (below' : e < copy.2.size) (same : rename d = rename e) : d = e := by
  obtain ⟨c, lists, rfl⟩ := first.every d above below
  obtain ⟨c', lists', rfl⟩ := first.every e above' below'
  rw [renamed c lists, renamed c' lists'] at same
  rw [second.injective c c' lists lists' same]

end Renaming

theorem size_le (first : s.Isomorphic h image copy) (second : s.Isomorphic h image' copy') :
    copy.2.size ≤ copy'.2.size := by
  obtain ⟨rename, renamed, -⟩ := first.exists_rename image'
  have bound : (Finset.Ico h.size copy.2.size).card ≤ (Finset.Ico h.size copy'.2.size).card := by
    apply Finset.card_le_card_of_injOn rename
    · intro d member
      obtain ⟨above, below⟩ := Finset.mem_Ico.mp member
      exact Finset.mem_Ico.mpr (rename_new first second renamed above below)
    · intro d member e member' same
      obtain ⟨above, below⟩ := Finset.mem_Ico.mp member
      obtain ⟨above', below'⟩ := Finset.mem_Ico.mp member'
      exact rename_injective first second renamed above below above' below' same
  have grown := first.old.size_le
  have grown' := second.old.size_le
  simp only [Nat.card_Ico] at bound
  omega

/-- Two copies differ in the names of their new cells only. -/
theorem renamed (closed : h.Closed) (first : s.Isomorphic h image copy)
    (second : s.Isomorphic h image' copy') :
    ∃ rename, Renamed h rename copy copy' := by
  obtain ⟨rename, renamed, fixed⟩ := first.exists_rename image'
  have size : copy'.2.size = copy.2.size :=
    Nat.le_antisymm (second.size_le first) (first.size_le second)
  have new : ∀ c, h.size ≤ c → c < copy.2.size → h.size ≤ rename c ∧ rename c < copy'.2.size :=
    fun c => rename_new first second renamed
  refine ⟨rename, size, ?_, ?_, ?_, new, fixed⟩
  · intro name
    rw [first.names, second.names, Option.map_map]
    exact Option.map_congr fun c found => (renamed c (lists_of_find? found)).symm
  · intro c below
    by_cases old : c < h.size
    · rw [fixed c old, second.old.get_eq c old, first.old.get_eq c old]
      exact (Datum.mapElements_fixed fun e member => fixed e ((closed c).element member)).symm
    · obtain ⟨e, lists, rfl⟩ := first.every c (Nat.le_of_not_lt old) below
      rw [renamed e lists, second.contents e lists, first.contents e lists,
        Datum.mapElements_mapElements]
      exact Datum.mapElements_congr fun x member => (renamed x (lists.holds member)).symm
  · -- Old cells stay below the new ones, so only two new cells or two old ones can be taken to one.
    intro c e below below' same
    by_cases old : c < h.size
    · by_cases old' : e < h.size
      · rwa [fixed c old, fixed e old'] at same
      · rw [fixed c old] at same
        exact absurd old (Nat.not_lt.mpr (same ▸ (new e (Nat.le_of_not_lt old') below').1))
    · by_cases old' : e < h.size
      · rw [fixed e old'] at same
        exact absurd old' (Nat.not_lt.mpr (same ▸ (new c (Nat.le_of_not_lt old) below).1))
      · exact rename_injective first second renamed (Nat.le_of_not_lt old) below
          (Nat.le_of_not_lt old') below' same

end Isomorphic

section Visiting

variable {order : List (Name × CellId)} (perm : order.Perm s.bindings)
include perm

theorem lists_of_perm : (Scope.mk order).Lists h = s.Lists h := by
  funext c
  simp only [Lists, perm.mem_iff]

theorem exists_image {done : Duplication} (copying : Duplication.Copying h (s.Lists h) [] done)
    (bound : ∀ p ∈ order, ∃ d, (p.2, d) ∈ done.images) {c : CellId} (lists : s.Lists h c) :
    ∃ d, (c, d) ∈ done.images := by
  -- Bound cells have been visited, and the elements of a cell with an image have images.
  obtain ⟨p, member, path⟩ := lists
  induction path with
  | refl => exact bound p (perm.mem_iff.mpr member)
  | tail _ holds ih =>
    obtain ⟨d, image⟩ := ih
    obtain ⟨e, image', -⟩ := (copying.filled _ image (by simp)).holds holds
    exact ⟨e, image'⟩

variable (closed : h.Closed) (inside : s.Within h.size)
include closed inside

theorem snapshot_order : ∃ done : Duplication,
    (Scope.mk order).snapshot h = ((Scope.mk order).map done.image, done.heap) ∧
      Duplication.Copying h (s.Lists h) [] done ∧ ∀ c, s.Lists h c →
        (c, done.image c) ∈ done.images := by
  have within : (Scope.mk order).Within h.size := fun p member => inside p (perm.mem_iff.mp member)
  obtain ⟨done, heap, copying, bound⟩ := snapshot_images closed within
  rw [lists_of_perm perm] at copying
  refine ⟨done, ?_, copying, ?_⟩
  · have list : ((Scope.mk order).snapshot h).1.bindings =
        ((Scope.mk order).map done.image).bindings :=
      eq_map_of_pairs bound fun p q pair => Prod.ext pair.1 (copying.image_eq pair.2).symm
    exact Prod.ext (congrArg Scope.mk list) heap
  · intro c lists
    have visited : ∀ p ∈ order, ∃ d, (p.2, d) ∈ done.images := by
      intro p member
      obtain ⟨q, -, -, image⟩ := exists_right_of_mem bound member
      exact ⟨q.2, image⟩
    obtain ⟨d, image⟩ := exists_image perm copying visited lists
    rwa [copying.image_eq image]

theorem snapshotBy_eq (ordered : s.Ordered) : ∃ done : Duplication,
    snapshotBy order h = (s.map done.image, done.heap) ∧ Duplication.Copying h (s.Lists h) [] done ∧
      ∀ c, s.Lists h c → (c, done.image c) ∈ done.images := by
  obtain ⟨done, copy, copying, images⟩ := snapshot_order perm closed inside
  refine ⟨done, ?_, copying, images⟩
  have sorted : empty.bindAll ((Scope.mk order).map done.image).bindings = s.map done.image :=
    bindAll_of_perm (ordered.map _) (perm.map _)
  rw [snapshotBy_eq_snapshot, copy, sorted]

theorem exists_isomorphic (ordered : s.Ordered) :
    ∃ image, s.Isomorphic h image (snapshotBy order h) := by
  obtain ⟨done, copy, copying, images⟩ := snapshotBy_eq perm closed inside ordered
  refine ⟨done.image, ?_⟩
  rw [copy]
  constructor
  case names => exact s.find?_map done.image
  case contents => exact fun c lists => copying.get_image (images c lists)
  case injective =>
    intro c e lists lists' same
    exact copying.of_image (images c lists) (same ▸ images e lists')
  case new => exact fun c lists => copying.new _ (images c lists)
  case every =>
    intro d above below
    obtain ⟨p, member, rfl⟩ := copying.every d above below
    exact ⟨p.1, (copying.old p member).2, copying.image_eq member⟩
  case old => exact copying.grown

end Visiting

theorem snapshot_eq_snapshotBy (ordered : s.Ordered) (closed : h.Closed)
    (inside : s.Within h.size) : s.snapshot h = snapshotBy s.bindings h := by
  obtain ⟨done, copy, -, -⟩ := snapshot_order (.refl s.bindings) closed inside
  rw [snapshotBy_eq_snapshot, copy, bindAll_of_perm (ordered.map _) (.refl _)]

end Scope

/-- A snapshot of a scope over any heap, also one in which lists contain themselves, comes to an end
without using up its budget, in whatever order the names are visited. There is one new cell for
every cell that the scope leads to through list elements, and no other; each name is bound to the
new cell of the one it was bound to, and a new cell holds what the old one does with new cells as
elements. So two names or list elements share a cell in the copy exactly if they did before. Old
cells are left alone, and two orders give the same copy but for the names of the new cells. -/
theorem snapshot_isomorphic {s : Scope} {h : Heap} (ordered : s.Ordered) (closed : h.Closed)
    (inside : s.Within h.size) :
    s.snapshot h = Scope.snapshotBy s.bindings h ∧
      (∀ order, order.Perm s.bindings →
        (∀ budget, h.size < budget → Duplication.bindings budget order ⟨h, []⟩ =
          Duplication.bindings (h.size + 1) order ⟨h, []⟩) ∧
        ∃ image, s.Isomorphic h image (Scope.snapshotBy order h) ∧
          ∀ p q : Scope.Place, p.Of s h → q.Of s h →
            ((p.map image).cell? (Scope.snapshotBy order h).1 (Scope.snapshotBy order h).2 =
              (q.map image).cell? (Scope.snapshotBy order h).1 (Scope.snapshotBy order h).2 ↔
              p.cell? s h = q.cell? s h)) ∧
      ∀ order other, order.Perm s.bindings → other.Perm s.bindings →
        ∃ rename, Scope.Renamed h rename (Scope.snapshotBy order h) (Scope.snapshotBy other h) := by
  refine ⟨Scope.snapshot_eq_snapshotBy ordered closed inside, ?_, ?_⟩
  · intro order perm
    constructor
    · intro budget enough
      obtain ⟨extra, rfl⟩ := Nat.exists_eq_add_of_le enough
      have within : (Scope.mk order).Within h.size :=
        fun p member => inside p (perm.mem_iff.mp member)
      exact Scope.bindings_budget closed within extra
    · obtain ⟨image, iso⟩ := Scope.exists_isomorphic perm closed inside ordered
      exact ⟨image, iso, fun p q first second => iso.shared_iff first second⟩
  · intro order other perm perm'
    obtain ⟨image, first⟩ := Scope.exists_isomorphic perm closed inside ordered
    obtain ⟨image', second⟩ := Scope.exists_isomorphic perm' closed inside ordered
    exact first.renamed closed second

def loopHeap : Heap := ⟨#[.list [0, 1], .boolean true]⟩

def loopScope : Scope := ⟨[(utf8 "a", 1), (utf8 "b", 0), (utf8 "c", 0)]⟩

theorem loopHeap_closed : loopHeap.Closed := by
  intro c
  by_cases inside : c < 2
  · have each : ∀ c < 2, ∀ e ∈ (loopHeap.get c).cells, e < 2 := by decide
    exact each c inside
  · rw [Heap.get_outside (Nat.le_of_not_lt inside)]
    simp [Datum.Within, Datum.cells]

theorem snapshot_isomorphic_loop :
    loopScope.Ordered ∧ loopHeap.Closed ∧ (loopScope.snapshot loopHeap).2.get 3 = .list [3, 2] ∧
      (Scope.snapshotBy loopScope.bindings.reverse loopHeap).2.get 2 = .list [2, 3] ∧
      ∃ rename, Scope.Renamed loopHeap rename (loopScope.snapshot loopHeap)
        (Scope.snapshotBy loopScope.bindings.reverse loopHeap) := by
  have ordered : loopScope.Ordered := by decide +kernel
  have inside : loopScope.Within loopHeap.size := by
    unfold Scope.Within
    decide +kernel
  obtain ⟨kept, -, orders⟩ := snapshot_isomorphic ordered loopHeap_closed inside
  refine ⟨ordered, loopHeap_closed, by decide +kernel, by decide +kernel, ?_⟩
  rw [kept]
  exact orders _ _ (.refl _) (List.reverse_perm _)

end CallScript
