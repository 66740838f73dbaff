import Mathlib.Data.List.Sort
import CallScript.Value.Scope

/- The bindings of a scope are kept in the order of their names. So a scope is told by what its
   names are bound to, and the order in which they were bound does not matter. -/
namespace CallScript

theorem lookup_of_mem {α β : Type} [BEq α] [LawfulBEq α] {list : List (α × β)}
    (once : (list.map Prod.fst).Nodup) {a : α} {b : β} (member : (a, b) ∈ list) :
    list.lookup a = some b := by
  obtain ⟨before, after, rfl⟩ := List.append_of_mem member
  refine List.lookup_eq_some_iff.mpr ⟨before, after, rfl, ?_⟩
  intro p earlier
  rw [List.map_append, List.nodup_append] at once
  have apart := once.2.2 p.1 (List.mem_map_of_mem earlier) a (by simp)
  simpa using apart.symm

namespace Scope

def Ordered (s : Scope) : Prop := s.bindings.Pairwise fun p q => p.1 < q.1

instance (s : Scope) : Decidable s.Ordered :=
  inferInstanceAs (Decidable (s.bindings.Pairwise fun p q => p.1 < q.1))

theorem name_ne_of_lt {a b : Name} (less : a < b) : a ≠ b := by
  rintro rfl
  exact List.lt_irrefl a less

theorem Ordered.once {s : Scope} (ordered : s.Ordered) : s.names.Nodup :=
  List.pairwise_map.mpr (ordered.imp name_ne_of_lt)

theorem Ordered.ext {s t : Scope} (ordered : s.Ordered) (ordered' : t.Ordered)
    (same : ∀ p, p ∈ s.bindings ↔ p ∈ t.bindings) : s = t := by
  have perm : s.bindings.Perm t.bindings :=
    (List.perm_ext_iff_of_nodup (ordered.once.of_map _) (ordered'.once.of_map _)).mpr same
  have equal :=
    perm.eq_of_pairwise
      (fun p q _ _ less more => absurd rfl (name_ne_of_lt (List.lt_trans less more)))
    ordered ordered'
  cases s
  cases t
  exact congrArg Scope.mk equal

theorem mem_insert {name : Name} {c : CellId} {bindings : List (Name × CellId)}
    {p : Name × CellId} (member : p ∈ insert name c bindings) : p = (name, c) ∨ p ∈ bindings := by
  induction bindings with
  | nil => simpa [insert] using member
  | cons first rest ih =>
    obtain ⟨other, held⟩ := first
    simp only [insert] at member
    split at member
    · rcases List.mem_cons.mp member with same | member
      · exact Or.inl same
      · exact Or.inr (List.mem_cons_of_mem _ member)
    · split at member
      · exact List.mem_cons.mp member
      · rcases List.mem_cons.mp member with same | member
        · exact Or.inr (by simp [same])
        · rcases ih member with same | member
          · exact Or.inl same
          · exact Or.inr (List.mem_cons_of_mem _ member)

theorem Ordered.bind {s : Scope} (ordered : s.Ordered) (name : Name) (cell : CellId) :
    (s.bind name cell).Ordered := by
  obtain ⟨list⟩ := s
  simp only [Ordered, Scope.bind] at ordered ⊢
  induction list with
  | nil => exact List.pairwise_singleton _ _
  | cons q rest ih =>
    obtain ⟨least, sorted⟩ := List.pairwise_cons.mp ordered
    simp only [insert]
    split
    · rename_i same
      exact List.pairwise_cons.mpr ⟨fun p member => same ▸ least p member, sorted⟩
    · rename_i other
      split
      · rename_i less
        refine List.pairwise_cons.mpr ⟨?_, ordered⟩
        intro p member
        rcases List.mem_cons.mp member with rfl | later
        · exact less
        · exact List.lt_trans less (least p later)
      · rename_i more
        -- The name is not here and not before this one, so it comes after it.
        have greater : q.1 < name := by
          rcases Std.Trichotomous.rel_or_eq_or_rel_swap (r := fun a b : Name => a < b) (a := name)
            (b := q.1) with
            less | same | greater
          · exact absurd less more
          · exact absurd same other
          · exact greater
        refine List.pairwise_cons.mpr ⟨?_, ih sorted⟩
        intro p member
        rcases mem_insert member with rfl | held
        · exact greater
        · exact least p held

theorem Ordered.bindAll {s : Scope} (ordered : s.Ordered) (pairs : List (Name × CellId)) :
    (s.bindAll pairs).Ordered := by
  induction pairs generalizing s with
  | nil => exact ordered
  | cons first rest ih => exact ih (ordered.bind first.1 first.2)

theorem insert_perm {name : Name} (cell : CellId) {list : List (Name × CellId)}
    (fresh : name ∉ list.map Prod.fst) : (insert name cell list).Perm ((name, cell) :: list) := by
  induction list with
  | nil => exact .refl _
  | cons q rest ih =>
    simp only [List.map_cons, List.mem_cons, not_or] at fresh
    simp only [insert, if_neg fresh.1]
    split
    · exact .refl _
    · exact ((ih fresh.2).cons q).trans (.swap _ _ _)

theorem bindAll_perm {s : Scope} {pairs : List (Name × CellId)}
    (once : ((pairs ++ s.bindings).map Prod.fst).Nodup) :
    (s.bindAll pairs).bindings.Perm (pairs ++ s.bindings) := by
  induction pairs generalizing s with
  | nil => exact .refl _
  | cons first rest ih =>
    have fresh : first.1 ∉ s.bindings.map Prod.fst := by
      simp only [List.cons_append, List.map_cons, List.nodup_cons, List.map_append, List.mem_append,
        not_or] at once
      exact once.1.2
    have first' : (s.bind first.1 first.2).bindings.Perm (first :: s.bindings) :=
      insert_perm first.2 fresh
    have all : (rest ++ (s.bind first.1 first.2).bindings).Perm (first :: rest ++ s.bindings) :=
      (first'.append_left rest).trans List.perm_middle
    exact (ih ((all.map Prod.fst).nodup_iff.mpr once)).trans all

/-- The order in which names are bound does not matter. -/
theorem bindAll_of_perm {s : Scope} (ordered : s.Ordered) {order : List (Name × CellId)}
    (perm : order.Perm s.bindings) : empty.bindAll order = s := by
  have once : ((order ++ empty.bindings).map Prod.fst).Nodup := by
    rw [empty, List.append_nil, (perm.map Prod.fst).nodup_iff]
    exact ordered.once
  have start : empty.Ordered := List.Pairwise.nil
  apply (start.bindAll order).ext ordered
  intro p
  rw [(bindAll_perm once).mem_iff, empty, List.append_nil, perm.mem_iff]

def map (f : CellId → CellId) (s : Scope) : Scope := ⟨s.bindings.map fun p => (p.1, f p.2)⟩

theorem find?_map (f : CellId → CellId) (s : Scope) (name : Name) :
    (s.map f).find? name = (s.find? name).map f := by
  obtain ⟨list⟩ := s
  simp only [map, find?]
  induction list with
  | nil => rfl
  | cons p rest ih =>
    obtain ⟨under, cell⟩ := p
    simp only [List.map_cons, List.lookup_cons]
    split
    · rfl
    · exact ih

theorem Ordered.map {s : Scope} (ordered : s.Ordered) (f : CellId → CellId) : (s.map f).Ordered :=
  List.pairwise_map.mpr ordered

end Scope
end CallScript
