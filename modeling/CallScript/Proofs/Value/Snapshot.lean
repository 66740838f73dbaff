import CallScript.Proofs.Value.Containment
import CallScript.Value.Scope

/- A snapshot keeps a heap sound: the cells there were keep their contents, and an image is ranked
   like the cell it stands for, so the images hold one another as their originals do. -/
namespace CallScript

def Scope.Within (s : Scope) (bound : Nat) : Prop := ∀ p ∈ s.bindings, p.2 < bound

namespace Duplication

/-- A copy of some cells of `h` under way, with a rank that is the same for a cell and its image. -/
structure Following (h : Heap) (rank : CellId → Nat) (s : Duplication) : Prop where
  grown : h.Extends s.heap
  closed : s.heap.Closed
  ranked : s.heap.Ranked rank
  images : ∀ p ∈ s.images, p.1 < s.heap.size ∧ p.2 < s.heap.size ∧ rank p.2 = rank p.1

/-- A later state of a copy: cells are only added, and keep their ranks. -/
structure Later (rank rank' : CellId → Nat) (s s' : Duplication) : Prop where
  size_le : s.heap.size ≤ s'.heap.size
  rank_eq : ∀ c < s.heap.size, rank' c = rank c

theorem Later.refl (rank : CellId → Nat) (s : Duplication) : Later rank rank s s :=
  ⟨Nat.le_refl _, fun _ _ => rfl⟩

theorem Later.trans {rank rank' rank'' : CellId → Nat} {s s' s'' : Duplication}
    (first : Later rank rank' s s') (second : Later rank' rank'' s' s'') :
    Later rank rank'' s s'' := by
  refine ⟨Nat.le_trans first.size_le second.size_le, ?_⟩
  intro c inside
  rw [second.rank_eq c (Nat.lt_of_lt_of_le inside first.size_le), first.rank_eq c inside]

variable {h : Heap} {rank : CellId → Nat} {s : Duplication}

theorem Following.old {c : CellId} (following : Following h rank s) (old : c < h.size) :
    c < s.heap.size :=
  Nat.lt_of_lt_of_le old following.grown.size_le

theorem Following.reserve (following : Following h rank s) {c : CellId} (old : c < h.size) :
    ∃ rank', Following h rank' (reserve c s).2 ∧ Later rank rank' s (reserve c s).2 ∧
      rank' (reserve c s).1 = rank' c := by
  have inside := following.old old
  have empty : Datum.unit.Within s.heap.size := by simp [Datum.Within, Datum.cells]
  let rank' (x : CellId) := if x = s.heap.size then rank c else rank x
  have kept : ∀ x < s.heap.size, rank' x = rank x := fun x below => by
    simp [rank', Nat.ne_of_lt below]
  refine ⟨rank', ⟨following.grown.trans (Heap.extends_alloc _ _), following.closed.alloc empty,
    following.ranked.alloc following.closed empty (by simp [Datum.elements]), ?_⟩, ⟨?_, kept⟩, ?_⟩
  · intro p member
    simp only [Duplication.reserve, Heap.size_alloc] at member ⊢
    rcases List.mem_cons.mp member with rfl | member
    · refine ⟨Nat.lt_succ_of_lt inside, Nat.lt_succ_self _, ?_⟩
      rw [kept c inside]
      simp [rank']
    · obtain ⟨left, right, same⟩ := following.images p member
      refine ⟨Nat.lt_succ_of_lt left, Nat.lt_succ_of_lt right, ?_⟩
      rw [kept _ right, kept _ left, same]
  · simp [Duplication.reserve]
  · rw [kept c inside]
    simp [Duplication.reserve, rank']

theorem Following.fill (following : Following h rank s) {dup : CellId} {d : Datum}
    (fresh : h.size ≤ dup) (inside : d.Within s.heap.size)
    (below : ∀ e ∈ d.elements, rank e < rank dup) :
    Following h rank { s with heap := s.heap.set dup d } := by
  refine ⟨⟨by simpa using following.grown.size_le, ?_⟩, following.closed.set inside dup, ?_, ?_⟩
  · intro c old
    have ne : dup ≠ c := by
      intro same
      subst same
      exact Nat.not_lt.mpr fresh old
    rw [Heap.get_set_ne _ _ ne]
    exact following.grown.get_eq c old
  · intro c e holds
    rcases Heap.holds_set holds with ⟨rfl, member⟩ | ⟨_, holds⟩
    · exact below e member
    · exact following.ranked c e holds
  · simpa using following.images

theorem cells_following {copy : CellId → Duplication → CellId × Duplication}
    (one : ∀ c s rank, c < h.size → Following h rank s → ∃ rank', Following h rank' (copy c s).2 ∧
      Later rank rank' s (copy c s).2 ∧ (copy c s).1 < (copy c s).2.heap.size ∧
      rank' (copy c s).1 = rank' c)
    (list : List CellId) (old : ∀ c ∈ list, c < h.size) (following : Following h rank s) :
    ∃ rank', Following h rank' (cells copy list s).2 ∧ Later rank rank' s (cells copy list s).2 ∧
      ∀ dup ∈ (cells copy list s).1, dup < (cells copy list s).2.heap.size ∧
        ∃ c ∈ list, rank' dup = rank' c := by
  induction list generalizing s rank with
  | nil => exact ⟨rank, following, .refl rank s, by simp [cells]⟩
  | cons c rest ih =>
    obtain ⟨rank₁, following₁, later₁, inside, same⟩ :=
      one c s rank (old c List.mem_cons_self) following
    obtain ⟨rank₂, following₂, later₂, others⟩ :=
      ih (fun e member => old e (List.mem_cons_of_mem c member)) following₁
    refine ⟨rank₂, following₂, later₁.trans later₂, ?_⟩
    intro dup member
    rcases List.mem_cons.mp member with rfl | member
    · refine ⟨Nat.lt_of_lt_of_le inside later₂.size_le, c, List.mem_cons_self, ?_⟩
      rw [later₂.rank_eq _ inside, same, later₂.rank_eq c]
      exact following₁.old (old c List.mem_cons_self)
    · obtain ⟨bound, e, member, same⟩ := others dup member
      exact ⟨bound, e, List.mem_cons_of_mem c member, same⟩

theorem cell_following (closed : h.Closed) (budget : Nat) (c : CellId) (s : Duplication)
    (rank : CellId → Nat) (old : c < h.size) (following : Following h rank s) :
    ∃ rank', Following h rank' (cell budget c s).2 ∧ Later rank rank' s (cell budget c s).2 ∧
      (cell budget c s).1 < (cell budget c s).2.heap.size ∧
      rank' (cell budget c s).1 = rank' c := by
  induction budget generalizing c s rank with
  | zero => exact ⟨rank, following, .refl rank s, following.old old, rfl⟩
  | succ budget ih =>
    simp only [cell]
    split
    · rename_i dup found
      have member : (c, dup) ∈ s.images := by
        obtain ⟨before, after, images, _⟩ := List.lookup_eq_some_iff.mp found
        rw [images]
        exact List.mem_append_right before List.mem_cons_self
      obtain ⟨_, inside, same⟩ := following.images _ member
      exact ⟨rank, following, .refl rank s, inside, same⟩
    · -- The image gets the rank of its cell before it has contents, so that its elements, whose
      -- images are made next, are ranked below it.
      obtain ⟨rank₁, following₁, later₁, same⟩ := following.reserve old
      have fresh : h.size ≤ (reserve c s).1 := following.grown.size_le
      have contents : (reserve c s).2.heap.get c = h.get c := following₁.grown.get_eq c old
      have own : (reserve c s).1 < (reserve c s).2.heap.size := by simp [reserve]
      rw [contents]
      split
      · rename_i elements isList
        have older : ∀ e ∈ elements, e < h.size := by
          intro e member
          exact closed c e (by simpa [isList, Datum.cells] using member)
        obtain ⟨rank₂, following₂, later₂, images⟩ :=
          cells_following (fun c s rank => ih c s rank) elements older following₁
        have same₂ : rank₂ (reserve c s).1 = rank₂ c := by
          rw [later₂.rank_eq _ own, later₂.rank_eq c (following₁.old old), same]
        refine ⟨rank₂, following₂.fill fresh ?_ ?_, ?_, ?_, same₂⟩
        · intro dup member
          exact (images dup member).1
        · intro dup member
          obtain ⟨_, e, held, same⟩ := images dup member
          rw [same, same₂]
          apply following₂.ranked
          rw [Heap.Holds, following₂.grown.get_eq c old, isList]
          exact held
        · have later := later₁.trans later₂
          exact ⟨by simpa using later.size_le, later.rank_eq⟩
        · simpa using Nat.lt_of_lt_of_le own later₂.size_le
      · rename_i flat
        refine ⟨rank₁, following₁.fill fresh ?_ ?_, ?_, ?_, same⟩
        · exact (closed c).mono following₁.grown.size_le
        · intro e member
          cases isList : h.get c with
          | list elements => exact absurd isList (flat elements)
          | _ => simp [isList, Datum.elements] at member
        · exact ⟨by simpa using later₁.size_le, later₁.rank_eq⟩
        · simpa using own

end Duplication

theorem Scope.snapshot_sound {s : Scope} {h : Heap} (sound : h.Sound) (inside : s.Within h.size) :
    h.Extends (s.snapshot h).2 ∧ (s.snapshot h).2.Sound ∧
      (s.snapshot h).1.Within (s.snapshot h).2.size := by
  obtain ⟨rank, ranked, _⟩ := sound.exists_rank
  have start : Duplication.Following h rank ⟨h, []⟩ :=
    ⟨.refl h, sound.closed, ranked, by simp⟩
  have old : ∀ c ∈ s.bindings.map Prod.snd, c < h.size := by
    intro c member
    obtain ⟨p, bound, rfl⟩ := List.mem_map.mp member
    exact inside p bound
  obtain ⟨rank', following, _, images⟩ := Duplication.cells_following
    (Duplication.cell_following sound.closed (h.size + 1)) (s.bindings.map Prod.snd) old start
  refine ⟨following.grown, ⟨following.closed, following.ranked.acyclic⟩, ?_⟩
  intro p member
  exact (images p.2 (List.of_mem_zip member).2).1

end CallScript
