import CallScript.Proofs.Value.Search
import CallScript.Proofs.Value.Snapshot

/- What a snapshot is made of, in any heap. Every new cell is the image of one old cell that the
   scope leads to, and holds what that cell holds with images in the place of list elements; a cell
   has one image. A copy under way has cells whose images wait for their contents. Each of them is
   new among the images, so there are never more of them than cells, which is why the budget is not
   used up. -/
namespace CallScript

section Pairs

variable {α β : Type} {related : α → β → Prop} {first : List α} {second : List β}

theorem exists_right_of_mem (pairs : List.Forall₂ related first second) {a : α}
    (member : a ∈ first) : ∃ b ∈ second, related a b := by
  obtain ⟨i, below, rfl⟩ := List.getElem_of_mem member
  have inside : i < second.length := by rwa [pairs.length_eq] at below
  exact ⟨second[i], List.getElem_mem inside, pairs.get below inside⟩

theorem exists_left_of_mem (pairs : List.Forall₂ related first second) {b : β}
    (member : b ∈ second) : ∃ a ∈ first, related a b := by
  obtain ⟨i, below, rfl⟩ := List.getElem_of_mem member
  have inside : i < first.length := by rwa [← pairs.length_eq] at below
  exact ⟨first[i], List.getElem_mem inside, pairs.get inside below⟩

theorem eq_map_of_pairs (pairs : List.Forall₂ related first second) {f : α → β}
    (same : ∀ a b, related a b → b = f a) : second = first.map f := by
  induction pairs with
  | nil => rfl
  | cons one _ ih => rw [List.map_cons, same _ _ one, ih]

end Pairs

namespace Duplication

/-- `dup` holds what `c` holds, with images in the place of list elements. -/
def Mirrors (h : Heap) (s : Duplication) (c dup : CellId) : Prop :=
  match h.get c with
  | .list elements =>
    ∃ dups, s.heap.get dup = .list dups ∧ List.Forall₂ (fun e d => (e, d) ∈ s.images) elements dups
  | d => s.heap.get dup = d

/-- A copy of cells that are `wanted`; those that are `waiting` have an image without contents. -/
structure Copying (h : Heap) (wanted : CellId → Prop) (waiting : List CellId) (s : Duplication) :
    Prop where
  grown : h.Extends s.heap
  old : ∀ p ∈ s.images, p.1 < h.size ∧ wanted p.1
  new : ∀ p ∈ s.images, h.size ≤ p.2 ∧ p.2 < s.heap.size
  once : (s.images.map Prod.fst).Nodup
  apart : (s.images.map Prod.snd).Nodup
  every : ∀ c, h.size ≤ c → c < s.heap.size → ∃ p ∈ s.images, p.2 = c
  filled : ∀ p ∈ s.images, p.1 ∉ waiting → Mirrors h s p.1 p.2

variable {h : Heap} {wanted : CellId → Prop} {waiting : List CellId} {s : Duplication}

theorem Mirrors.of_list {elements dups : List CellId} {c dup : CellId}
    (isList : h.get c = .list elements) (held : s.heap.get dup = .list dups)
    (images : List.Forall₂ (fun e d => (e, d) ∈ s.images) elements dups) :
    Mirrors h s c dup := by
  unfold Mirrors
  rw [isList]
  exact ⟨dups, held, images⟩

theorem Mirrors.of_flat {c dup : CellId} (flat : ∀ elements, h.get c ≠ .list elements)
    (held : s.heap.get dup = h.get c) : Mirrors h s c dup := by
  unfold Mirrors
  split
  · rename_i elements isList
    exact absurd isList (flat elements)
  · exact held

theorem Mirrors.later {t : Duplication} {c dup : CellId} (mirrors : Mirrors h s c dup)
    (same : t.heap.get dup = s.heap.get dup) (kept : s.images ⊆ t.images) : Mirrors h t c dup := by
  unfold Mirrors at mirrors ⊢
  split
  · rename_i isList
    rw [isList] at mirrors
    obtain ⟨dups, held, images⟩ := mirrors
    exact ⟨dups, by rw [same, held], images.imp fun _ _ member => kept member⟩
  · rename_i flat
    rw [same]
    split at mirrors
    · rename_i elements isList
      exact absurd isList (flat elements)
    · exact mirrors

theorem Mirrors.holds {c dup e : CellId} (mirrors : Mirrors h s c dup) (holds : h.Holds c e) :
    ∃ image, (e, image) ∈ s.images ∧ s.heap.Holds dup image := by
  unfold Mirrors at mirrors
  split at mirrors
  · rename_i elements isList
    obtain ⟨dups, held, images⟩ := mirrors
    rw [Heap.Holds, isList] at holds
    obtain ⟨image, member, pair⟩ := exists_right_of_mem images holds
    exact ⟨image, pair, by rwa [Heap.Holds, held]⟩
  · rename_i flat
    cases contents : h.get c with
    | list elements => exact absurd contents (flat elements)
    | _ => simp [Heap.Holds, contents, Datum.elements] at holds

theorem Copying.length_le (copying : Copying h wanted waiting s) : s.images.length ≤ h.size := by
  have bound := Heap.seen_length_le (h := h) copying.once (by
    intro c member
    obtain ⟨p, held, rfl⟩ := List.mem_map.mp member
    exact (copying.old p held).1)
  simpa using bound

theorem Copying.image_unique (copying : Copying h wanted waiting s) {c d e : CellId}
    (first : (c, d) ∈ s.images) (second : (c, e) ∈ s.images) : d = e := by
  have same := List.inj_on_of_nodup_map copying.once first second rfl
  exact congrArg Prod.snd same

theorem Copying.of_image (copying : Copying h wanted waiting s) {c d e : CellId}
    (first : (c, e) ∈ s.images) (second : (d, e) ∈ s.images) : c = d := by
  have same := List.inj_on_of_nodup_map copying.apart first second rfl
  exact congrArg Prod.fst same

theorem not_mem_of_lookup {c : CellId} {images : List (CellId × CellId)}
    (missing : images.lookup c = none) :
    c ∉ images.map Prod.fst := by
  intro member
  obtain ⟨p, held, rfl⟩ := List.mem_map.mp member
  simpa using List.lookup_eq_none_iff.mp missing p held

theorem reserve_eq (c : CellId) (s : Duplication) :
    reserve c s = (s.heap.size, ⟨(s.heap.alloc .unit).2, (c, s.heap.size) :: s.images⟩) := rfl

theorem Copying.reserve (copying : Copying h wanted waiting s) {c : CellId} (inside : c < h.size)
    (want : wanted c) (missing : s.images.lookup c = none) :
    Copying h wanted (c :: waiting) (reserve c s).2 := by
  have le := copying.grown.size_le
  rw [reserve_eq]
  refine ⟨copying.grown.trans (Heap.extends_alloc _ _), ?_, ?_, ?_, ?_, ?_, ?_⟩
  · intro p member
    rcases List.mem_cons.mp member with rfl | member
    · exact ⟨inside, want⟩
    · exact copying.old p member
  · intro p member
    simp only [Heap.size_alloc]
    rcases List.mem_cons.mp member with rfl | member
    · exact ⟨le, Nat.lt_succ_self _⟩
    · exact ⟨(copying.new p member).1, Nat.lt_succ_of_lt (copying.new p member).2⟩
  · exact List.nodup_cons.mpr ⟨not_mem_of_lookup missing, copying.once⟩
  · refine List.nodup_cons.mpr ⟨?_, copying.apart⟩
    intro member
    obtain ⟨p, held, same⟩ := List.mem_map.mp member
    exact Nat.ne_of_lt (copying.new p held).2 same
  · intro e above below
    simp only [Heap.size_alloc] at below
    by_cases last : e = s.heap.size
    · exact ⟨(c, s.heap.size), List.mem_cons_self, last.symm⟩
    · obtain ⟨p, held, same⟩ := copying.every e above (by omega)
      exact ⟨p, List.mem_cons_of_mem _ held, same⟩
  · intro p member settled
    rcases List.mem_cons.mp member with rfl | member
    · simp at settled
    · have mirrors := copying.filled p member fun waits => settled (List.mem_cons_of_mem c waits)
      exact mirrors.later (Heap.get_alloc_old _ _ (copying.new p member).2)
        (List.subset_cons_self _ _)

theorem Copying.fill {c dup : CellId} {d : Datum} (copying : Copying h wanted (c :: waiting) s)
    (image : (c, dup) ∈ s.images) (mirrors : Mirrors h { s with heap := s.heap.set dup d } c dup) :
    Copying h wanted waiting { s with heap := s.heap.set dup d } := by
  have fresh := (copying.new _ image).1
  refine ⟨⟨by simpa using copying.grown.size_le, ?_⟩, copying.old, by simpa using copying.new,
    copying.once, copying.apart, by simpa using copying.every, ?_⟩
  · intro e inside
    have ne : dup ≠ e := fun same => Nat.not_lt.mpr fresh (same ▸ inside)
    rw [Heap.get_set_ne _ _ ne]
    exact copying.grown.get_eq e inside
  · intro p member settled
    by_cases own : p.1 = c
    · have same : p.2 = dup := copying.image_unique (c := c) (by rw [← own]; exact member) image
      rw [own, same]
      exact mirrors
    · have ne : dup ≠ p.2 := by
        intro same
        exact own (copying.of_image (e := dup) (by rw [same]; exact member) image)
      have waits : p.1 ∉ c :: waiting := by simp [own, settled]
      exact (copying.filled p member waits).later (Heap.get_set_ne _ _ ne) (List.Subset.refl _)

/-- What making images of cells comes to: more images, and `result` says which. -/
structure Copied (h : Heap) (wanted : CellId → Prop) (waiting : List CellId)
    (before after : Duplication) (result : Prop) : Prop where
  copying : Copying h wanted waiting after
  kept : before.images ⊆ after.images
  longer : before.images.length ≤ after.images.length
  result : result

theorem cells_copied {copy : CellId → Duplication → CellId × Duplication} (bound : Nat)
    (one : ∀ c s, c < h.size → wanted c → Copying h wanted waiting s → bound ≤ s.images.length →
      Copied h wanted waiting s (copy c s).2 ((c, (copy c s).1) ∈ (copy c s).2.images))
    (list : List CellId) (inside : ∀ c ∈ list, c < h.size ∧ wanted c)
    (copying : Copying h wanted waiting s) (long : bound ≤ s.images.length) :
    Copied h wanted waiting s (cells copy list s).2
      (List.Forall₂ (fun c d => (c, d) ∈ (cells copy list s).2.images) list
        (cells copy list s).1) := by
  induction list generalizing s with
  | nil => exact ⟨copying, List.Subset.refl _, Nat.le_refl _, .nil⟩
  | cons c rest ih =>
    obtain ⟨old, want⟩ := inside c List.mem_cons_self
    have first := one c s old want copying long
    have others := ih (fun e member => inside e (List.mem_cons_of_mem c member)) first.copying
      (Nat.le_trans long first.longer)
    exact ⟨others.copying, fun p member => others.kept (first.kept member),
      Nat.le_trans first.longer others.longer, .cons (others.kept first.result) others.result⟩

theorem cell_copied (closed : h.Closed) (follows : ∀ c e, wanted c → h.Holds c e → wanted e)
    (budget : Nat) (c : CellId) (s : Duplication) (waiting : List CellId) (inside : c < h.size)
    (want : wanted c) (copying : Copying h wanted waiting s)
    (enough : h.size + 1 ≤ budget + s.images.length) :
    Copied h wanted waiting s (cell budget c s).2
      ((c, (cell budget c s).1) ∈ (cell budget c s).2.images) := by
  induction budget generalizing c s waiting with
  | zero =>
    have := copying.length_le
    omega
  | succ budget ih =>
    simp only [cell]
    split
    · rename_i dup found
      refine ⟨copying, List.Subset.refl _, Nat.le_refl _, ?_⟩
      obtain ⟨before, after, images, _⟩ := List.lookup_eq_some_iff.mp found
      rw [images]
      exact List.mem_append_right before List.mem_cons_self
    · rename_i missing
      have reserved := copying.reserve inside want missing
      have image : (c, (reserve c s).1) ∈ (reserve c s).2.images := List.mem_cons_self
      have kept : s.images ⊆ (reserve c s).2.images := List.subset_cons_self _ _
      have longer : (reserve c s).2.images.length = s.images.length + 1 := rfl
      rw [reserved.grown.get_eq c inside]
      split
      · rename_i elements isList
        have wanteds : ∀ e ∈ elements, e < h.size ∧ wanted e := by
          intro e member
          have holds : h.Holds c e := by rwa [Heap.Holds, isList]
          exact ⟨closed.holds holds, follows c e want holds⟩
        -- The new image pays for the smaller budget.
        have dups := cells_copied (h.size + 1 - budget)
          (fun e t old want copying long => ih e t _ old want copying (by omega)) elements wanteds
            reserved (by omega)
        have own := dups.kept image
        refine ⟨dups.copying.fill own (.of_list isList ?_ dups.result),
          fun p member => dups.kept (kept member), ?_, own⟩
        · exact Heap.get_set_self _ _ (dups.copying.new _ own).2
        · have := dups.longer
          dsimp only
          omega
      · rename_i flat
        refine ⟨reserved.fill image (.of_flat flat ?_), kept, ?_, image⟩
        · exact Heap.get_set_self _ _ (reserved.new _ image).2
        · dsimp only
          omega

theorem cells_same {copy copy' : CellId → Duplication → CellId × Duplication} (bound : Nat)
    (one : ∀ c s, c < h.size → wanted c → Copying h wanted waiting s → bound ≤ s.images.length →
      Copied h wanted waiting s (copy c s).2 ((c, (copy c s).1) ∈ (copy c s).2.images))
    (same : ∀ c s, c < h.size → wanted c → Copying h wanted waiting s → bound ≤ s.images.length →
      copy' c s = copy c s)
    (list : List CellId) (inside : ∀ c ∈ list, c < h.size ∧ wanted c)
    (copying : Copying h wanted waiting s) (long : bound ≤ s.images.length) :
    cells copy' list s = cells copy list s := by
  induction list generalizing s with
  | nil => rfl
  | cons c rest ih =>
    obtain ⟨old, want⟩ := inside c List.mem_cons_self
    have first := one c s old want copying long
    simp only [cells, same c s old want copying long]
    rw [ih (fun e member => inside e (List.mem_cons_of_mem c member)) first.copying
      (Nat.le_trans long first.longer)]

/-- A budget that is enough is not used up, so a larger one changes nothing. -/
theorem cell_budget (closed : h.Closed) (follows : ∀ c e, wanted c → h.Holds c e → wanted e)
    (budget extra : Nat) (c : CellId) (s : Duplication) (waiting : List CellId)
    (inside : c < h.size) (want : wanted c) (copying : Copying h wanted waiting s)
    (enough : h.size + 1 ≤ budget + s.images.length) :
    cell (budget + extra) c s = cell budget c s := by
  induction budget generalizing c s waiting with
  | zero =>
    have := copying.length_le
    omega
  | succ budget ih =>
    rw [Nat.add_right_comm]
    simp only [cell]
    split
    · rfl
    · rename_i missing
      have reserved := copying.reserve inside want missing
      have longer : (reserve c s).2.images.length = s.images.length + 1 := rfl
      rw [reserved.grown.get_eq c inside]
      split
      · rename_i elements isList
        have wanteds : ∀ e ∈ elements, e < h.size ∧ wanted e := by
          intro e member
          have holds : h.Holds c e := by rwa [Heap.Holds, isList]
          exact ⟨closed.holds holds, follows c e want holds⟩
        rw [cells_same (h.size + 1 - budget)
          (fun e t old want copying long => cell_copied closed follows budget e t _ old want
            copying (by omega))
          (fun e t old want copying long => ih e t _ old want copying (by omega)) elements wanteds
            reserved (by omega)]
      · rfl

end Duplication

def Scope.Lists (s : Scope) (h : Heap) (c : CellId) : Prop :=
  ∃ p ∈ s.bindings, Relation.ReflTransGen h.Holds p.2 c

namespace Scope

variable {s : Scope} {h : Heap}

theorem Lists.holds {c e : CellId} (lists : s.Lists h c) (holds : h.Holds c e) : s.Lists h e := by
  obtain ⟨p, bound, path⟩ := lists
  exact ⟨p, bound, path.tail holds⟩

theorem lists_bound (inside : s.Within h.size) :
    ∀ c ∈ s.bindings.map Prod.snd, c < h.size ∧ s.Lists h c := by
  intro c member
  obtain ⟨p, bound, rfl⟩ := List.mem_map.mp member
  exact ⟨inside p bound, p, bound, .refl⟩

theorem copying_start (s : Scope) (h : Heap) : Duplication.Copying h (s.Lists h) [] ⟨h, []⟩ := by
  refine ⟨.refl h, by simp, by simp, by simp, by simp, ?_, by simp⟩
  intro c above below
  dsimp only at below
  omega

theorem snapshot_images (closed : h.Closed) (inside : s.Within h.size) :
    ∃ done : Duplication, (s.snapshot h).2 = done.heap ∧ Duplication.Copying h (s.Lists h) [] done ∧
      List.Forall₂ (fun p q => q.1 = p.1 ∧ (p.2, q.2) ∈ done.images) s.bindings
        (s.snapshot h).1.bindings := by
  have copied := Duplication.cells_copied 0 (fun c t old want copying _ =>
    Duplication.cell_copied closed (fun _ _ => Lists.holds) (h.size + 1) c t [] old want copying
      (by omega)) _
    (lists_bound inside) (copying_start s h) (Nat.zero_le _)
  refine ⟨_, rfl, copied.copying, ?_⟩
  have images := copied.result
  unfold Scope.snapshot Duplication.bindings
  dsimp only at images ⊢
  generalize (Duplication.cells _ _ _).2 = done at images ⊢
  generalize (Duplication.cells _ _ _).1 = dups at images ⊢
  generalize s.bindings = list at images ⊢
  induction list generalizing dups with
  | nil =>
    cases images
    exact .nil
  | cons p rest ih =>
    cases images with
    | cons first others => exact .cons ⟨rfl, first⟩ (ih _ others)

theorem bindings_budget (closed : h.Closed) (inside : s.Within h.size) (extra : Nat) :
    Duplication.bindings (h.size + 1 + extra) s.bindings ⟨h, []⟩ =
      Duplication.bindings (h.size + 1) s.bindings ⟨h, []⟩ := by
  unfold Duplication.bindings
  rw [Duplication.cells_same 0
    (fun c t old want copying _ =>
      Duplication.cell_copied closed (fun _ _ => Lists.holds) (h.size + 1) c t [] old want
        copying (by omega))
    (fun c t old want copying _ =>
      Duplication.cell_budget closed (fun _ _ => Lists.holds) (h.size + 1) extra c t [] old want
        copying (by omega))
    _ (lists_bound inside) (copying_start s h) (Nat.zero_le _)]

end Scope

end CallScript
