import Mathlib.Data.List.Nodup
import CallScript.Proofs.Value.Containment

/- The search for a cell along list elements finds it exactly when there is a path, in any heap.
   Every list that is entered is new among those seen, so the search nests at most as deep as there
   are cells, and the lists a failed search has seen hold nothing but lists seen and cells that are
   not the target. -/
namespace CallScript.Heap

variable {h : Heap} {target : CellId}

structure Avoids (h : Heap) (target : CellId) (seen : List CellId) (c : CellId) : Prop where
  ne : c ≠ target
  entered : (h.get c).list? ≠ none → c ∈ seen

structure Combed (h : Heap) (target : CellId) (before after : List CellId) : Prop where
  kept : before ⊆ after
  longer : before.length ≤ after.length
  nodup : after.Nodup
  inside : ∀ c ∈ after, c < h.size
  avoids : ∀ c ∈ after, c ∉ before → ∀ e, h.Holds c e → h.Avoids target after e

theorem Avoids.mono {seen more : List CellId} {c : CellId} (avoids : h.Avoids target seen c)
    (kept : seen ⊆ more) : h.Avoids target more c :=
  ⟨avoids.ne, fun list => kept (avoids.entered list)⟩

theorem Combed.refl {seen : List CellId} (nodup : seen.Nodup) (inside : ∀ c ∈ seen, c < h.size) :
    h.Combed target seen seen :=
  ⟨List.Subset.refl _, Nat.le_refl _, nodup, inside, fun _ member fresh => absurd member fresh⟩

theorem Combed.trans {first second third : List CellId} (left : h.Combed target first second)
    (right : h.Combed target second third) : h.Combed target first third := by
  refine ⟨List.Subset.trans left.kept right.kept, Nat.le_trans left.longer right.longer,
    right.nodup, right.inside, ?_⟩
  intro c member fresh e holds
  by_cases earlier : c ∈ second
  · exact (left.avoids c earlier fresh e holds).mono right.kept
  · exact right.avoids c member earlier e holds

theorem list_inside {c : CellId} (list : (h.get c).list? ≠ none) : c < h.size := by
  by_contra outside
  rw [get_outside (Nat.le_of_not_lt outside)] at list
  exact list rfl

theorem seen_length_le {seen : List CellId} (nodup : seen.Nodup) (inside : ∀ c ∈ seen, c < h.size) :
    seen.length ≤ h.size := by
  have subset : seen ⊆ List.range h.size := fun c member => List.mem_range.mpr (inside c member)
  simpa using nodup.length_le_of_subset subset

theorem searchAny_combed {search : CellId → List CellId → Bool × List CellId} (bound : Nat)
    (one : ∀ c seen after, seen.Nodup → (∀ x ∈ seen, x < h.size) → bound ≤ seen.length →
      search c seen = (false, after) → h.Combed target seen after ∧ h.Avoids target after c)
    (cells seen after : List CellId) (nodup : seen.Nodup) (inside : ∀ x ∈ seen, x < h.size)
    (long : bound ≤ seen.length) (failed : searchAny search cells seen = (false, after)) :
    h.Combed target seen after ∧ ∀ c ∈ cells, h.Avoids target after c := by
  induction cells generalizing seen with
  | nil =>
    simp only [searchAny, Prod.mk.injEq, true_and] at failed
    subst failed
    exact ⟨.refl nodup inside, by simp⟩
  | cons c rest ih =>
    simp only [searchAny] at failed
    split at failed
    · simp at failed
    · rename_i middle found
      obtain ⟨combed, avoids⟩ := one c seen middle nodup inside long found
      obtain ⟨later, others⟩ := ih middle combed.nodup combed.inside
        (Nat.le_trans long combed.longer) failed
      refine ⟨combed.trans later, ?_⟩
      intro e member
      rcases List.mem_cons.mp member with rfl | member
      · exact avoids.mono later.kept
      · exact others e member

theorem search_combed (budget : Nat) (c : CellId) (seen after : List CellId) (nodup : seen.Nodup)
    (inside : ∀ x ∈ seen, x < h.size) (enough : h.size + 1 ≤ budget + seen.length)
    (failed : h.search target budget c seen = (false, after)) :
    h.Combed target seen after ∧ h.Avoids target after c := by
  induction budget generalizing c seen after with
  | zero =>
    have := seen_length_le nodup inside
    omega
  | succ budget ih =>
    simp only [search] at failed
    split at failed
    · simp at failed
    · rename_i ne
      split at failed
      · rename_i elements contents
        split at failed
        · rename_i member
          simp only [Prod.mk.injEq, true_and] at failed
          subst failed
          exact ⟨.refl nodup inside, ne, fun _ => member⟩
        · rename_i fresh
          have own : c < h.size := list_inside (by simp [contents, Datum.list?])
          have nodup' : (c :: seen).Nodup := List.nodup_cons.mpr ⟨fresh, nodup⟩
          have inside' : ∀ x ∈ c :: seen, x < h.size := by
            intro x member
            rcases List.mem_cons.mp member with rfl | member
            · exact own
            · exact inside x member
          -- A list that is entered has not been seen before, which pays for the smaller budget.
          obtain ⟨combed, avoids⟩ := searchAny_combed (h.size + 1 - budget)
            (fun e seen after nodup inside long failed =>
              ih e seen after nodup inside (by omega) failed)
            elements (c :: seen) after nodup' inside' (by simp only [List.length_cons]; omega)
              failed
          refine ⟨⟨fun x member => combed.kept (List.mem_cons_of_mem c member),
            Nat.le_trans (Nat.le_succ _) combed.longer, combed.nodup, combed.inside, ?_⟩, ne,
            fun _ => combed.kept List.mem_cons_self⟩
          intro x member old e holds
          by_cases same : x = c
          · subst same
            exact avoids e (by simpa [Holds, contents, Datum.elements] using holds)
          · exact combed.avoids x member (by simp [same, old]) e holds
      · rename_i flat
        simp only [Prod.mk.injEq, true_and] at failed
        subst failed
        refine ⟨.refl nodup inside, ne, fun list => ?_⟩
        cases contents : h.get c with
        | list elements => exact absurd contents (flat elements)
        | _ => simp [contents, Datum.list?] at list

theorem searchAny_found {search : CellId → List CellId → Bool × List CellId} {Path : CellId → Prop}
    (one : ∀ c seen, (search c seen).1 = true → Path c) (cells seen : List CellId)
    (found : (searchAny search cells seen).1 = true) : ∃ c ∈ cells, Path c := by
  induction cells generalizing seen with
  | nil => simp [searchAny] at found
  | cons c rest ih =>
    simp only [searchAny] at found
    split at found
    · rename_i hit
      exact ⟨c, List.mem_cons_self, one c seen (by simp [hit])⟩
    · obtain ⟨e, member, path⟩ := ih _ found
      exact ⟨e, List.mem_cons_of_mem c member, path⟩

theorem search_found (budget : Nat) (c : CellId) (seen : List CellId)
    (found : (h.search target budget c seen).1 = true) :
    Relation.ReflTransGen h.Holds c target := by
  induction budget generalizing c seen with
  | zero => simp [search] at found
  | succ budget ih =>
    simp only [search] at found
    split at found
    · rename_i same
      subst same
      exact .refl
    · split at found
      · rename_i elements contents
        split at found
        · simp at found
        · obtain ⟨e, member, path⟩ := searchAny_found ih elements _ found
          exact .head (by simpa [Holds, contents, Datum.elements] using member) path
      · simp at found

/-- The cells a failed search has seen are closed under holding, so no path leads out of them. -/
theorem Combed.no_path {seen : List CellId} (combed : h.Combed target [] seen) {c : CellId}
    (avoids : h.Avoids target seen c) : ¬ Relation.ReflTransGen h.Holds c target := by
  intro path
  induction path using Relation.ReflTransGen.head_induction_on with
  | refl => exact avoids.ne rfl
  | @head a b holds _ ih =>
    have list : (h.get a).list? ≠ none := by
      intro flat
      rw [Holds, Datum.elements_eq_nil flat] at holds
      simp at holds
    exact ih (combed.avoids a (avoids.entered list) (by simp) b holds)

theorem reaches_iff_path (h : Heap) (c target : CellId) :
    h.reaches c target = true ↔ Relation.ReflTransGen h.Holds c target := by
  constructor
  · exact search_found (h.size + 1) c []
  · intro path
    by_contra missed
    have failed : h.search target (h.size + 1) c [] =
        (false, (h.search target (h.size + 1) c []).2) := by
      apply Prod.ext
      · simpa [reaches] using missed
      · rfl
    obtain ⟨combed, avoids⟩ :=
      search_combed (h.size + 1) c [] _ List.nodup_nil (by simp) (by simp) failed
    exact combed.no_path avoids path

end CallScript.Heap
