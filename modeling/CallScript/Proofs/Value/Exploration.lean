import CallScript.Proofs.Value.Search

/- The search for a cell as it is without a budget. It goes through cells from the left and enters
   each list it has not seen, so a derivation exists exactly when that comes to an end. It does in
   every heap, since the lists that have been entered are different cells; and it finds the target
   exactly when list elements lead to it. -/
namespace CallScript.Heap

inductive Explores (h : Heap) (target : CellId) :
    List CellId → List CellId → Bool → List CellId → Prop where
  | done {seen : List CellId} : Explores h target [] seen false seen
  | here {rest seen : List CellId} : Explores h target (target :: rest) seen true seen
  | flat {c : CellId} {rest seen after : List CellId} {found : Bool} (other : c ≠ target)
      (flat : (h.get c).list? = none) (later : Explores h target rest seen found after) :
      Explores h target (c :: rest) seen found after
  | again {c : CellId} {rest seen after : List CellId} {found : Bool} (other : c ≠ target)
      (known : c ∈ seen)
      (later : Explores h target rest seen found after) :
        Explores h target (c :: rest) seen found after
  | within {c : CellId} {elements rest seen after : List CellId} (other : c ≠ target)
      (isList : h.get c = .list elements) (fresh : c ∉ seen)
      (hit : Explores h target elements (c :: seen) true after) :
        Explores h target (c :: rest) seen true after
  | past {c : CellId} {elements rest seen middle after : List CellId} {found : Bool}
      (other : c ≠ target) (isList : h.get c = .list elements) (fresh : c ∉ seen)
      (missed : Explores h target elements (c :: seen) false middle)
      (later : Explores h target rest middle found after) :
        Explores h target (c :: rest) seen found after

variable {h : Heap} {target : CellId}

theorem Explores.unique {cells seen first second : List CellId} {found hit : Bool}
    (left : h.Explores target cells seen found first)
    (right : h.Explores target cells seen hit second) :
    found = hit ∧ first = second := by
  induction left generalizing hit second with
  | done =>
    cases right
    exact ⟨rfl, rfl⟩
  | here =>
    cases right with
    | here => exact ⟨rfl, rfl⟩
    | flat other | again other | within other | past other => exact absurd rfl other
  | flat other flat later ih =>
    cases right with
    | here => exact absurd rfl other
    | flat _ _ later' | again _ _ later' => exact ih later'
    | within _ isList | past _ isList => simp [isList, Datum.list?] at flat
  | again other known later ih =>
    cases right with
    | here => exact absurd rfl other
    | flat _ _ later' | again _ _ later' => exact ih later'
    | within _ _ fresh | past _ _ fresh => exact absurd known fresh
  | within other isList fresh hit ih =>
    cases right with
    | here => exact absurd rfl other
    | flat _ flat => simp [isList, Datum.list?] at flat
    | again _ known => exact absurd known fresh
    | within _ isList' _ hit' =>
      rw [isList] at isList'
      cases isList'
      exact ih hit'
    | past _ isList' _ missed' =>
      rw [isList] at isList'
      cases isList'
      cases (ih missed').1
  | past other isList fresh missed later inner rest =>
    cases right with
    | here => exact absurd rfl other
    | flat _ flat => simp [isList, Datum.list?] at flat
    | again _ known => exact absurd known fresh
    | within _ isList' _ hit' =>
      rw [isList] at isList'
      cases isList'
      cases (inner hit').1
    | past _ isList' _ missed' later' =>
      rw [isList] at isList'
      cases isList'
      obtain ⟨-, rfl⟩ := inner missed'
      exact rest later'

theorem searchAny_single (search : CellId → List CellId → Bool × List CellId) (c : CellId)
    (seen : List CellId) :
    searchAny search [c] seen = search c seen := by
  simp only [searchAny]
  split
  · rename_i run
    exact run.symm
  · rename_i run
    exact run.symm

section Steps

variable {budget : Nat} {c : CellId} {seen elements : List CellId}

theorem search_flat (other : c ≠ target) (flat : (h.get c).list? = none) :
    h.search target (budget + 1) c seen = (false, seen) := by
  cases contents : h.get c with
  | list elements => simp [contents, Datum.list?] at flat
  | _ => simp only [search, if_neg other, contents]

theorem search_known (other : c ≠ target) (isList : h.get c = .list elements) (known : c ∈ seen) :
    h.search target (budget + 1) c seen = (false, seen) := by
  simp only [search, if_neg other, isList, if_pos known]

theorem search_entered (other : c ≠ target) (isList : h.get c = .list elements) (fresh : c ∉ seen) :
    h.search target (budget + 1) c seen =
      searchAny (h.search target budget) elements (c :: seen) := by
  simp only [search, if_neg other, isList, if_neg fresh]

theorem entered_inside (isList : h.get c = .list elements) (inside : ∀ x ∈ seen, x < h.size) :
    ∀ x ∈ c :: seen, x < h.size := by
  intro x member
  rcases List.mem_cons.mp member with rfl | member
  · exact list_inside (by simp [isList, Datum.list?])
  · exact inside x member

end Steps

/-- With a budget for every cell that has not been seen, the search is the one without a budget. -/
theorem searchAny_explores (budget : Nat) (cells seen : List CellId) (nodup : seen.Nodup)
    (inside : ∀ x ∈ seen, x < h.size) (enough : h.size + 1 ≤ budget + seen.length) :
    h.Explores target cells seen (searchAny (h.search target budget) cells seen).1
      (searchAny (h.search target budget) cells seen).2 := by
  induction budget generalizing cells seen with
  | zero =>
    have := seen_length_le nodup inside
    omega
  | succ budget deeper =>
    induction cells generalizing seen with
    | nil => exact .done
    | cons c rest further =>
      by_cases same : c = target
      · simp only [searchAny, search, same]
        exact .here
      · cases contents : (h.get c).list? with
        | none =>
          simp only [searchAny, search_flat same contents]
          exact .flat same contents (further seen nodup inside enough)
        | some elements =>
          have isList := Datum.eq_list contents
          by_cases known : c ∈ seen
          · simp only [searchAny, search_known same isList known]
            exact .again same known (further seen nodup inside enough)
          · have entered : h.search target (budget + 1) c seen =
                searchAny (h.search target budget) elements (c :: seen) :=
                  search_entered same isList known
            have inner := deeper elements (c :: seen) (List.nodup_cons.mpr ⟨known, nodup⟩)
              (entered_inside isList inside) (by simp only [List.length_cons]; omega)
            cases run : searchAny (h.search target budget) elements (c :: seen) with
            | mk found middle =>
              rw [run] at inner entered
              simp only [searchAny, entered]
              cases found with
              | true => exact .within same isList known inner
              | false =>
                -- What a failed search has seen is again a list of different cells, and no shorter.
                obtain ⟨combed, -⟩ :=
                  search_combed (budget + 1) c seen middle nodup inside enough entered
                have longer := combed.longer
                exact .past same isList known inner
                  (further middle combed.nodup combed.inside (by omega))

/-- In every heap, shared and cyclic lists included, the search from a cell without any budget comes
to one end, with the answer of `reaches`; and that is whether a path of list elements leads from the
cell to the target. -/
theorem search_decides_reachability (h : Heap) (c target : CellId) :
    (∃ seen, ∀ found after,
      h.Explores target [c] [] found after ↔ found = h.reaches c target ∧ after = seen) ∧
    (h.reaches c target = true ↔ Relation.ReflTransGen h.Holds c target) := by
  have run : h.Explores target [c] [] (searchAny (h.search target (h.size + 1)) [c] []).1
      (searchAny (h.search target (h.size + 1)) [c] []).2 :=
    searchAny_explores (h.size + 1) [c] [] List.nodup_nil (by simp) (by simp)
  rw [searchAny_single] at run
  refine ⟨⟨(h.search target (h.size + 1) c []).2, fun found after => ⟨?_, ?_⟩⟩,
    h.reaches_iff_path c target⟩
  · intro other
    exact other.unique run
  · rintro ⟨rfl, rfl⟩
    exact run

end CallScript.Heap
