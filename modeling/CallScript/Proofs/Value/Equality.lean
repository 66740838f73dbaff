import Mathlib.Data.List.Forall2
import CallScript.Proofs.Value.Detachment

/- Equality of values, on heaps in which no list contains itself. It is symmetric and transitive,
   but a value in which a NaN is found is not equal to itself. Lists are compared by what their
   elements hold, so neither the cells that hold them nor the sharing of these cells matter. -/
namespace CallScript

namespace Number

theorem equals_symm (x y : Number) : x.equals y = y.equals x := by
  rw [Bool.eq_iff_iff]
  simp only [equals, Bool.and_eq_true, Bool.not_eq_true', beq_iff_eq]
  constructor
  · rintro ⟨⟨first, second⟩, same⟩
    exact ⟨⟨second, first⟩, same.symm⟩
  · rintro ⟨⟨first, second⟩, same⟩
    exact ⟨⟨second, first⟩, same.symm⟩

theorem equals_trans {x y z : Number} (first : x.equals y) (second : y.equals z) : x.equals z := by
  simp only [equals, Bool.and_eq_true, Bool.not_eq_true', beq_iff_eq] at *
  exact ⟨⟨first.1.1, second.1.2⟩, first.2.trans second.2⟩

theorem equals_self (x : Number) : x.equals x = !x.isNaN := by
  simp [equals]

end Number

namespace Heap

variable {h g : Heap} {budget : Nat}

theorem equalWithin_zero_symm (h : Heap) (a b : Datum) :
    h.equalWithin 0 a b = h.equalWithin 0 b a := by
  cases a with
  | string a => cases b <;> simp [equalWithin, eq_comm]
  | number a => cases b <;> simp [equalWithin, Number.equals_symm a]
  | boolean a => cases b <;> simp [equalWithin, eq_comm]
  | unit => cases b <;> simp [equalWithin]
  | list as => cases b <;> simp [equalWithin]
  | flow j c =>
    cases b with
    | flow k d => cases j <;> cases k <;> simp [equalWithin, eq_comm]
    | _ => simp [equalWithin]

theorem equalWithin_zero_trans {a b c : Datum} (first : h.equalWithin 0 a b)
    (second : h.equalWithin 0 b c) :
    h.equalWithin 0 a c := by
  cases b with
  | string b => cases a <;> cases c <;> simp_all [equalWithin]
  | number b =>
    cases a <;> cases c <;> simp_all [equalWithin]
    exact Number.equals_trans first second
  | boolean b => cases a <;> cases c <;> simp_all [equalWithin]
  | unit => cases a <;> cases c <;> simp_all [equalWithin]
  | list bs => cases a <;> simp [equalWithin] at first
  | flow k _ =>
    cases a with
    | flow j _ =>
      cases c with
      | flow l _ => cases j <;> cases k <;> cases l <;> simp_all [equalWithin]
      | _ => cases k <;> simp [equalWithin] at second
    | _ => simp [equalWithin] at first

theorem equalWithin_zero_self {a : Datum} (flat : a.list? = none) :
    h.equalWithin 0 a a ↔ ∀ x, a = .number x → x.isNaN = false := by
  cases a with
  | number x => simp [equalWithin, Number.equals_self]
  | list as => cases flat
  | flow j _ => cases j <;> simp [equalWithin]
  | _ => simp [equalWithin]

theorem flat_of_equalWithin_zero {a b : Datum} (same : h.equalWithin 0 a b) :
    a.list? = none ∧ b.list? = none := by
  cases a <;> cases b <;> simp_all [equalWithin, Datum.list?]

theorem equalWithin_lists {as bs : List CellId} :
    h.equalWithin (budget + 1) (.list as) (.list bs) ↔
      List.Forall₂ (fun a b => h.equalWithin budget (h.get a) (h.get b)) as bs := by
  rw [List.forall₂_iff_zip]
  simp [equalWithin]

theorem lists_or_flat (a b : Datum) :
    (a.list? = none ∨ b.list? = none) ∨ ∃ as bs, a = .list as ∧ b = .list bs := by
  cases left : a.list? with
  | none => exact Or.inl (Or.inl rfl)
  | some as =>
    cases right : b.list? with
    | none => exact Or.inl (Or.inr rfl)
    | some bs => exact Or.inr ⟨as, bs, Datum.eq_list left, Datum.eq_list right⟩

theorem equalWithin_symm (h : Heap) (budget : Nat) (a b : Datum) :
    h.equalWithin budget a b = h.equalWithin budget b a := by
  induction budget generalizing a b with
  | zero => exact equalWithin_zero_symm h a b
  | succ budget ih =>
    rcases lists_or_flat a b with flat | ⟨as, bs, rfl, rfl⟩
    · rw [equalWithin_flat flat, equalWithin_flat flat.symm, equalWithin_zero_symm]
    · have turned : ∀ xs ys : List CellId,
          List.Forall₂ (fun a b => h.equalWithin budget (h.get a) (h.get b)) xs ys →
          List.Forall₂ (fun a b => h.equalWithin budget (h.get a) (h.get b)) ys xs :=
        fun xs ys all => (all.imp fun a b same => (ih (h.get b) (h.get a)).trans same).flip
      rw [Bool.eq_iff_iff, equalWithin_lists, equalWithin_lists]
      exact ⟨turned as bs, turned bs as⟩

theorem equalWithin_trans {a b c : Datum} (first : h.equalWithin budget a b)
    (second : h.equalWithin budget b c) :
    h.equalWithin budget a c := by
  induction budget generalizing a b c with
  | zero => exact equalWithin_zero_trans first second
  | succ budget ih =>
    rcases lists_or_flat a b with flat | ⟨as, bs, rfl, rfl⟩
    · rw [equalWithin_flat flat] at first
      obtain ⟨plain, plain'⟩ := flat_of_equalWithin_zero first
      rw [equalWithin_flat (Or.inl plain')] at second
      rw [equalWithin_flat (Or.inl plain)]
      exact equalWithin_zero_trans first second
    · rcases lists_or_flat (.list bs) c with flat | ⟨_, cs, ⟨⟩, rfl⟩
      · rw [equalWithin_flat flat] at second
        cases (flat_of_equalWithin_zero second).1
      · rw [equalWithin_lists] at *
        induction first generalizing cs with
        | nil => exact second
        | cons same _ rest =>
          cases second with
          | cons same' others => exact .cons (ih same same') (rest _ others)

/-- A value is found in another if it is that value or, at any depth, held by an element of its
list. -/
inductive Found (h : Heap) : Datum → Datum → Prop where
  | here (d : Datum) : Found h d d
  | element {a d : Datum} {c : CellId} (member : c ∈ a.elements) (deeper : Found h (h.get c) d) :
      Found h a d

theorem found_number_flat {a : Datum} (flat : a.list? = none) {x : Number} :
    h.Found a (.number x) ↔ a = .number x := by
  constructor
  · intro found
    cases found with
    | here => rfl
    | element member => simp [Datum.elements_eq_nil flat] at member
  · rintro rfl
    exact .here _

theorem found_number_list {as : List CellId} {x : Number} :
    h.Found (.list as) (.number x) ↔ ∃ c ∈ as, h.Found (h.get c) (.number x) := by
  constructor
  · intro found
    cases found with
    | element member deeper => exact ⟨_, member, deeper⟩
  · rintro ⟨c, member, deeper⟩
    exact .element member deeper

theorem equalWithin_self {a : Datum} (nested : h.Nested budget a) :
    h.equalWithin budget a a ↔ ∀ x, h.Found a (.number x) → x.isNaN = false := by
  induction budget generalizing a with
  | zero => simp only [equalWithin_zero_self nested, found_number_flat nested]
  | succ budget ih =>
    rcases lists_or_flat a a with flat | ⟨as, _, rfl, ⟨⟩⟩
    · have flat := flat.elim id id
      rw [equalWithin_flat (Or.inl flat)]
      simp only [equalWithin_zero_self flat, found_number_flat flat]
    · rw [equalWithin_lists, List.forall₂_same]
      simp only [found_number_list]
      constructor
      · rintro all x ⟨c, member, deeper⟩
        exact (ih (nested c member)).mp (all c member) x deeper
      · intro none c member
        exact (ih (nested c member)).mpr fun x deeper => none x ⟨c, member, deeper⟩

/-- Two values hold the same, each in its heap, whichever cells hold their elements. -/
inductive Same (h g : Heap) : Datum → Datum → Prop where
  | flat {d : Datum} (flat : d.list? = none) : Same h g d d
  | list {as bs : List CellId}
      (all : List.Forall₂ (fun a b => Same h g (h.get a) (g.get b)) as bs) :
      Same h g (.list as) (.list bs)

theorem Same.list?_eq {a b : Datum} (same : h.Same g a b) : a.list? = none ↔ b.list? = none := by
  cases same with
  | flat => rfl
  | list => simp [Datum.list?]

theorem Same.equalWithin_zero {a b c d : Datum} (first : h.Same g a b) (second : h.Same g c d) :
    g.equalWithin 0 b d = h.equalWithin 0 a c := by
  have lists : ∀ (k : Heap) (x y : Datum), ¬ (x.list? = none ∧ y.list? = none) →
      k.equalWithin 0 x y = false :=
    fun k x y list => Bool.eq_false_iff.mpr fun same => list (flat_of_equalWithin_zero same)
  cases first with
  | flat flat =>
    cases second with
    | flat flat' => exact Heap.equalWithin_zero h g a c
    | list => rw [lists g _ _ (by simp [Datum.list?]), lists h _ _ (by simp [Datum.list?])]
  | list => rw [lists g _ _ (by simp [Datum.list?]), lists h _ _ (by simp [Datum.list?])]

theorem Same.equalWithin {a b c d : Datum} (first : h.Same g a b) (second : h.Same g c d) :
    g.equalWithin budget b d = h.equalWithin budget a c := by
  induction budget generalizing a b c d with
  | zero => exact first.equalWithin_zero second
  | succ budget ih =>
    rcases lists_or_flat a c with flat | ⟨as, cs, rfl, rfl⟩
    · have flat' : b.list? = none ∨ d.list? = none := flat.imp first.list?_eq.mp second.list?_eq.mp
      rw [equalWithin_flat flat, equalWithin_flat flat']
      exact first.equalWithin_zero second
    · cases first with
      | flat flat => cases flat
      | list first =>
        cases second with
        | flat flat => cases flat
        | @list _ ds second =>
          rw [Bool.eq_iff_iff, equalWithin_lists, equalWithin_lists]
          induction first generalizing cs ds with
          | nil =>
            cases second with
            | nil => simp
            | cons => simp
          | cons same _ rest =>
            cases second with
            | nil => simp
            | cons same' others =>
              rw [List.forall₂_cons, List.forall₂_cons, ih same same', rest _ others]

theorem Same.equal {a b c d : Datum} (acyclic : h.Acyclic) (acyclic' : g.Acyclic)
    (first : h.Same g a b) (second : h.Same g c d) : g.equal b d = h.equal a c := by
  have large : h.size + 1 ≤ max (h.size + 1) (g.size + 1) := Nat.le_max_left _ _
  have large' : g.size + 1 ≤ max (h.size + 1) (g.size + 1) := Nat.le_max_right _ _
  rw [Heap.equal, ← equalWithin_nested (acyclic'.nested b) d large', first.equalWithin second,
    equalWithin_nested (acyclic.nested a) c large, Heap.equal]

theorem equal_lists (acyclic : h.Acyclic) {as bs : List CellId} :
    h.equal (.list as) (.list bs) ↔
      as.length = bs.length ∧ ∀ p ∈ as.zip bs, h.equal (h.get p.1) (h.get p.2) := by
  have nested := acyclic.nested (.list as)
  rw [Heap.equal, equalWithin_lists, List.forall₂_iff_zip]
  apply and_congr_right
  intro _
  constructor
  · intro all p member
    rw [Heap.equal, equalWithin_nested (nested p.1 (List.of_mem_zip member).1) _
      (Nat.le_succ h.size)]
    exact all member
  · intro all a b member
    have same := all (a, b) member
    rwa [Heap.equal, equalWithin_nested (nested a (List.of_mem_zip member).1) _
      (Nat.le_succ h.size)] at same

end Heap

/-- Equality is symmetric and transitive on a heap in which no list contains itself. A value is
equal to itself exactly if no number found in it is a NaN. Two lists are equal exactly if they have
the same length and their elements hold equal values, so that values are equal to the same values if
they hold the same, in whichever cells of whichever heap. -/
theorem equality_partial_equivalence {h : Heap} (acyclic : h.Acyclic) (a b c : Datum) :
    h.equal a b = h.equal b a ∧
      (h.equal a b → h.equal b c → h.equal a c) ∧
      (h.equal a a ↔ ∀ x, h.Found a (.number x) → x.isNaN = false) ∧
      (∀ as bs : List CellId, h.equal (.list as) (.list bs) ↔
        as.length = bs.length ∧ ∀ p ∈ as.zip bs, h.equal (h.get p.1) (h.get p.2)) ∧
      ∀ (g : Heap) (d e : Datum), g.Acyclic → h.Same g a d → h.Same g b e →
        g.equal d e = h.equal a b :=
  ⟨h.equalWithin_symm _ a b, Heap.equalWithin_trans, Heap.equalWithin_self (acyclic.nested a),
    fun _ _ => Heap.equal_lists acyclic, fun _ _ _ acyclic' first second =>
      first.equal acyclic acyclic' second⟩

/-- Zero and minus zero in two cells, two lists of them that share their cells in different ways,
and a list with a NaN beside one of these. -/
def zeroPairs : Heap :=
  ⟨#[.number (.ofMagnitude false 0), .number (.ofMagnitude true 0), .list [0, 0], .list [0, 1],
    .number .nan, .list [3, 4]]⟩

theorem equality_partial_equivalence_zeros :
    zeroPairs.Acyclic ∧ zeroPairs.equal (.list [2]) (.list [3]) = true ∧
      zeroPairs.equal (.list [3]) (.list [2]) = true ∧ zeroPairs.equal (.list [2])
        (.list [2]) = true ∧
      ∃ x, zeroPairs.Found (.list [5]) (.number x) ∧ x.isNaN = true := by
  have ranked : zeroPairs.Ranked id := by
    intro c e holds
    have inside := Heap.holds_inside holds
    exact (by decide +kernel : ∀ c < zeroPairs.size, ∀ e ∈ (zeroPairs.get c).elements, e < c) c
      inside e holds
  have acyclic := ranked.acyclic
  have same : zeroPairs.equal (.list [2]) (.list [3]) = true := by decide +kernel
  obtain ⟨symm, trans, -⟩ :=
    equality_partial_equivalence acyclic (.list [2]) (.list [3]) (.list [2])
  have back : zeroPairs.equal (.list [3]) (.list [2]) = true := symm ▸ same
  refine ⟨acyclic, same, back, trans same back, ?_⟩
  -- The list with the NaN is not equal to itself, so the NaN is found in it.
  obtain ⟨-, -, self, -⟩ := equality_partial_equivalence acyclic (.list [5]) (.list [5]) (.list [5])
  by_contra none
  have differs : zeroPairs.equal (.list [5]) (.list [5]) = false := by decide +kernel
  rw [self.mpr fun x found => Bool.eq_false_iff.mpr fun nan => none ⟨x, found, nan⟩] at differs
  cases differs

end CallScript
