import CallScript.Proofs.Value.Containment

/- Rendering, comparing and copying as they are without a budget: each goes from a list to the
   contents of its elements for as long as there are lists, so a derivation exists exactly when that
   comes to an end. On values whose lists nest no deeper than the budget, the functions with a
   budget give what is derived. -/
namespace CallScript.Heap

mutual

inductive Renders (h : Heap) : Datum → Bytes → Prop where
  | flat {d : Datum} (flat : d.list? = none) : Renders h d (h.renderWithin 0 d)
  | list {elements : List CellId} {parts : List Bytes} (all : RendersAll h elements parts) :
      Renders h (.list elements) (ascii '[' :: Bytes.join (utf8 ", ") parts ++ [ascii ']'])

inductive RendersAll (h : Heap) : List CellId → List Bytes → Prop where
  | nil : RendersAll h [] []
  | cons {c : CellId} {rest : List CellId} {part : Bytes} {parts : List Bytes}
      (first : Renders h (h.get c) part) (others : RendersAll h rest parts) :
      RendersAll h (c :: rest) (part :: parts)

end

mutual

inductive Compares (h : Heap) : Datum → Datum → Bool → Prop where
  | flat {a b : Datum} (flat : a.list? = none ∨ b.list? = none) :
      Compares h a b (h.equalWithin 0 a b)
  | lengths {as bs : List CellId} (differ : as.length ≠ bs.length) :
      Compares h (.list as) (.list bs) false
  | lists {as bs : List CellId} {result : Bool} (same : as.length = bs.length)
      (all : ComparesAll h as bs result) : Compares h (.list as) (.list bs) result

inductive ComparesAll (h : Heap) : List CellId → List CellId → Bool → Prop where
  | nil : ComparesAll h [] [] true
  | differ {a b : CellId} {as bs : List CellId} (first : Compares h (h.get a) (h.get b) false) :
      ComparesAll h (a :: as) (b :: bs) false
  | agree {a b : CellId} {as bs : List CellId} {result : Bool}
      (first : Compares h (h.get a) (h.get b) true) (others : ComparesAll h as bs result) :
      ComparesAll h (a :: as) (b :: bs) result

end

mutual

inductive Copies : Datum → Heap → Datum → Heap → Prop where
  | flat {d : Datum} {h : Heap} (flat : d.list? = none) : Copies d h d h
  | list {elements dups : List CellId} {h g : Heap} (all : CopiesAll elements h dups g) :
      Copies (.list elements) h (.list dups) g

inductive CopiesAll : List CellId → Heap → List CellId → Heap → Prop where
  | nil {h : Heap} : CopiesAll [] h [] h
  | cons {c : CellId} {rest dups : List CellId} {h g k : Heap} {d : Datum}
      (first : Copies (h.get c) h d g) (others : CopiesAll rest (g.alloc d).2 dups k) :
      CopiesAll (c :: rest) h (g.size :: dups) k

end

theorem rendersAll_map {h : Heap} {budget : Nat} {elements : List CellId}
    (each : ∀ c ∈ elements, h.Renders (h.get c) (h.renderWithin budget (h.get c))) :
    h.RendersAll elements (elements.map fun c => h.renderWithin budget (h.get c)) := by
  induction elements with
  | nil => exact .nil
  | cons c rest ih =>
    exact .cons (each c List.mem_cons_self)
      (ih fun e member => each e (List.mem_cons_of_mem c member))

theorem renderWithin_flat {h : Heap} {d : Datum} (flat : d.list? = none) (budget : Nat) :
    h.renderWithin budget d = h.renderWithin 0 d := by
  cases d with
  | list elements => simp [Datum.list?] at flat
  | boolean value => cases value <;> simp only [renderWithin]
  | _ => simp only [renderWithin]

theorem renderWithin_renders {h : Heap} {budget : Nat} {d : Datum} (nested : h.Nested budget d) :
    h.Renders d (h.renderWithin budget d) := by
  induction budget generalizing d with
  | zero => exact .flat nested
  | succ budget ih =>
    cases list : d.list? with
    | none =>
      rw [renderWithin_flat list]
      exact .flat list
    | some elements =>
      obtain rfl := Datum.eq_list list
      simp only [renderWithin]
      exact .list (rendersAll_map fun c member => ih (nested c member))

theorem equalWithin_flat {h : Heap} {a b : Datum} (flat : a.list? = none ∨ b.list? = none)
    (budget : Nat) : h.equalWithin budget a b = h.equalWithin 0 a b := by
  cases a <;> cases b <;> simp_all [equalWithin, Datum.list?]
  rename_i j _ k _
  cases j <;> cases k <;> simp [equalWithin]

theorem comparesAll_zip {h : Heap} {budget : Nat} {as bs : List CellId}
    (same : as.length = bs.length)
    (each : ∀ a ∈ as, ∀ b, h.Compares (h.get a) (h.get b)
      (h.equalWithin budget (h.get a) (h.get b))) :
    h.ComparesAll as bs
      ((as.zip bs).all fun (a, b) => h.equalWithin budget (h.get a) (h.get b)) := by
  induction as generalizing bs with
  | nil =>
    obtain rfl : bs = [] := List.length_eq_zero_iff.mp same.symm
    exact .nil
  | cons a as ih =>
    cases bs with
    | nil => simp at same
    | cons b bs =>
      have first := each a List.mem_cons_self b
      have others := ih (Nat.succ.inj same) fun e member => each e (List.mem_cons_of_mem a member)
      simp only [List.zip_cons_cons, List.all_cons]
      cases verdict : h.equalWithin budget (h.get a) (h.get b) with
      | false => exact .differ (verdict ▸ first)
      | true =>
        rw [Bool.true_and]
        exact .agree (verdict ▸ first) others

theorem equalWithin_compares {h : Heap} {budget : Nat} {a : Datum} (nested : h.Nested budget a)
    (b : Datum) : h.Compares a b (h.equalWithin budget a b) := by
  induction budget generalizing a b with
  | zero => exact .flat (Or.inl nested)
  | succ budget ih =>
    by_cases flat : a.list? = none ∨ b.list? = none
    · rw [equalWithin_flat flat]
      exact .flat flat
    · obtain ⟨as, isList⟩ := Option.ne_none_iff_exists'.mp (not_or.mp flat).1
      obtain ⟨bs, isList'⟩ := Option.ne_none_iff_exists'.mp (not_or.mp flat).2
      obtain rfl := Datum.eq_list isList
      obtain rfl := Datum.eq_list isList'
      simp only [equalWithin]
      by_cases same : as.length = bs.length
      · have all := comparesAll_zip same fun c member e => ih (nested c member) (h.get e)
        simpa [same] using Compares.lists same all
      · rw [beq_false_of_ne same, Bool.false_and]
        exact .lengths same

theorem copyWithin_flat {h : Heap} {d : Datum} (flat : d.list? = none) (budget : Nat) :
    copyWithin budget d h = (d, h) := by
  cases d <;> simp_all [copyWithin, Datum.list?]

mutual

theorem Copies.extends {d e : Datum} {h g : Heap} : Copies d h e g → h.Extends g
  | .flat _ => .refl _
  | .list all => all.extends

theorem CopiesAll.extends {cells dups : List CellId} {h g : Heap} :
    CopiesAll cells h dups g → h.Extends g
  | .nil => .refl _
  | .cons first others => (first.extends.trans (extends_alloc _ _)).trans others.extends

end

mutual

theorem Copies.sound {d e : Datum} {h g : Heap} : Copies d h e g → h.Sound → d.Within h.size →
    g.Sound ∧ e.Within g.size
  | .flat _, sound, inside => ⟨sound, inside⟩
  | .list all, sound, inside => all.sound sound inside

theorem CopiesAll.sound {cells dups : List CellId} {h g : Heap} : CopiesAll cells h dups g →
    h.Sound → (∀ c ∈ cells, c < h.size) → g.Sound ∧ ∀ c ∈ dups, c < g.size
  | .nil, sound, _ => ⟨sound, by simp⟩
  | @CopiesAll.cons c rest _ _ middle _ d first others, sound, inside => by
    obtain ⟨sound', inside'⟩ := first.sound sound (sound.closed c)
    have grown := first.extends.trans (extends_alloc middle d)
    have older : ∀ e ∈ rest, e < (middle.alloc d).2.size := fun e member =>
      Nat.lt_of_lt_of_le (inside e (List.mem_cons_of_mem c member)) grown.size_le
    obtain ⟨sound'', others'⟩ := others.sound (sound'.alloc inside') older
    refine ⟨sound'', ?_⟩
    intro e member
    rcases List.mem_cons.mp member with rfl | member
    · have := others.extends.size_le
      rw [size_alloc] at this
      exact Nat.lt_of_succ_le this
    · exact others' e member

end

def Upward (h : Heap) (bound : Nat) : Prop := ∀ c e, bound ≤ c → h.Holds c e → bound ≤ e

theorem Upward.alloc {h : Heap} {bound : Nat} (upward : h.Upward bound) {d : Datum}
    (fresh : ∀ c ∈ d.elements, bound ≤ c) : (h.alloc d).2.Upward bound := by
  intro c e above holds
  rcases holds_alloc.mp holds with ⟨_, member⟩ | holds
  · exact fresh e member
  · exact upward c e above holds

mutual

theorem Copies.upward {d e : Datum} {h g : Heap} {bound : Nat} : Copies d h e g → bound ≤ h.size →
    h.Upward bound → g.Upward bound ∧ ∀ c ∈ e.elements, bound ≤ c
  | .flat flat, _, upward => ⟨upward, by simp [Datum.elements_eq_nil flat]⟩
  | .list all, le, upward => all.upward le upward

theorem CopiesAll.upward {cells dups : List CellId} {h g : Heap} {bound : Nat} :
    CopiesAll cells h dups g → bound ≤ h.size → h.Upward bound →
    g.Upward bound ∧ ∀ c ∈ dups, bound ≤ c
  | .nil, _, upward => ⟨upward, by simp⟩
  | @CopiesAll.cons _ _ _ _ middle _ d first others, le, upward => by
    obtain ⟨upward', fresh⟩ := first.upward le upward
    have le' : bound ≤ middle.size := Nat.le_trans le first.extends.size_le
    obtain ⟨last, others'⟩ := others.upward (by rw [size_alloc]; omega) (upward'.alloc fresh)
    refine ⟨last, ?_⟩
    intro e member
    rcases List.mem_cons.mp member with rfl | member
    · exact le'
    · exact others' e member

end

theorem upward_size (h : Heap) : h.Upward h.size := by
  intro c e above holds
  exact absurd (holds_inside holds) (Nat.not_lt.mpr above)

theorem Upward.apart {h : Heap} {bound : Nat} (upward : h.Upward bound) {c target : CellId}
    (above : bound ≤ c) (below : target < bound) : ¬ Relation.ReflTransGen h.Holds c target := by
  intro path
  refine Nat.not_lt.mpr ?_ below
  clear below
  induction path with
  | refl => exact above
  | tail _ holds ih => exact upward _ _ ih holds

/-- A copy is made of new cells, and they hold new cells only. -/
theorem Copies.fresh {d e : Datum} {h g : Heap} (copies : Copies d h e g) :
    g.Upward h.size ∧ ∀ c ∈ e.elements, h.size ≤ c :=
  copies.upward (Nat.le_refl _) (upward_size h)

theorem copyCells_copies {budget : Nat}
    (each : ∀ d (h : Heap), h.Sound → d.Within h.size → h.Nested budget d →
      Copies d h (copyWithin budget d h).1 (copyWithin budget d h).2)
    {cells : List CellId} {h : Heap} (sound : h.Sound) (inside : ∀ c ∈ cells, c < h.size)
    (nested : ∀ c ∈ cells, h.Nested budget (h.get c)) :
    CopiesAll cells h (copyCells (copyWithin budget) cells h).1
      (copyCells (copyWithin budget) cells h).2 := by
  induction cells generalizing h with
  | nil => exact .nil
  | cons c rest ih =>
    have first := each (h.get c) h sound (sound.closed c) (nested c List.mem_cons_self)
    obtain ⟨sound', inside'⟩ := first.sound sound (sound.closed c)
    have grown := first.extends.trans (extends_alloc _ (copyWithin budget (h.get c) h).1)
    refine .cons first (ih (sound'.alloc inside') ?_ ?_)
    · intro e member
      exact Nat.lt_of_lt_of_le (inside e (List.mem_cons_of_mem c member)) grown.size_le
    · intro e member
      have old := inside e (List.mem_cons_of_mem c member)
      rw [grown.get_eq e old]
      exact grown.nested sound.closed (sound.closed e) (nested e (List.mem_cons_of_mem c member))

theorem copyWithin_copies {budget : Nat} {d : Datum} {h : Heap} (sound : h.Sound)
    (inside : d.Within h.size) (nested : h.Nested budget d) :
    Copies d h (copyWithin budget d h).1 (copyWithin budget d h).2 := by
  induction budget generalizing d h with
  | zero =>
    rw [copyWithin_flat nested]
    exact .flat nested
  | succ budget ih =>
    cases list : d.list? with
    | none =>
      rw [copyWithin_flat list]
      exact .flat list
    | some elements =>
      obtain rfl := Datum.eq_list list
      exact .list (copyCells_copies (fun d h => ih) sound inside nested)

theorem Acyclic.renders {h : Heap} (acyclic : h.Acyclic) (d : Datum) : h.Renders d (h.render d) :=
  renderWithin_renders (acyclic.nested d)

theorem Acyclic.compares {h : Heap} (acyclic : h.Acyclic) (a b : Datum) :
    h.Compares a b (h.equal a b) :=
  equalWithin_compares (acyclic.nested a) b

theorem Sound.copies {h : Heap} (sound : h.Sound) {d : Datum} (inside : d.Within h.size) :
    Copies d h (h.copy d).1 (h.copy d).2 :=
  copyWithin_copies sound inside (sound.acyclic.nested d)

end CallScript.Heap
