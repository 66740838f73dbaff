import CallScript.Proofs.Value.Unfolding

/- What a copied value has in common with the value, and what it has not. It shows and compares like
   the value, but all its list cells are new, and no cell stands at two positions of it. So it stays
   as it is as long as nothing is done to its own cells. -/
namespace CallScript.Heap

/-- Two heaps have the same contents in a region, out of which no list leads. -/
structure Framed (h g : Heap) (region : CellId → Prop) : Prop where
  closed : ∀ c e, region c → h.Holds c e → region e
  same : ∀ c, region c → g.get c = h.get c

theorem Extends.framed {h g : Heap} (grown : h.Extends g) (closed : h.Closed) :
    h.Framed g (· < h.size) :=
  ⟨fun _ _ _ holds => closed.holds holds, grown.get_eq⟩

theorem all_same {α : Type} {list : List α} {f g : α → Bool} (same : ∀ a ∈ list, f a = g a) :
    list.all f = list.all g := by
  induction list with
  | nil => rfl
  | cons a rest ih =>
    rw [List.all_cons, List.all_cons, same a List.mem_cons_self, ih fun b member =>
      same b (List.mem_cons_of_mem a member)]

theorem renderWithin_zero (h g : Heap) (d : Datum) : g.renderWithin 0 d = h.renderWithin 0 d := by
  cases d with
  | boolean value => cases value <;> simp only [renderWithin]
  | _ => simp only [renderWithin]

theorem equalWithin_zero (h g : Heap) (a b : Datum) :
    g.equalWithin 0 a b = h.equalWithin 0 a b := by
  cases a with
  | flow j _ =>
    cases b with
    | flow k _ => cases j <;> cases k <;> rfl
    | _ => cases j <;> rfl
  | _ => cases b <;> rfl

section Framing

variable {h g : Heap} {region : CellId → Prop} (framed : h.Framed g region)
include framed

theorem renderWithin_framed (budget : Nat) {d : Datum} (inside : ∀ c ∈ d.elements, region c) :
    g.renderWithin budget d = h.renderWithin budget d := by
  induction budget generalizing d with
  | zero => exact renderWithin_zero h g d
  | succ budget ih =>
    cases list : d.list? with
    | none =>
      rw [renderWithin_flat list, renderWithin_zero h g, renderWithin_flat list (budget + 1)]
    | some elements =>
      obtain rfl := Datum.eq_list list
      have parts : ∀ c ∈ elements, g.renderWithin budget (g.get c) =
          h.renderWithin budget (h.get c) := by
        intro c member
        rw [framed.same c (inside c member)]
        exact ih fun e held => framed.closed c e (inside c member) held
      simp only [renderWithin]
      rw [List.map_congr_left parts]

theorem equalWithin_framed (budget : Nat) {a b : Datum} (first : ∀ c ∈ a.elements, region c)
    (second : ∀ c ∈ b.elements, region c) :
    g.equalWithin budget a b = h.equalWithin budget a b := by
  induction budget generalizing a b with
  | zero => exact equalWithin_zero h g a b
  | succ budget ih =>
    by_cases flat : a.list? = none ∨ b.list? = none
    · rw [equalWithin_flat flat, equalWithin_zero h g, equalWithin_flat flat (budget + 1)]
    · obtain ⟨as, isList⟩ := Option.ne_none_iff_exists'.mp (not_or.mp flat).1
      obtain ⟨bs, isList'⟩ := Option.ne_none_iff_exists'.mp (not_or.mp flat).2
      obtain rfl := Datum.eq_list isList
      obtain rfl := Datum.eq_list isList'
      simp only [equalWithin]
      congr 1
      apply all_same
      rintro ⟨a, b⟩ member
      obtain ⟨left, right⟩ := List.of_mem_zip member
      dsimp only
      rw [framed.same a (first a left), framed.same b (second b right)]
      exact ih (fun e held => framed.closed a e (first a left) held) fun e held =>
        framed.closed b e (second b right) held

end Framing

theorem renderWithin_nested {h : Heap} {budget larger : Nat} {d : Datum}
    (nested : h.Nested budget d) (le : budget ≤ larger) :
    h.renderWithin larger d = h.renderWithin budget d := by
  induction budget generalizing d larger with
  | zero => rw [renderWithin_flat nested]
  | succ budget ih =>
    cases list : d.list? with
    | none => rw [renderWithin_flat list, renderWithin_flat list (budget + 1)]
    | some elements =>
      obtain rfl := Datum.eq_list list
      cases larger with
      | zero => exact absurd le (Nat.not_succ_le_zero budget)
      | succ larger =>
        have parts : ∀ c ∈ elements, h.renderWithin larger (h.get c) =
            h.renderWithin budget (h.get c) :=
          fun c member => ih (nested c member) (Nat.le_of_succ_le_succ le)
        simp only [renderWithin]
        rw [List.map_congr_left parts]

theorem equalWithin_nested {h : Heap} {budget larger : Nat} {a : Datum} (nested : h.Nested budget a)
    (b : Datum) (le : budget ≤ larger) : h.equalWithin larger a b = h.equalWithin budget a b := by
  induction budget generalizing a b larger with
  | zero => rw [equalWithin_flat (Or.inl nested)]
  | succ budget ih =>
    by_cases flat : a.list? = none ∨ b.list? = none
    · rw [equalWithin_flat flat, equalWithin_flat flat (budget + 1)]
    · obtain ⟨as, isList⟩ := Option.ne_none_iff_exists'.mp (not_or.mp flat).1
      obtain ⟨bs, isList'⟩ := Option.ne_none_iff_exists'.mp (not_or.mp flat).2
      obtain rfl := Datum.eq_list isList
      obtain rfl := Datum.eq_list isList'
      cases larger with
      | zero => exact absurd le (Nat.not_succ_le_zero budget)
      | succ larger =>
        simp only [equalWithin]
        congr 1
        apply all_same
        rintro ⟨c, e⟩ member
        exact ih (nested c (List.of_mem_zip member).1) (h.get e) (Nat.le_of_succ_le_succ le)

theorem CopiesAll.get_first {rest dups : List CellId} {middle g : Heap} {d : Datum}
    (others : CopiesAll rest (middle.alloc d).2 dups g) : g.get middle.size = d := by
  rw [others.extends.get_eq _ (by simp), get_alloc_self]

theorem CopiesAll.size_lt {rest dups : List CellId} {middle g : Heap} {d : Datum}
    (others : CopiesAll rest (middle.alloc d).2 dups g) : middle.size < g.size := by
  have le := others.extends.size_le
  rw [size_alloc] at le
  exact le

theorem CopiesAll.length_eq {cells dups : List CellId} {h g : Heap}
    (all : CopiesAll cells h dups g) : dups.length = cells.length := by
  induction cells generalizing dups h with
  | nil =>
    cases all
    rfl
  | cons c rest ih =>
    cases all with
    | cons _ others => exact congrArg (· + 1) (ih others)

mutual

theorem Copies.renderWithin {d e : Datum} {h g : Heap} (budget : Nat) :
    Copies d h e g → h.Sound → d.Within h.size → g.renderWithin budget e = h.renderWithin budget d
  | .flat _, _, _ => rfl
  | .list all, sound, inside => by
    cases budget with
    | zero => simp only [Heap.renderWithin]
    | succ budget =>
      simp only [Heap.renderWithin]
      rw [all.renderWithin budget sound inside]

theorem CopiesAll.renderWithin {cells dups : List CellId} {h g : Heap} (budget : Nat) :
    CopiesAll cells h dups g → h.Sound → (∀ c ∈ cells, c < h.size) →
    (dups.map fun c => g.renderWithin budget (g.get c)) = cells.map fun c =>
      h.renderWithin budget (h.get c)
  | .nil, _, _ => rfl
  | @CopiesAll.cons c rest dups _ middle _ d first others, sound, inside => by
    obtain ⟨sound', inside'⟩ := first.sound sound (sound.closed c)
    have grown := first.extends.trans (extends_alloc middle d)
    have older : ∀ e ∈ rest, e < h.size := fun e member => inside e (List.mem_cons_of_mem c member)
    -- The first element is shown in the last heap, which is the one it was copied in wherever it
    -- leads.
    have head : g.renderWithin budget (g.get middle.size) = h.renderWithin budget (h.get c) := by
      rw [others.get_first,
        renderWithin_framed (((extends_alloc middle d).trans others.extends).framed sound'.closed)
        budget fun e held => inside'.element held]
      exact first.renderWithin budget sound (sound.closed c)
    have tail := others.renderWithin budget (sound'.alloc inside') fun e member =>
      Nat.lt_of_lt_of_le (older e member) grown.size_le
    have kept : ∀ e ∈ rest, (middle.alloc d).2.renderWithin budget ((middle.alloc d).2.get e) =
        h.renderWithin budget (h.get e) := by
      intro e member
      rw [grown.get_eq e (older e member)]
      exact renderWithin_framed (grown.framed sound.closed) budget fun x held =>
        (sound.closed e).element held
    rw [List.map_cons, List.map_cons, head, tail, List.map_congr_left kept]

end

mutual

/-- A copy compares with the value like the value with itself. -/
theorem Copies.equalWithin {d e : Datum} {h g : Heap} (budget : Nat) :
    Copies d h e g → h.Sound → d.Within h.size → g.equalWithin budget e d = h.equalWithin budget d d
  | .flat _, _, _ => rfl
  | .list all, sound, inside => by
    cases budget with
    | zero => simp only [Heap.equalWithin]
    | succ budget =>
      simp only [Heap.equalWithin, all.length_eq]
      rw [all.equalWithin budget sound inside]

theorem CopiesAll.equalWithin {cells dups : List CellId} {h g : Heap} (budget : Nat) :
    CopiesAll cells h dups g → h.Sound → (∀ c ∈ cells, c < h.size) →
    ((dups.zip cells).all fun (a, b) => g.equalWithin budget (g.get a) (g.get b)) =
      (cells.zip cells).all fun (a, b) => h.equalWithin budget (h.get a) (h.get b)
  | .nil, _, _ => rfl
  | @CopiesAll.cons c rest dups _ middle _ d first others, sound, inside => by
    obtain ⟨sound', inside'⟩ := first.sound sound (sound.closed c)
    have grown := first.extends.trans (extends_alloc middle d)
    have later := (extends_alloc middle d).trans others.extends
    have old : c < h.size := inside c List.mem_cons_self
    have older : ∀ e ∈ rest, e < h.size := fun e member => inside e (List.mem_cons_of_mem c member)
    have head : g.equalWithin budget (g.get middle.size) (g.get c) =
        h.equalWithin budget (h.get c) (h.get c) := by
      have source : ∀ e ∈ (h.get c).elements, e < middle.size := fun e held =>
        Nat.lt_of_lt_of_le ((sound.closed c).element held) first.extends.size_le
      rw [others.get_first, (first.extends.trans later).get_eq c old,
        equalWithin_framed (later.framed sound'.closed) budget (fun e held => inside'.element held)
          source]
      exact first.equalWithin budget sound (sound.closed c)
    have tail := others.equalWithin budget (sound'.alloc inside') fun e member =>
      Nat.lt_of_lt_of_le (older e member) grown.size_le
    have kept : ∀ p ∈ rest.zip rest,
        (middle.alloc d).2.equalWithin budget ((middle.alloc d).2.get p.1)
        ((middle.alloc d).2.get p.2) = h.equalWithin budget (h.get p.1) (h.get p.2) := by
      intro p member
      obtain ⟨left, right⟩ := List.of_mem_zip member
      rw [grown.get_eq p.1 (older p.1 left), grown.get_eq p.2 (older p.2 right)]
      exact equalWithin_framed (grown.framed sound.closed) budget
        (fun x held => (sound.closed p.1).element held)
        fun x held => (sound.closed p.2).element held
    simp only [List.zip_cons_cons, List.all_cons, head, tail]
    rw [all_same kept]

end

theorem Sound.equal_copy {h : Heap} (sound : h.Sound) {d : Datum} (inside : d.Within h.size) :
    (h.copy d).2.equal (h.copy d).1 d = h.equal d d := by
  have copies := sound.copies inside
  unfold equal
  rw [copies.equalWithin _ sound inside]
  exact equalWithin_nested (sound.acyclic.nested d) d (Nat.succ_le_succ copies.extends.size_le)

/-- A cell stands at a position in nested lists: the path of indices that leads to it. -/
inductive At (h : Heap) : List CellId → List Nat → CellId → Prop where
  | here {elements : List CellId} {i : Nat} {c : CellId} (found : elements[i]? = some c) :
      At h elements [i] c
  | inside {elements : List CellId} {i : Nat} {list c : CellId} {path : List Nat}
      (found : elements[i]? = some list)
      (deeper : At h (h.get list).elements path c) : At h elements (i :: path) c

theorem not_at_nil {h : Heap} {path : List Nat} {c : CellId} : ¬h.At [] path c := by
  intro stands
  cases stands with
  | here found => cases found
  | inside found _ => cases found

theorem at_cons_cases {h : Heap} {first c : CellId} {rest : List CellId} {path : List Nat}
    (stands : h.At (first :: rest) path c) :
    (path = [0] ∧ c = first) ∨
      (∃ deeper, path = 0 :: deeper ∧ h.At (h.get first).elements deeper c) ∨
      ∃ i deeper, path = (i + 1) :: deeper ∧ h.At rest (i :: deeper) c := by
  cases stands with
  | @here _ i _ found =>
    cases i with
    | zero => exact Or.inl ⟨rfl, (Option.some.inj found).symm⟩
    | succ i => exact Or.inr (Or.inr ⟨i, [], rfl, .here found⟩)
  | @inside _ i _ _ deeper found stands =>
    cases i with
    | zero =>
      cases found
      exact Or.inr (Or.inl ⟨deeper, rfl, stands⟩)
    | succ i => exact Or.inr (Or.inr ⟨i, deeper, rfl, .inside found stands⟩)

theorem At.after {h : Heap} {rest : List CellId} {path : List Nat} {c : CellId}
    (stands : h.At rest path c) (first : CellId) : ∃ path, h.At (first :: rest) path c := by
  cases stands with
  | @here _ i _ found => exact ⟨[i + 1], .here found⟩
  | @inside _ i _ _ path found deeper => exact ⟨(i + 1) :: path, .inside found deeper⟩

section Positions

variable {k : Heap} {x : CellId}

-- The cells of a copied element are made before its own cell, and those of the elements after it
-- later. So they are told apart by their numbers.
mutual

theorem Copies.at_new {d e : Datum} {h g : Heap} :
    Copies d h e g → g.Extends k → ∀ {path}, k.At e.elements path x → h.size ≤ x ∧ x < g.size
  | .flat flat, _, _, stands => by
    rw [Datum.elements_eq_nil flat] at stands
    exact absurd stands not_at_nil
  | .list all, later, _, stands => all.at_new later stands

theorem CopiesAll.at_new {cells dups : List CellId} {h g : Heap} :
    CopiesAll cells h dups g → g.Extends k → ∀ {path}, k.At dups path x → h.size ≤ x ∧ x < g.size
  | .nil, _, _, stands => absurd stands not_at_nil
  | @CopiesAll.cons _ _ _ _ middle _ d first others, later, _, stands => by
    have le := first.extends.size_le
    have lt := others.size_lt
    rcases at_cons_cases stands with ⟨-, rfl⟩ | ⟨deeper, -, stands⟩ | ⟨i, deeper, -, stands⟩
    · exact ⟨le, lt⟩
    · rw [later.get_eq _ lt, others.get_first] at stands
      have inner :=
        first.at_new (((extends_alloc middle d).trans others.extends).trans later) stands
      exact ⟨inner.1, Nat.lt_trans inner.2 lt⟩
    · have outer := others.at_new later stands
      rw [size_alloc] at outer
      exact ⟨by omega, outer.2⟩

end

mutual

theorem Copies.at_unique {d e : Datum} {h g : Heap} : Copies d h e g → g.Extends k →
    ∀ {path path'}, k.At e.elements path x → k.At e.elements path' x → path = path'
  | .flat flat, _, _, _, stands, _ => by
    rw [Datum.elements_eq_nil flat] at stands
    exact absurd stands not_at_nil
  | .list all, later, _, _, stands, stands' => all.at_unique later stands stands'

theorem CopiesAll.at_unique {cells dups : List CellId} {h g : Heap} :
    CopiesAll cells h dups g → g.Extends k →
    ∀ {path path'}, k.At dups path x → k.At dups path' x → path = path'
  | .nil, _, _, _, stands, _ => absurd stands not_at_nil
  | @CopiesAll.cons _ _ dups _ middle _ d first others, later, _, _, stands, stands' => by
    have lt := others.size_lt
    have later' := ((extends_alloc middle d).trans others.extends).trans later
    have held : k.get middle.size = d := by rw [later.get_eq _ lt, others.get_first]
    have below : ∀ {deeper}, k.At d.elements deeper x → x < middle.size :=
      fun inner => (first.at_new later' inner).2
    have above : ∀ {deeper}, k.At dups deeper x → middle.size < x := by
      intro deeper outer
      have new := others.at_new later outer
      rw [size_alloc] at new
      exact new.1
    rcases at_cons_cases stands with ⟨rfl, rfl⟩ | ⟨deeper, rfl, inner⟩ | ⟨i, deeper, rfl, outer⟩
    · rcases at_cons_cases stands' with ⟨rfl, -⟩ | ⟨_, -, inner⟩ | ⟨_, _, -, outer⟩
      · rfl
      · exact absurd (below (held ▸ inner)) (Nat.lt_irrefl _)
      · exact absurd (above outer) (Nat.lt_irrefl _)
    · rw [held] at inner
      rcases at_cons_cases stands' with ⟨-, rfl⟩ | ⟨deeper', rfl, inner'⟩ | ⟨_, _, -, outer⟩
      · exact absurd (below inner) (Nat.lt_irrefl _)
      · rw [held] at inner'
        rw [first.at_unique later' inner inner']
      · exact absurd (Nat.lt_trans (below inner) (above outer)) (Nat.lt_irrefl _)
    · rcases at_cons_cases stands' with ⟨-, rfl⟩ | ⟨_, -, inner⟩ | ⟨j, deeper', rfl, outer'⟩
      · exact absurd (above outer) (Nat.lt_irrefl _)
      · rw [held] at inner
        exact absurd (Nat.lt_trans (below inner) (above outer)) (Nat.lt_irrefl _)
      · obtain ⟨rfl, rfl⟩ := List.cons.inj (others.at_unique later outer outer')
        rfl

end

mutual

theorem Copies.exists_at {d e : Datum} {h g : Heap} :
    Copies d h e g → g.Extends k → h.size ≤ x → x < g.size → ∃ path, k.At e.elements path x
  | .flat _, _, above, below => absurd below (Nat.not_lt.mpr above)
  | .list all, later, above, below => all.exists_at later above below

theorem CopiesAll.exists_at {cells dups : List CellId} {h g : Heap} :
    CopiesAll cells h dups g → g.Extends k → h.size ≤ x → x < g.size → ∃ path, k.At dups path x
  | .nil, _, above, below => absurd below (Nat.not_lt.mpr above)
  | @CopiesAll.cons _ _ dups _ middle _ d first others, later, above, below => by
    have held : k.get middle.size = d := by rw [later.get_eq _ others.size_lt, others.get_first]
    rcases Nat.lt_trichotomy x middle.size with earlier | same | after
    · obtain ⟨path, stands⟩ :=
        first.exists_at (((extends_alloc middle d).trans others.extends).trans later) above earlier
      exact ⟨0 :: path, .inside rfl (held ▸ stands)⟩
    · exact ⟨[0], .here (congrArg some same.symm)⟩
    · obtain ⟨path, stands⟩ := others.exists_at later (by rwa [size_alloc]) below
      exact stands.after middle.size

end

end Positions

theorem Framed.path {h g : Heap} {region : CellId → Prop} (framed : h.Framed g region)
    {c e : CellId} (start : ∀ e, g.Holds c e → region e) (path : Relation.TransGen g.Holds c e) :
    region e := by
  induction path with
  | single holds => exact start _ holds
  | @tail b e _ holds ih =>
    rw [Holds, framed.same b ih] at holds
    exact framed.closed b e ih holds

section Kept

/- A copy has been made, and its cells have not been touched since. -/
variable {h g k : Heap} {d e : Datum} (copies : Copies d h e g) (sound : h.Sound)
  (inside : d.Within h.size) (same : ∀ c, h.size ≤ c → c < g.size → k.get c = g.get c)
include copies sound inside

theorem Copies.elements_new {c : CellId} (member : c ∈ e.elements) : h.size ≤ c ∧ c < g.size :=
  ⟨copies.fresh.2 c member, (copies.sound sound inside).2.element member⟩

include same

theorem Copies.framed : g.Framed k fun c => h.size ≤ c ∧ c < g.size := by
  refine ⟨?_, fun c new => same c new.1 new.2⟩
  intro c x new holds
  exact ⟨copies.fresh.1 c x new.1 holds, (copies.sound sound inside).1.closed.holds holds⟩

theorem Copies.leads_new {c x : CellId} (held : k.get c = e)
    (path : Relation.TransGen k.Holds c x) : h.size ≤ x ∧ x < g.size := by
  refine (copies.framed sound inside same).path ?_ path
  intro y holds
  rw [Holds, held] at holds
  exact copies.elements_new sound inside holds

theorem Copies.render_kept (le : h.size ≤ k.size) : k.render e = h.render d := by
  unfold render
  rw [renderWithin_framed (copies.framed sound inside same) _ fun c =>
    copies.elements_new sound inside, copies.renderWithin _ sound inside]
  exact renderWithin_nested (sound.acyclic.nested d) (Nat.succ_le_succ le)

end Kept

end CallScript.Heap
