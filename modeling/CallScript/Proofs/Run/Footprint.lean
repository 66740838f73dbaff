import CallScript.Proofs.Run.Builtins
import CallScript.Proofs.Run.Isolation

/- What a call can change. A region of cells is fenced off when its cells refer to each other and to
   new cells only; a program that starts with cells of the region, and can call only functions that
   keep cells of the region, never gets hold of another cell. So a call changes no cell but those
   that its arguments, the scopes that functions have captured and the literals of their bodies lead
   to. -/
namespace CallScript

open Eval

namespace Duplication

variable {free : CellId → Prop}

structure Confined (free : CellId → Prop) (s : Duplication) : Prop where
  heap : s.heap.Fenced free
  images : ∀ p ∈ s.images, free p.2

structure Spares (free : CellId → Prop) (s t : Duplication) : Prop where
  heap : s.heap.Spares free t.heap
  images : ∀ p ∈ t.images, free p.2

theorem Confined.refl {s : Duplication} (confined : s.Confined free) : s.Spares free s :=
  ⟨confined.heap.refl, confined.images⟩

theorem Spares.confined {s t : Duplication} (spares : s.Spares free t) : t.Confined free :=
  ⟨spares.heap.fenced, spares.images⟩

theorem Spares.trans {s t u : Duplication} (first : s.Spares free t) (second : t.Spares free u) :
    s.Spares free u :=
  ⟨first.heap.trans second.heap, second.images⟩

theorem Confined.reserve {s : Duplication} (confined : s.Confined free) (c : CellId) :
    free (reserve c s).1 ∧ s.Spares free (reserve c s).2 := by
  have new : free s.heap.size := confined.heap.later _ (Nat.le_refl _)
  refine ⟨new, confined.heap.alloc (by simp [Datum.cells]), ?_⟩
  intro p member
  rcases List.mem_cons.mp member with rfl | member
  · exact new
  · exact confined.images p member

theorem Confined.fill {s : Duplication} (confined : s.Confined free) {dup : CellId}
    (isFree : free dup) {d : Datum} (inside : ∀ c ∈ d.cells, free c) :
    s.Spares free { s with heap := s.heap.set dup d } :=
  ⟨confined.heap.set isFree inside, confined.images⟩

theorem cells_spares {copy : CellId → Duplication → CellId × Duplication}
    (one : ∀ c s, s.Confined free → free c → free (copy c s).1 ∧ s.Spares free (copy c s).2)
    {list : List CellId} (inside : ∀ c ∈ list, free c) {s : Duplication}
    (confined : s.Confined free) :
    (∀ c ∈ (cells copy list s).1, free c) ∧ s.Spares free (cells copy list s).2 := by
  induction list generalizing s with
  | nil => exact ⟨by simp [cells], confined.refl⟩
  | cons c rest ih =>
    obtain ⟨dup, spares⟩ := one c s confined (inside c List.mem_cons_self)
    obtain ⟨dups, others⟩ :=
      ih (fun e member => inside e (List.mem_cons_of_mem c member)) spares.confined
    refine ⟨?_, spares.trans others⟩
    intro e member
    rcases List.mem_cons.mp member with rfl | member
    · exact dup
    · exact dups e member

theorem cell_spares (budget : Nat) (c : CellId) (s : Duplication) (confined : s.Confined free)
    (isFree : free c) :
    free (cell budget c s).1 ∧ s.Spares free (cell budget c s).2 := by
  induction budget generalizing c s with
  | zero => exact ⟨isFree, confined.refl⟩
  | succ budget ih =>
    simp only [cell]
    split
    · rename_i dup found
      obtain ⟨before, after, images, _⟩ := List.lookup_eq_some_iff.mp found
      refine ⟨confined.images (c, dup) ?_, confined.refl⟩
      rw [images]
      exact List.mem_append_right before List.mem_cons_self
    · obtain ⟨new, reserved⟩ := confined.reserve c
      have inside : ∀ e ∈ ((reserve c s).2.heap.get c).cells, free e :=
        fun e refers => reserved.heap.fenced.closed c e isFree refers
      split
      · rename_i elements held
        rw [held] at inside
        obtain ⟨dups, others⟩ := cells_spares ih inside reserved.confined
        exact ⟨new, reserved.trans (others.trans (others.confined.fill new dups))⟩
      · exact ⟨new, reserved.trans (reserved.confined.fill new inside)⟩

end Duplication

section Confinement

variable {free : CellId → Prop} {m : Machine}

theorem Scope.snapshot_spares {s : Scope} {h : Heap} (fenced : h.Fenced free)
    (bound : ∀ p ∈ s.bindings, free p.2) :
    (∀ p ∈ (s.snapshot h).1.bindings, free p.2) ∧ h.Spares free (s.snapshot h).2 := by
  have inside : ∀ c ∈ s.bindings.map Prod.snd, free c := by
    intro c member
    obtain ⟨p, held, rfl⟩ := List.mem_map.mp member
    exact bound p held
  have start : Duplication.Confined free ⟨h, []⟩ := ⟨fenced, by simp⟩
  obtain ⟨dups, spares⟩ :=
    Duplication.cells_spares (Duplication.cell_spares (h.size + 1)) inside start
  exact ⟨fun p member => dups p.2 (List.of_mem_zip member).2, spares.heap⟩

theorem Scope.mem_bindAll {pairs : List (Name × CellId)} {s : Scope} {p : Name × CellId}
    (member : p ∈ (s.bindAll pairs).bindings) : p ∈ pairs ∨ p ∈ s.bindings := by
  induction pairs generalizing s with
  | nil => exact Or.inr member
  | cons first rest ih =>
    rcases ih member with later | held
    · exact Or.inl (List.mem_cons_of_mem first later)
    · rcases Scope.mem_insert held with rfl | held
      · exact Or.inl List.mem_cons_self
      · exact Or.inr held

def Function.Confined (free : CellId → Prop) : Function → Prop
  | .defined f =>
    (∀ p ∈ f.closure.bindings, free p.2) ∧ ∀ inv ∈ f.body, inv.Every fun d => ∀ c ∈ d.cells, free c
  | _ => True

structure Machine.Confined (free : CellId → Prop) (m : Machine) : Prop where
  heap : m.heap.Fenced free
  scope : ∀ p ∈ m.scope.bindings, free p.2
  functions : ∀ f ∈ m.registry.functions, f.Confined free

structure Machine.Spares (free : CellId → Prop) (m n : Machine) : Prop where
  heap : m.heap.Spares free n.heap
  confined : n.Confined free

theorem Machine.Confined.refl (confined : m.Confined free) : m.Spares free m :=
  ⟨confined.heap.refl, confined⟩

theorem Machine.Spares.trans (m n k : Machine) (first : m.Spares free n)
    (second : n.Spares free k) : m.Spares free k :=
  ⟨first.heap.trans second.heap, second.confined⟩

theorem Machine.Confined.touches {α : Type} {good : α → Prop} {x : Eval α}
    (confined : m.Confined free) (touches : Touches x m) (sparing : Sparing free good x m) :
    Keeps (Machine.Spares free) (fun a _ => good a) x m := by
  apply ((touches.and sparing).imp fun c n _ both => both.2).looser
  intro n both
  obtain ⟨touched, spares⟩ := both
  refine ⟨spares, spares.fenced, ?_, ?_⟩
  · rw [touched]
    exact confined.scope
  · rw [touched]
    exact confined.functions

theorem Makes.sparing {good : Datum → Prop} {x : Eval CellId} (makes : Makes good x m)
    (fenced : m.heap.Fenced free) (inside : ∀ d, good d → ∀ c ∈ d.cells, free c) :
    Sparing free free x m := by
  unfold Makes at makes
  unfold Sparing Keeps
  split at makes
  · rename_i run
    obtain ⟨d, console, ok, rfl, rfl⟩ := makes
    rw [run]
    exact ⟨fenced.alloc (inside d ok), fenced.later _ (Nat.le_refl _)⟩
  · rename_i run
    obtain ⟨console, rfl⟩ := makes
    rw [run]
    exact fenced.refl

theorem sparing_index (fenced : m.heap.Fenced free) {target position : CellId}
    (isFree : free target) :
    Sparing free free (SystemFunction.runIndex target position) m := by
  apply Keeps.bind sparing_trans (sparing_elements fenced isFree)
  intro elements n _ ok
  obtain ⟨rfl, inside⟩ := ok
  apply Keeps.bind sparing_trans (keeps_expect (fun _ k => k = n) fenced.refl fun _ _ => rfl)
  intro value k _ same
  subst same
  split
  · exact keeps_fail fenced.refl
  · exact keeps_need _ fenced.refl fun c found => inside c (List.mem_of_getElem? found)

theorem sparing_system (f : SystemFunction) {args : List CellId} (fenced : m.heap.Fenced free)
    (inside : ∀ c ∈ args, free c) : Sparing free free (f.run args) m := by
  cases f.works args with
  | value makes => exact (makes m).sparing fenced fun d good c member => inside c (good.2 member)
  | push _ run =>
    rw [run]
    exact sparing_push fenced inside
  | pop _ target single run =>
    rw [run]
    exact sparing_pop fenced (inside target (by simp [single]))
  | index _ target position pair run =>
    rw [run]
    exact sparing_index fenced (inside target (by simp [pair]))

theorem sparing_stored (fenced : m.heap.Fenced free) {c v : CellId} (target : free c)
    (value : free v) :
    Sparing free (fun _ => True) (do store c (← Eval.copy (← contents v))) m := by
  apply keeps_contents
  apply Keeps.bind sparing_trans
    (sparing_copy fenced fun e refers => fenced.closed v e value refers)
  intro d n spares inside
  exact sparing_store spares.fenced target inside

theorem Machine.Confined.define (confined : m.Confined free) {args : List Argument}
    {outline : Outline} (read : Outline.ofArguments args = .ok outline)
    (every : ∀ a ∈ args, a.Every fun d => ∀ c ∈ d.cells, free c) :
    m.Spares free (m.define outline) := by
  obtain ⟨closure, spares⟩ := Scope.snapshot_spares confined.heap confined.scope
  refine ⟨spares, spares.fenced, confined.scope, ?_⟩
  intro f member
  rcases Array.mem_push.mp member with member | rfl
  · exact confined.functions f member
  · exact ⟨closure,
      fun inv held => Argument.every_call.mp (every _ (Outline.statement_mem read held))⟩

def confinement (free : CellId → Prop) : Discipline where
  sound := Machine.Confined free
  moved := Machine.Spares free
  cell _ c := free c
  literal _ d := ∀ c ∈ d.cells, free c
  function _ f := f.Confined free
  still _ confined := confined.refl
  trans := Machine.Spares.trans
  sound_after _ _ spares := spares.confined
  cell_after _ _ _ _ isFree := isFree
  literal_after _ _ _ _ inside := inside
  function_after _ _ _ _ confined := confined
  cell_scope _ _ _ isFree := isFree
  bound _ name c confined found := by
    obtain ⟨before, after, bindings, _⟩ := List.lookup_eq_some_iff.mp found
    exact confined.scope (name, c) (by simp [bindings])
  returned m c e confined isFree held :=
    confined.heap.closed c e isFree (by simp [Heap.Refers, held, Datum.cells])
  candidate _ _ f confined member := confined.functions f (Registry.mem_of_candidate member)
  record _ _ confined := ⟨confined.heap.refl, confined.heap, confined.scope, confined.functions⟩
  spend _ _ confined := ⟨confined.heap.refl, confined.heap, confined.scope, confined.functions⟩
  unit _ confined := confined.touches (touches_alloc .unit) (sparing_unit confined.heap)
  copied _ d confined inside :=
    confined.touches (touches_copied d) (sparing_copied confined.heap inside)
  bind _ name c confined isFree := by
    refine ⟨confined.heap.refl, confined.heap, ?_, confined.functions⟩
    intro p member
    rcases Scope.mem_insert member with rfl | member
    · exact isFree
    · exact confined.scope p member
  assign _ c v confined target value :=
    confined.touches (touches_stored c v) (sparing_stored confined.heap target value)
  define _ _ _ confined read every := confined.define read every
  system _ f args confined inside :=
    confined.touches (touches_system f args) (sparing_system f confined.heap inside)
  enter _ f args confined kept inside := by
    refine ⟨⟨confined.heap, ?_, confined.functions⟩, kept.2⟩
    intro p member
    rcases Scope.mem_bindAll member with given | held
    · exact inside p.2 (List.of_mem_zip given).2
    · exact kept.1 p held
  leave _ _ _ confined spares :=
    ⟨spares.heap, spares.confined.heap, confined.scope, spares.confined.functions⟩

theorem keeps_patience (heap : m.heap.Fenced free) :
    Keeps (fun m n => m.heap.Spares free n.heap ∧ n.scope = m.scope)
      (fun _ n => n = { m with patience := n.patience }) checkPatience m := by
  apply keeps_get
  dsimp only
  split
  · exact keeps_pure ⟨heap.refl, rfl⟩ rfl
  · exact keeps_fail ⟨heap.refl, rfl⟩
  · exact keeps_modify ⟨heap.refl, rfl⟩ rfl

theorem call_spares (heap : m.heap.Fenced free)
    (functions : ∀ g ∈ m.registry.functions, g.Confined free)
    {f : Definition} (registered : .defined f ∈ m.registry.functions) {args : List CellId}
    (given : ∀ c ∈ args, free c) (settings : Settings) (fuel depth : Nat) :
    Keeps (fun m n => m.heap.Spares free n.heap ∧ n.scope = m.scope) (fun c _ => free c)
      (f.call (evaluate settings fuel depth) args) m := by
  have trans : ∀ m n k : Machine, m.heap.Spares free n.heap ∧ n.scope = m.scope →
      n.heap.Spares free k.heap ∧ k.scope = n.scope →
        m.heap.Spares free k.heap ∧ k.scope = m.scope :=
    fun m n k first second => ⟨first.1.trans second.1, second.2.trans first.2⟩
  apply Keeps.bind trans (keeps_patience heap)
  intro _ n _ same
  have inner : Machine.Confined free { n with scope := f.closure.bindAll (f.params.zip args) } := by
    rw [same]
    obtain ⟨closure, _⟩ := functions _ registered
    refine ⟨heap, fun p member => ?_, functions⟩
    rcases Scope.mem_bindAll member with bound | held
    · exact given p.2 (List.of_mem_zip bound).2
    · exact closure p held
  have body :=
    Discipline.gives_runBody (R := confinement free)
      (Discipline.obeyed_evaluate settings fuel depth) inner
    (functions _ registered).2
  exact keeps_inScope body (fun k spares => ⟨spares.heap, rfl⟩) fun c k isFree => isFree

end Confinement

mutual

def Argument.literals : Argument → List Datum
  | .literal value => [value]
  | .call _ args => Argument.literalsOf args
  | .ident _ | .unknown _ => []

def Argument.literalsOf : List Argument → List Datum
  | [] => []
  | a :: rest => a.literals ++ Argument.literalsOf rest

end

mutual

theorem Argument.every_iff_literals {p : Datum → Prop} :
    ∀ a : Argument, a.Every p ↔ ∀ d ∈ a.literals, p d
  | .literal value => by simp [Argument.Every, Argument.literals]
  | .call _ args => by
    simp only [Argument.Every, Argument.literals]
    exact Argument.everyOf_iff_literals args
  | .ident _ | .unknown _ => by simp [Argument.Every, Argument.literals]

theorem Argument.everyOf_iff_literals {p : Datum → Prop} :
    ∀ args, Argument.EveryOf p args ↔ ∀ d ∈ Argument.literalsOf args, p d
  | [] => by simp [Argument.EveryOf, Argument.literalsOf]
  | a :: rest => by
    simp only [Argument.EveryOf, Argument.literalsOf, Argument.every_iff_literals a,
      Argument.everyOf_iff_literals rest]
    exact List.forall_mem_append.symm

end

def Function.literals : Function → List Datum
  | .defined f => f.body.flatMap fun inv => Argument.literalsOf inv.args
  | .system _ | .context _ => []

inductive Machine.Source (m : Machine) (args : List CellId) : CellId → Prop where
  | argument {c : CellId} (given : c ∈ args) : Source m args c
  | captured {f : Function} (registered : f ∈ m.registry.functions) {p : Name × CellId}
    (bound : p ∈ f.captured.bindings) : Source m args p.2
  | literal {f : Function} (registered : f ∈ m.registry.functions) {d : Datum}
      (written : d ∈ f.literals) {c : CellId}
    (held : c ∈ d.cells) : Source m args c

/-- The cells that a call can get hold of, through list elements and carried cells. -/
def Machine.Footprint (m : Machine) (args : List CellId) (c : CellId) : Prop :=
  ∃ source, m.Source args source ∧ Relation.ReflTransGen m.heap.Refers source c

namespace Machine.Footprint

variable {m : Machine} {args : List CellId}

theorem fenced (m : Machine) (args : List CellId) :
    m.heap.Fenced fun c => m.Footprint args c ∨ m.heap.size ≤ c := by
  apply Heap.fenced_of_closed
  intro c e held refers
  obtain ⟨source, start, path⟩ := held
  exact ⟨source, start, path.tail refers⟩

theorem functions (m : Machine) (args : List CellId) :
    ∀ g ∈ m.registry.functions, g.Confined fun c => m.Footprint args c ∨ m.heap.size ≤ c := by
  intro g registered
  cases g with
  | system _ => trivial
  | context _ => trivial
  | defined f =>
    constructor
    · intro p bound
      exact Or.inl ⟨p.2, .captured registered bound, .refl⟩
    · intro inv member
      apply (Argument.everyOf_iff_literals _).mpr
      intro d written c held
      exact Or.inl ⟨c, .literal registered (List.mem_flatMap.mpr ⟨inv, member, written⟩) held,
        .refl⟩

end Machine.Footprint

/-- However a call of a defined function ends, a cell that was there before has changed only if the
call could get hold of it: from its arguments, from what functions have captured, or from the
literals in their bodies. The variables of the caller keep their cells, and those that the call
could not get hold of keep their values. -/
theorem call_changes_footprint_only {m : Machine} {f : Definition}
    (registered : .defined f ∈ m.registry.functions)
    (args : List CellId) (settings : Settings) (fuel depth : Nat) :
    let n := after (f.call (evaluate settings fuel depth) args) m
    (∀ c < m.heap.size, n.heap.get c ≠ m.heap.get c → m.Footprint args c) ∧
      ∀ name c, m.scope.find? name = some c → n.scope.find? name = some c ∧
        (c < m.heap.size → ¬ m.Footprint args c → n.heap.get c = m.heap.get c) := by
  intro n
  have given : ∀ c ∈ args, m.Footprint args c ∨ m.heap.size ≤ c :=
    fun c member => Or.inl ⟨c, .argument member, .refl⟩
  obtain ⟨spares, scope⟩ :=
    (call_spares (Machine.Footprint.fenced m args) (Machine.Footprint.functions m args)
    registered given settings fuel depth).move
  have outside : ∀ c < m.heap.size, ¬ m.Footprint args c → n.heap.get c = m.heap.get c := by
    intro c old unreached
    apply spares.same c
    intro held
    rcases held with reached | new
    · exact unreached reached
    · exact absurd old (Nat.not_lt.mpr new)
  constructor
  · intro c old changed
    by_contra unreached
    exact changed (outside c old unreached)
  · intro name c found
    rw [scope]
    exact ⟨found, outside c⟩

/-- `let(x, list(1)) let(y, list(2)) fn(f, any, a, list, push(a, 3))` -/
def pushingFunction : Program :=
  [⟨utf8 "let", [.ident (utf8 "x"), .call (utf8 "list") [.literal (.number (.ofNat 1))]]⟩,
    ⟨utf8 "let", [.ident (utf8 "y"), .call (utf8 "list") [.literal (.number (.ofNat 2))]]⟩,
    ⟨utf8 "fn", [.ident (utf8 "f"), .ident (utf8 "any"), .ident (utf8 "a"), .ident (utf8 "list"),
      .call (utf8 "push") [.ident (utf8 "a"), .literal (.number (.ofNat 3))]]⟩]

theorem call_changes_footprint_only_push :
    let m := ((Interpreter.new 0 false (.ofInput [])).execute 6 .endless pushingFunction).2.machine
    m.scope.find? (utf8 "x") = some 5 ∧ m.scope.find? (utf8 "y") = some 8 ∧
      ∃ f, .defined f ∈ m.registry.functions ∧
        (after (f.call (evaluate ⟨none, false⟩ 4 0) [5]) m).heap.get 5 ≠ m.heap.get 5 ∧
        m.Footprint [5] 5 ∧
        (after (f.call (evaluate ⟨none, false⟩ 4 0) [5]) m).heap.get 8 = m.heap.get 8 := by
  intro m
  have found : m.scope.find? (utf8 "y") = some 8 := by decide +kernel
  refine ⟨by decide +kernel, found, ?_⟩
  have pushes : ∃ f ∈ m.registry.definitions,
      (after (f.call (evaluate ⟨none, false⟩ 4 0) [5]) m).heap.get 5 ≠ m.heap.get 5 := by
        decide +kernel
  obtain ⟨f, defined, changed⟩ := pushes
  have registered : .defined f ∈ m.registry.functions := Registry.mem_of_definition defined
  obtain ⟨changes, keeps⟩ := call_changes_footprint_only registered [5] ⟨none, false⟩ 4 0
  refine ⟨f, registered, changed, changes 5 (by decide +kernel) changed, ?_⟩
  refine (keeps _ 8 found).2 (by decide +kernel) ?_
  -- No cell refers to that of `y`, and neither does a function.
  have unreferred : ∀ c, ¬ m.heap.Refers c 8 := by
    intro c
    by_cases inside : c < m.heap.size
    · exact (by decide +kernel : ∀ c < m.heap.size, 8 ∉ (m.heap.get c).cells) c inside
    · rw [Heap.Refers, Heap.get_outside (Nat.le_of_not_lt inside)]
      simp [Datum.cells]
  have unkept : ∀ g ∈ m.registry.functions.toList,
      (∀ p ∈ g.captured.bindings, p.2 ≠ 8) ∧ ∀ d ∈ g.literals, 8 ∉ d.cells := by decide +kernel
  intro reached
  obtain ⟨source, start, path⟩ := reached
  rcases path.cases_tail with here | ⟨c, _, refers⟩
  · cases start with
    | argument given => simp [← here] at given
    | captured registered bound =>
      exact (unkept _ (Array.mem_toList_iff.mpr registered)).1 _ bound here.symm
    | literal registered written held =>
      exact (unkept _ (Array.mem_toList_iff.mpr registered)).2 _ written (here ▸ held)
  · exact unreferred c refers

end CallScript
