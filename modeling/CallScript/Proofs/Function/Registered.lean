import Mathlib.Data.List.Basic
import CallScript.Function.Registry
import CallScript.Proofs.Function.Outline

/- The functions of a registry. Its candidates for a name are the functions with that name, oldest
   first; in a registry that grows by definitions only, all of them after the first are
   definitions. -/
namespace CallScript

structure Definition.Plain (d : Definition) : Prop where
  evaluated : ∀ slot ∈ d.signature.slots, slot ≠ .raw
  single : d.signature.repeating = false

namespace Registry

/-- The positions kept for a name are those of the functions with that name. -/
structure Indexed (r : Registry) : Prop where
  inside : ∀ name, ∀ i ∈ (r.positions.lookup name).getD [], i < r.functions.size
  candidates_eq : ∀ name, r.candidates name = r.functions.toList.filter (·.signature.name = name)

theorem lookup_enter (name other : Name) (position : Nat) (positions : List (Name × List Nat)) :
    ((enter name position positions).lookup other).getD [] =
      (positions.lookup other).getD [] ++ if name = other then [position] else [] := by
  induction positions with
  | nil =>
    by_cases same : name = other
    · simp [enter, same]
    · simp [enter, same, List.lookup_cons, beq_false_of_ne (Ne.symm same)]
  | cons first rest ih =>
    obtain ⟨held, list⟩ := first
    simp only [enter]
    by_cases same : name = held
    · subst same
      by_cases found : other = name
      · simp [found]
      · simp [List.lookup_cons, beq_false_of_ne found, Ne.symm found]
    · by_cases found : other = held
      · simp [same, found]
      · simp only [same, if_false, List.lookup_cons, beq_false_of_ne found]
        exact ih

theorem Indexed.empty : Indexed empty :=
  ⟨by simp [Registry.empty], by simp [candidates, Registry.empty]⟩

theorem Indexed.add {r : Registry} (indexed : r.Indexed) (f : Function) : (r.add f).Indexed := by
  constructor
  · intro name i member
    simp only [Registry.add, lookup_enter, List.mem_append, Array.size_push] at member ⊢
    rcases member with member | member
    · exact Nat.lt_succ_of_lt (indexed.inside name i member)
    · split at member
      · simp only [List.mem_singleton] at member
        omega
      · simp at member
  · intro name
    have old : ((r.positions.lookup name).getD []).filterMap (fun i => (r.functions.push f)[i]?) =
        r.candidates name := by
      apply List.filterMap_congr
      intro i member
      rw [Array.getElem?_push_lt (indexed.inside name i member),
        Array.getElem?_eq_getElem (indexed.inside name i member)]
    simp only [candidates, Registry.add, lookup_enter, List.filterMap_append, Array.toList_push,
      List.filter_append]
    rw [old, indexed.candidates_eq]
    by_cases same : f.signature.name = name
    · simp [same]
    · simp [same]

theorem Indexed.addAll {r : Registry} (indexed : r.Indexed) (list : List Function) :
    (list.foldl Registry.add r).Indexed := by
  induction list generalizing r with
  | nil => exact indexed
  | cons f rest ih => exact ih (indexed.add f)

theorem functions_addAll (r : Registry) (list : List Function) :
    (list.foldl add r).functions.toList = r.functions.toList ++ list := by
  induction list generalizing r with
  | nil => simp
  | cons f rest ih => simp [ih, add]

def Extends (r extended : Registry) : Prop := ∃ added : List Function, extended = added.foldl add r

theorem Extends.refl (r : Registry) : r.Extends r := ⟨[], rfl⟩

theorem Extends.add (r : Registry) (f : Function) : r.Extends (r.add f) := ⟨[f], rfl⟩

theorem Extends.trans {r s t : Registry} (first : r.Extends s) (second : s.Extends t) :
    r.Extends t := by
  obtain ⟨added, rfl⟩ := first
  obtain ⟨later, rfl⟩ := second
  exact ⟨added ++ later, List.foldl_append.symm⟩

theorem Indexed.extends {r extended : Registry} (indexed : r.Indexed) (grows : r.Extends extended) :
    extended.Indexed := by
  obtain ⟨added, rfl⟩ := grows
  exact indexed.addAll added

theorem functions_initial : initial.functions.toList = builtins := by
  simp [initial, functions_addAll, empty]

inductive Grown : Registry → Prop where
  | initial : Grown initial
  | define {r : Registry} (grown : Grown r) {args : List Argument} {outline : Outline}
    (read : Outline.ofArguments args = .ok outline) (closure : Scope) :
    Grown (r.add (.defined (outline.close closure)))

theorem Grown.indexed {r : Registry} (grown : r.Grown) : r.Indexed := by
  induction grown with
  | initial => exact Indexed.empty.addAll builtins
  | define _ _ closure ih => exact ih.add _

theorem Grown.functions {r : Registry} (grown : r.Grown) :
    ∃ defined : List Definition, r.functions.toList = builtins ++ defined.map .defined ∧
      ∀ d ∈ defined, d.Plain := by
  induction grown with
  | initial => exact ⟨[], by simp [functions_initial], by simp⟩
  | @define r _ args outline read closure ih =>
    obtain ⟨defined, functions, plain⟩ := ih
    refine ⟨defined ++ [outline.close closure], by simp [add, functions], ?_⟩
    intro d member
    rcases List.mem_append.mp member with member | member
    · exact plain d member
    · rw [List.mem_singleton.mp member]
      exact ⟨Outline.slot_ne_raw read, rfl⟩

theorem builtin_names : (builtins.map (·.signature.name)).Nodup := by
  decide +kernel

theorem filter_name {list : List Function} (distinct : (list.map (·.signature.name)).Nodup)
    (name : Name) :
    list.filter (·.signature.name = name) = (list.find? (·.signature.name = name)).toList := by
  induction list with
  | nil => rfl
  | cons f rest ih =>
    simp only [List.map_cons, List.nodup_cons] at distinct
    by_cases same : f.signature.name = name
    · have others : rest.filter (·.signature.name = name) = [] := by
        rw [List.filter_eq_nil_iff]
        intro g member called
        apply distinct.1
        rw [same, ← of_decide_eq_true called]
        exact List.mem_map_of_mem member
      simp [same, others]
    · simp [same, ih distinct.2]

theorem Grown.plain {r : Registry} (grown : r.Grown) {d : Definition}
    (member : .defined d ∈ r.functions) :
    d.Plain := by
  obtain ⟨defined, functions, plain⟩ := grown.functions
  rw [← Array.mem_toList_iff, functions, List.mem_append] at member
  rcases member with member | member
  · simp [builtins] at member
  · obtain ⟨e, held, same⟩ := List.mem_map.mp member
    cases same
    exact plain d held

/-- A built-in function is only ever the first candidate. -/
theorem Grown.later_defined {r : Registry} (grown : r.Grown) (name : Name) {f : Function}
    (later : f ∈ (r.candidates name).tail) : ∃ d, f = .defined d := by
  obtain ⟨defined, functions, _⟩ := grown.functions
  rw [grown.indexed.candidates_eq, functions, List.filter_append,
    filter_name builtin_names] at later
  have member : f ∈ (defined.map .defined).filter (·.signature.name = name) := by
    cases found : builtins.find? (·.signature.name = name) with
    | none =>
      rw [found] at later
      exact List.mem_of_mem_tail later
    | some first =>
      rw [found] at later
      exact later
  obtain ⟨d, _, rfl⟩ := List.mem_map.mp (List.mem_of_mem_filter member)
  exact ⟨d, rfl⟩

theorem mem_of_candidate {r : Registry} {name : Name} {f : Function}
    (member : f ∈ r.candidates name) : f ∈ r.functions := by
  obtain ⟨i, _, found⟩ := List.mem_filterMap.mp member
  exact Array.mem_of_getElem? found

theorem mem_of_definition {r : Registry} {d : Definition} (member : d ∈ r.definitions) :
    .defined d ∈ r.functions := by
  obtain ⟨f, held, same⟩ := List.mem_filterMap.mp member
  cases f with
  | defined e =>
    cases same
    exact Array.mem_toList_iff.mp held
  | _ => cases same

end Registry
end CallScript
