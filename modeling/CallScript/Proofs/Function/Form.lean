import CallScript.Proofs.Function.Outline
import CallScript.Run.Evaluator

/- The form of a definition. The arguments of `fn` are a name, a type, pairs of a parameter and its
   type, and then one invocation or more. Only an identifier can begin a pair and only an invocation
   can be a statement, so a list of arguments has this form in one way at most; it is read if it has
   the form, and refused if it has not. -/
namespace CallScript

def ResultType.names : ResultType → List Name
  | .any => [utf8 "any"]
  | .shape .string => [utf8 "str", utf8 "string"]
  | .shape .number => [utf8 "num", utf8 "number"]
  | .shape .boolean => [utf8 "bool", utf8 "boolean"]
  | .shape .unit => [utf8 "void", utf8 "unit"]
  | .shape .list => [utf8 "list"]
  | .shape .controlFlow => []

theorem ResultType.ofTypeName?_eq_some {name : Name} {t : ResultType} :
    ofTypeName? name = some t ↔ name ∈ t.names := by
  constructor
  · intro found
    have listed : ∀ p ∈ typeNames, p.1 ∈ p.2.names := by decide +kernel
    obtain ⟨before, after, split, -⟩ := List.lookup_eq_some_iff.mp found
    exact listed (name, t) (split ▸ List.mem_append_right before List.mem_cons_self)
  · intro member
    have found : ∀ x ∈ t.names, ofTypeName? x = some t := by
      cases t with
      | any => decide +kernel
      | shape s => cases s <;> decide +kernel
    exact found name member

/-- What is written in a definition: a name, the name of a type, parameters with the names of their
types, and statements. -/
structure DefinitionForm where
  name : Name
  result : Name
  params : List (Name × Name)
  body : List Invocation

namespace DefinitionForm

def arguments (f : DefinitionForm) : List Argument :=
  .ident f.name :: .ident f.result :: (Outline.pairs f.params ++ Outline.statements f.body)

structure Valid (f : DefinitionForm) : Prop where
  result : ∃ t : ResultType, f.result ∈ t.names
  params : ∀ p ∈ f.params, ∃ t : ResultType, p.2 ∈ t.names
  body : f.body ≠ []

/-- The slot for a parameter of a type takes anything, or asks for a shape. -/
def Declares (typeName : Name) : Slot → Prop
  | .raw => False
  | .any => typeName ∈ ResultType.any.names
  | .shape s => typeName ∈ (ResultType.shape s).names

/-- A function that is as it was written. -/
structure Describes (f : DefinitionForm) (d : Definition) : Prop where
  name : d.signature.name = f.name
  returns : f.result ∈ d.signature.returns.names
  single : d.signature.repeating = false
  slots : List.Forall₂ (fun p slot => Declares p.2 slot) f.params d.signature.slots
  params : d.params = f.params.map Prod.fst
  body : d.body = f.body

theorem statements_injective {body other : List Invocation}
    (same : Outline.statements body = Outline.statements other) :
    body = other := by
  apply List.map_injective_iff.mpr ?_ same
  intro inv inv' equal
  cases inv
  cases inv'
  cases equal
  rfl

theorem pairs_statements_injective {params others : List (Name × Name)}
    {body rest : List Invocation}
    (same : Outline.pairs params ++ Outline.statements body =
      Outline.pairs others ++ Outline.statements rest) :
    params = others ∧ body = rest := by
  induction params generalizing others with
  | nil =>
    cases others with
    | nil => exact ⟨rfl, statements_injective same⟩
    | cons p others =>
      cases body with
      | nil => cases same
      | cons inv body => cases same
  | cons p params ih =>
    cases others with
    | nil =>
      cases rest with
      | nil => cases same
      | cons inv rest => cases same
    | cons q others =>
      simp only [Outline.pairs_cons, List.cons_append, List.cons.injEq,
        Argument.ident.injEq] at same
      obtain ⟨first, second, later⟩ := same
      obtain ⟨rfl, rfl⟩ := ih later
      rw [Prod.ext first second]
      exact ⟨rfl, rfl⟩

theorem arguments_injective {f g : DefinitionForm} (same : f.arguments = g.arguments) : f = g := by
  obtain ⟨name, result, params, body⟩ := f
  obtain ⟨name', result', params', body'⟩ := g
  simp only [arguments, List.cons.injEq, Argument.ident.injEq] at same
  obtain ⟨rfl, rfl, rest⟩ := same
  obtain ⟨rfl, rfl⟩ := pairs_statements_injective rest
  rfl

theorem exists_declared {params : List (Name × Name)}
    (known : ∀ p ∈ params, ∃ t : ResultType, p.2 ∈ t.names) :
    ∃ read, List.Forall₂ Outline.Declared params read := by
  induction params with
  | nil => exact ⟨[], .nil⟩
  | cons p params ih =>
    obtain ⟨t, named⟩ := known p List.mem_cons_self
    obtain ⟨read, declared⟩ := ih fun q member => known q (List.mem_cons_of_mem p member)
    exact ⟨(p.1, t.slot) :: read,
      .cons ⟨rfl, t, ResultType.ofTypeName?_eq_some.mpr named, rfl⟩ declared⟩

theorem declares_of_declared {p : Name × Name} {q : Name × Slot} (declared : Outline.Declared p q) :
    Declares p.2 q.2 := by
  obtain ⟨-, t, known, slot⟩ := declared
  have named := ResultType.ofTypeName?_eq_some.mp known
  rw [slot]
  cases t with
  | any => exact named
  | shape s => exact named

theorem Valid.read {f : DefinitionForm} (valid : f.Valid) :
    ∃ outline, Outline.ofArguments f.arguments = .ok outline ∧ ∀ closure,
      f.Describes (outline.close closure) := by
  obtain ⟨t, named⟩ := valid.result
  obtain ⟨read, declared⟩ := exists_declared valid.params
  have statement : Outline.statements f.body ≠ [] := by simpa [Outline.statements] using valid.body
  refine ⟨⟨f.name, t, read, f.body⟩, ?_, fun closure => ⟨rfl, named, rfl, ?_, ?_, rfl⟩⟩
  · simp [arguments, Outline.ofArguments, ResultType.ofTypeName?_eq_some.mpr named,
      Outline.readParams_pairs f.name declared f.body, statement, Outline.readBody_statements,
      bind, Except.bind]
  · exact List.forall₂_map_right_iff.mpr (declared.imp fun _ _ => declares_of_declared)
  · exact eq_map_of_pairs (List.forall₂_map_right_iff.mpr (declared.imp fun _ _ same => same.1))
      fun _ _ same => same

theorem valid_of_read {args : List Argument} {outline : Outline}
    (read : Outline.ofArguments args = .ok outline) :
    ∃ f : DefinitionForm, f.Valid ∧ args = f.arguments := by
  obtain ⟨typeName, others, body, rfl, known, first, some, second⟩ := Outline.ofArguments_ok read
  obtain ⟨params, rfl, declared⟩ := Outline.readParams_ok first
  obtain rfl := Outline.readBody_ok second
  refine ⟨⟨outline.name, typeName, params, outline.body⟩,
    ⟨⟨_, ResultType.ofTypeName?_eq_some.mp known⟩, ?_, ?_⟩, rfl⟩
  · intro p member
    obtain ⟨q, -, -, t, named, -⟩ := exists_right_of_mem declared member
    exact ⟨t, ResultType.ofTypeName?_eq_some.mp named⟩
  · simpa [Outline.statements] using some

end DefinitionForm

section Defining

variable {args : List Prepared}

theorem runDefine_read {outline : Outline}
    (read : Outline.ofArguments (args.map Prepared.raw) = .ok outline) (m : Machine) :
    ∃ c n, ContextFunction.runDefine args m = .ok c n ∧
      n.registry = m.registry.add (.defined (outline.close (m.scope.snapshot m.heap).1)) := by
  unfold ContextFunction.runDefine
  rw [read]
  exact ⟨_, _, rfl, rfl⟩

theorem runDefine_refused {fault : DefinitionFault}
    (read : Outline.ofArguments (args.map Prepared.raw) = .error fault) (m : Machine) :
    ContextFunction.runDefine args m =
      .error (.failed (.raise (.badDefinition (fault.detail m.heap)))) m := by
  unfold ContextFunction.runDefine
  rw [read]
  rfl

end Defining

/-- The arguments of `fn` are read exactly if they have the form of a definition, and they have it
in one way at most. Then a function that is as it was written is added, with a copy of the scope;
otherwise the call fails as malformed and changes nothing. -/
theorem definition_form_exact (args : List Prepared) (m : Machine) :
    (∀ f g : DefinitionForm,
      args.map Prepared.raw = f.arguments → args.map Prepared.raw = g.arguments → f = g) ∧
    ((∃ outline, Outline.ofArguments (args.map Prepared.raw) = .ok outline) ↔
      ∃ f : DefinitionForm, f.Valid ∧ args.map Prepared.raw = f.arguments) ∧
    (∀ f : DefinitionForm, f.Valid → args.map Prepared.raw = f.arguments → ∃ d c n,
      f.Describes d ∧ d.closure = (m.scope.snapshot m.heap).1 ∧
      ContextFunction.runDefine args m = .ok c n ∧ n.registry = m.registry.add (.defined d)) ∧
    ((¬∃ f : DefinitionForm, f.Valid ∧ args.map Prepared.raw = f.arguments) → ∃ fault,
      ContextFunction.runDefine args m = .error (.failed (.raise fault)) m ∧
        fault.kind = .malformed) := by
  refine ⟨?_, ⟨?_, ?_⟩, ?_, ?_⟩
  · intro f g first second
    exact DefinitionForm.arguments_injective (first.symm.trans second)
  · rintro ⟨outline, read⟩
    exact DefinitionForm.valid_of_read read
  · rintro ⟨f, valid, same⟩
    obtain ⟨outline, read, -⟩ := valid.read
    exact ⟨outline, same ▸ read⟩
  · intro f valid same
    obtain ⟨outline, read, describes⟩ := valid.read
    obtain ⟨c, n, run, added⟩ := runDefine_read (same ▸ read) m
    exact ⟨_, c, n, describes _, rfl, run, added⟩
  · intro formless
    cases read : Outline.ofArguments (args.map Prepared.raw) with
    | ok outline => exact absurd (DefinitionForm.valid_of_read read) formless
    | error fault => exact ⟨_, runDefine_refused read m, rfl⟩

/-- `fn(add, num, a, num, b, any, return(+(a, b)), println(a))` -/
def sumForm : DefinitionForm where
  name := utf8 "add"
  result := utf8 "num"
  params := [(utf8 "a", utf8 "num"), (utf8 "b", utf8 "any")]
  body := [⟨utf8 "return", [.call (utf8 "+") [.ident (utf8 "a"), .ident (utf8 "b")]]⟩,
    ⟨utf8 "println", [.ident (utf8 "a")]⟩]

theorem definition_form_exact_sum :
    let m := Machine.initial (.ofInput [])
    sumForm.Valid ∧ ∃ d c n,
      ContextFunction.runDefine (sumForm.arguments.map (⟨·, none⟩)) m = .ok c n ∧
      n.registry = m.registry.add (.defined d) ∧ d.signature.name = utf8 "add" ∧
      d.params = [utf8 "a", utf8 "b"] ∧ d.body = sumForm.body := by
  intro m
  have number : utf8 "num" ∈ (ResultType.shape .number).names := by decide +kernel
  have valid : sumForm.Valid := by
    refine ⟨⟨_, number⟩, ?_, by simp [sumForm]⟩
    intro p member
    simp only [sumForm, List.mem_cons, List.not_mem_nil, or_false] at member
    rcases member with rfl | rfl
    · exact ⟨_, number⟩
    · exact ⟨.any, List.mem_cons_self⟩
  obtain ⟨-, -, defines, -⟩ := definition_form_exact (sumForm.arguments.map (⟨·, none⟩)) m
  obtain ⟨d, c, n, describes, -, run, added⟩ :=
    defines sumForm valid (List.map_map.trans (List.map_id _))
  exact ⟨valid, d, c, n, run, added, describes.name, describes.params, describes.body⟩

end CallScript
