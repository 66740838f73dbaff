import CallScript.Proofs.Function.Registered
import CallScript.Proofs.Run.Foresight

/- Functions that are added later change nothing for the calls that could be told before. A call has
   more candidates then, behind the older ones, and of its arguments more may be known; what was
   known remains, so the first function that the arguments do not rule out remains the first. -/
namespace CallScript

open Eval

mutual

def Argument.names : Argument → List Name
  | .ident name => [name]
  | .call _ args => Argument.namesOf args
  | .literal _ | .unknown _ => []

def Argument.namesOf : List Argument → List Name
  | [] => []
  | a :: rest => a.names ++ Argument.namesOf rest

end

abbrev Refines (shapes finer : List (Option Shape)) : Prop :=
  List.Forall₂ (fun old new => ∀ t, old = some t → new = some t) shapes finer

theorem Signature.judge_refined {s : Signature} {position : Nat}
    {shapes finer : List (Option Shape)} (refines : Refines shapes finer)
    (decided : s.judge position shapes ≠ .undecided) :
    s.judge position finer = s.judge position shapes := by
  induction refines generalizing position with
  | nil => rfl
  | @cons old new shapes finer first others ih =>
    unfold judge at decided ⊢
    cases slot : s.slot? position with
    | none =>
      simp only [slot] at decided ⊢
      exact ih decided
    | some kind =>
      cases kind with
      | raw | any =>
        simp only [slot] at decided ⊢
        exact ih decided
      | shape required =>
        cases old with
        | none => simp [slot] at decided
        | some found =>
          simp only [slot, first found rfl] at decided ⊢
          by_cases same : found = required
          · simp only [if_pos same] at decided ⊢
            exact ih decided
          · simp only [if_neg same]

theorem Signature.verdict_refined {s : Signature} {shapes finer : List (Option Shape)}
    (refines : Refines shapes finer) (decided : s.verdict shapes ≠ .undecided) :
    s.verdict finer = s.verdict shapes := by
  unfold verdict at decided ⊢
  rw [← refines.length_eq]
  by_cases arity : s.acceptsArity shapes.length
  · rw [if_pos arity] at decided ⊢
    rw [if_pos arity]
    exact judge_refined refines decided
  · rw [if_neg arity, if_neg arity]

namespace Matching

theorem contender_refined {functions : List Function} {f : Function}
    {shapes finer : List (Option Shape)} (refines : Refines shapes finer)
    (contender : contender? functions shapes = some f)
    (accepted : f.signature.verdict shapes = .accepted) (more : List Function) :
    contender? (functions ++ more) finer = some f ∧ f.signature.verdict finer = .accepted := by
  induction functions with
  | nil => cases contender
  | cons g rest ih =>
    -- What is known rules a function out for good; the first that it does not rule out is the one
    -- accepted.
    by_cases rejected : g.signature.verdict shapes = .rejected
    · have still := g.signature.verdict_refined refines (by simp [rejected])
      rw [contender?_ruledOut rejected] at contender
      rw [List.cons_append, contender?_ruledOut (still.trans rejected)]
      exact ih contender
    · rw [contender?_first rejected] at contender
      cases contender
      have still := (f.signature.verdict_refined refines (by simp [accepted])).trans accepted
      rw [List.cons_append, contender?_first (by simp [still])]
      exact ⟨rfl, still⟩

theorem promise_refined {functions : List Function} {shapes finer : List (Option Shape)}
    {result : ResultType} (refines : Refines shapes finer)
    (promised : (contender? functions shapes).bind (promise? shapes) = some result)
    (more : List Function) :
    (contender? (functions ++ more) finer).bind (promise? finer) = some result := by
  obtain ⟨f, contender, promised⟩ := Option.bind_eq_some_iff.mp promised
  by_cases accepted : f.signature.verdict shapes = .accepted
  · obtain ⟨still, accepted'⟩ := contender_refined refines contender accepted more
    rw [still]
    simpa [promise?, accepted, accepted'] using promised
  · simp [promise?, accepted] at promised

end Matching

theorem Registry.Indexed.candidates_extends {r extended : Registry} (indexed : r.Indexed)
    (grows : r.Extends extended) (name : Name) :
    ∃ more, extended.candidates name = r.candidates name ++ more := by
  have indexed' := indexed.extends grows
  obtain ⟨added, rfl⟩ := grows
  rw [indexed'.candidates_eq, indexed.candidates_eq, functions_addAll, List.filter_append]
  exact ⟨_, rfl⟩

namespace Matching

def KeepsTypes (names : List Name) (m n : Machine) : Prop :=
  ∀ name ∈ names, ∀ t, shape? m (.ident name) = some t → shape? n (.ident name) = some t

variable {m n : Machine}

mutual

/-- A prediction is made again as long as the variables keep their types. -/
theorem shape?_kept (indexed : m.registry.Indexed) (grows : m.registry.Extends n.registry) :
    ∀ (a : Argument) {t : Shape}, KeepsTypes a.names m n → shape? m a = some t → shape? n a = some t
  | .literal value, t, _, told => by
    rw [shape?] at told ⊢
    exact told
  | .ident name, t, kept, told => kept name (by simp [Argument.names]) t told
  | .unknown tag, t, _, told => by
    rw [shape?] at told
    cases told
  | .call name args, t, kept, told => by
    rw [shape?_call] at told ⊢
    obtain ⟨result, promised, shaped⟩ := Option.bind_eq_some_iff.mp told
    obtain ⟨more, candidates⟩ := indexed.candidates_extends grows name
    simp only [Argument.names] at kept
    rw [candidates, promise_refined (shapes_refined indexed grows args kept) promised more]
    exact shaped

theorem shapes_refined (indexed : m.registry.Indexed) (grows : m.registry.Extends n.registry) :
    ∀ args : List Argument, KeepsTypes (Argument.namesOf args) m n →
      Refines (args.map (shape? m)) (args.map (shape? n))
  | [], _ => .nil
  | a :: rest, kept => by
    have first : KeepsTypes a.names m n :=
      fun name member => kept name (by simp [Argument.namesOf, member])
    have others : KeepsTypes (Argument.namesOf rest) m n :=
      fun name member => kept name (by simp [Argument.namesOf, member])
    exact .cons (fun t told => shape?_kept indexed grows a first told)
      (shapes_refined indexed grows rest others)

end

end Matching

namespace Matching

theorem Begins.evaluated {args : List Argument} {eval : Argument → Eval CellId} {f : Function}
    {x : (Argument → Eval CellId) → Eval (Function × List Pending)} {out : List Pending}
    {m n : Machine} (begins : Begins args Prod.snd x m) (run : x eval m = .ok (f, out) n) :
    ∃ p ∈ out, p.cell ≠ none := by
  obtain ⟨i, a, rest, -, first⟩ := begins
  obtain ⟨start, known⟩ := first eval
  rw [start] at run
  cases evaluated : eval a m with
  | error e k =>
    rw [bind_error evaluated] at run
    cases run
  | ok c k =>
    rw [bind_ok evaluated] at run
    obtain ⟨p, found, cell⟩ := Option.bind_eq_some_iff.mp ((known c k).good run)
    exact ⟨p, List.mem_of_getElem? found, by simp [cell]⟩

/-- A call that is matched without evaluating anything goes to a function that its arguments are
known to fit. -/
theorem contender_of_resolved {inv : Invocation} {eval : Argument → Eval CellId} {f : Function}
    {pending : List Pending} {m n : Machine} (run : resolve eval inv m = .ok (f, pending) n)
    (unevaluated : ∀ p ∈ pending, p.cell = none) :
    contender? (m.registry.candidates inv.name) (inv.args.map (shape? m)) = some f ∧
      f.signature.verdict (inv.args.map (shape? m)) = .accepted ∧ n = m := by
  have decides := resolve_decides m inv
  cases contender : contender? (m.registry.candidates inv.name) (inv.args.map (shape? m)) with
  | none =>
    rw [contender] at decides
    cases (decides eval).symm.trans run
  | some g =>
    rw [contender] at decides
    by_cases accepted : g.signature.verdict (inv.args.map (shape? m)) = .accepted
    · simp only [Decides, if_pos accepted] at decides
      obtain ⟨out, -, runs⟩ := decides
      cases (runs eval).symm.trans run
      exact ⟨rfl, accepted, rfl⟩
    · simp only [Decides, if_neg accepted] at decides
      obtain ⟨p, member, cell⟩ := Begins.evaluated decides run
      exact absurd (unevaluated p member) cell

end Matching

def Machine.offering (m : Machine) (functions : List Function) : Machine :=
  { m with registry := functions.foldl Registry.add .empty }

theorem Machine.offering_extends (m : Machine) (earlier added : List Function) :
    (m.offering earlier).registry.Extends (m.offering (earlier ++ added)).registry :=
  ⟨added, List.foldl_append⟩

/-- What is predicted of a call, and the function it goes to if that is found without evaluating an
argument, stay the same when functions are added. An argument that is evaluated for matching leaves
its cell. -/
theorem later_functions_capture_nothing (earlier added : List Function) (m : Machine)
    (inv : Invocation) :
    (∀ result, Matching.predict (m.offering earlier) inv = some result →
      Matching.predict (m.offering (earlier ++ added)) inv = some result) ∧
    ∀ eval f pending n, Matching.resolve eval inv (m.offering earlier) = .ok (f, pending) n →
      (∀ p ∈ pending, p.cell = none) →
      n = m.offering earlier ∧ ∃ pending', pending'.map Pending.arg = inv.args ∧
        (∀ p ∈ pending', p.cell = none) ∧
        ∀ eval', Matching.resolve eval' inv (m.offering (earlier ++ added)) =
          .ok (f, pending') (m.offering (earlier ++ added)) := by
  have indexed : (m.offering earlier).registry.Indexed := .addAll .empty earlier
  have grows := m.offering_extends earlier added
  obtain ⟨more, candidates⟩ := indexed.candidates_extends grows inv.name
  have refines : Refines (inv.args.map (Matching.shape? (m.offering earlier)))
      (inv.args.map (Matching.shape? (m.offering (earlier ++ added)))) :=
    Matching.shapes_refined indexed grows inv.args fun name _ t told => by
      rw [Matching.shape?] at told ⊢
      exact told
  constructor
  · intro result predicted
    rw [Matching.predict_eq] at predicted ⊢
    rw [candidates]
    exact Matching.promise_refined refines predicted more
  · intro eval f pending n run unevaluated
    obtain ⟨contender, accepted, same⟩ := Matching.contender_of_resolved run unevaluated
    obtain ⟨contender', accepted'⟩ := Matching.contender_refined refines contender accepted more
    have decides := Matching.resolve_decides (m.offering (earlier ++ added)) inv
    rw [candidates, contender'] at decides
    simp only [Matching.Decides, if_pos accepted'] at decides
    obtain ⟨out, untouched, runs⟩ := decides
    exact ⟨same, out, untouched.arg, untouched.cell, runs⟩

def anyProduct : Function :=
  .defined ⟨⟨utf8 "*", [.any, .any], false, .shape .string⟩, [utf8 "x", utf8 "y"], [], .empty⟩

/-- The inner call of a sum goes to the older product, so the sum is still one of numbers. -/
theorem later_functions_capture_nothing_product :
    let m := Machine.initial (.ofInput [])
    Matching.predict (m.offering (Registry.builtins ++ [anyProduct])) productPlusFour =
      some (.shape .number) ∧
    ∃ f ∈ (m.offering Registry.builtins).registry.candidates productPlusFour.name,
    ∃ pending, ∀ eval,
      Matching.resolve eval productPlusFour (m.offering (Registry.builtins ++ [anyProduct])) =
        .ok (f, pending) (m.offering (Registry.builtins ++ [anyProduct])) := by
  intro m
  have predicted : Matching.predict (m.offering Registry.builtins) productPlusFour =
      some (.shape .number) := by
    decide +kernel
  obtain ⟨f, pending, member, _, untouched, run⟩ := Matching.resolve_predicted predicted
  obtain ⟨told, resolved⟩ :=
    later_functions_capture_nothing Registry.builtins [anyProduct] m productPlusFour
  obtain ⟨-, pending', -, -, runs⟩ :=
    resolved (fun _ => throw .crashed) f pending _ (run _) untouched.cell
  exact ⟨told _ predicted, f, member, pending', runs⟩

end CallScript
