import CallScript.Proofs.Run.Sure

/- Everything that evaluation looks up by a position or a name of a cell is there: the slots of a
   signature and the answers about its arguments while a call is predicted, the functions of a name,
   the arguments and parameters of the function that a call goes to, and the cells of all of
   them. -/
namespace CallScript

open Eval

namespace Matching

/-- The comparison of a call with a signature that stops where a slot is missing, or where questions
and answers do not pair up. -/
def compareStrict (s : Signature) : Nat → List Question → Answers → Option (Verdict × Answers)
  | position, question :: questions, known :: answers =>
    match s.slot? position with
    | none => none
    | some (.shape required) =>
      match known.getD (question ()) with
      | none => some (.undecided, some none :: answers)
      | some shape =>
        if shape = required then
          (compareStrict s (position + 1) questions answers).map fun out =>
            (out.1, some (some shape) :: out.2)
        else some (.rejected, some (some shape) :: answers)
    | some _ =>
      (compareStrict s (position + 1) questions answers).map fun out => (out.1, known :: out.2)
  | _, [], [] => some (.accepted, [])
  | _, _, _ => none

def settleStrict (questions : List Question) : List Signature → Answers → Option (Option ResultType)
  | [], _ => some none
  | s :: rest, answers =>
    if s.acceptsArity questions.length then
      (compareStrict s 0 questions answers).bind fun out =>
        match out.1 with
        | .accepted => some (some s.returns)
        | .undecided => some none
        | .rejected => settleStrict questions rest out.2
    else settleStrict questions rest answers

theorem compare_shape {s : Signature} {position : Nat} {required : Shape}
    (found : s.slot? position = some (.shape required)) (question : Question)
    (questions : List Question) (known : Option (Option Shape)) (answers : Answers) :
    compare s position (question :: questions) (known :: answers) =
      match known.getD (question ()) with
      | none => (.undecided, some none :: answers)
      | some shape =>
        if shape = required then
          ((compare s (position + 1) questions answers).1,
            some (some shape) :: (compare s (position + 1) questions answers).2)
        else (.rejected, some (some shape) :: answers) := by
  cases known with
  | some answer =>
    simp only [compare, found, Option.getD_some]
    cases answer with
    | none => rfl
    | some shape => rfl
  | none =>
    simp only [compare, found, Option.getD_none]
    cases question () with
    | none => rfl
    | some shape => rfl

theorem compareStrict_eq {s : Signature} {position : Nat} {questions : List Question}
    {answers : Answers} (slots : ∀ i < position + questions.length, (s.slot? i).isSome)
    (paired : answers.length = questions.length) :
    compareStrict s position questions answers = some (compare s position questions answers) ∧
      (compare s position questions answers).2.length = questions.length := by
  induction questions generalizing position answers with
  | nil =>
    obtain rfl := List.length_eq_zero_iff.mp paired
    exact ⟨rfl, rfl⟩
  | cons question questions ih =>
    cases answers with
    | nil => cases paired
    | cons known answers =>
      have size : answers.length = questions.length := Nat.succ.inj paired
      obtain ⟨same, length⟩ := @ih (position + 1) answers
        (fun i inside => slots i (by simp only [List.length_cons]; omega)) size
      obtain ⟨slot, found⟩ := Option.isSome_iff_exists.mp
        (slots position (by simp only [List.length_cons]; omega))
      rw [compareStrict, found]
      cases slot with
      | raw =>
        unfold compare
        rw [found]
        exact ⟨by rw [same]; rfl, by simp [length]⟩
      | any =>
        unfold compare
        rw [found]
        exact ⟨by rw [same]; rfl, by simp [length]⟩
      | shape required =>
        rw [compare_shape found]
        cases known.getD (question ()) with
        | none => exact ⟨rfl, by simp [size]⟩
        | some shape =>
          dsimp only
          split
          · exact ⟨by rw [same]; rfl, by simp [length]⟩
          · exact ⟨rfl, by simp [size]⟩

/-- A prediction looks up no slot that is missing, and pairs every question with its answer. -/
theorem settleStrict_eq (questions : List Question) (signatures : List Signature)
    {answers : Answers} (paired : answers.length = questions.length) :
    settleStrict questions signatures answers = some (settle questions signatures answers) := by
  induction signatures generalizing answers with
  | nil => rfl
  | cons s rest ih =>
    unfold settleStrict settle
    split
    · rename_i accepted
      have slots : ∀ i < 0 + questions.length, (s.slot? i).isSome := fun i inside =>
        Signature.slot?_isSome accepted (by omega)
      obtain ⟨same, length⟩ := compareStrict_eq slots paired
      rw [same, Option.bind_some]
      generalize compare s 0 questions answers = out at length ⊢
      obtain ⟨verdict, answers⟩ := out
      cases verdict with
      | accepted => rfl
      | undecided => rfl
      | rejected => exact ih length
    · exact ih paired

end Matching

theorem Registry.Grown.params_length {r : Registry} (grown : r.Grown) {d : Definition}
    (member : .defined d ∈ r.functions) : d.params.length = d.signature.slots.length := by
  induction grown with
  | initial =>
    rw [← Array.mem_toList_iff, functions_initial] at member
    simp [builtins] at member
  | define _ _ closure ih =>
    rcases Array.mem_push.mp member with member | same
    · exact ih member
    · cases same
      simp [Outline.close, Outline.signature]

namespace Discipline

variable {R : Discipline} {m : Machine}

theorem keeps_gather {eval : Argument → Eval CellId} (obeyed : R.ObeyedBy eval) (f : Function)
    {args : List Pending} (sound : R.sound m) (ready : ∀ p ∈ args, R.Ready m p) :
    Keeps R.moved (fun a n => ∀ c, some c ∈ a.received → R.cell n c) (gather eval f args) m := by
  cases f with
  | system s =>
    apply Keeps.bind R.trans (keeps_evalRemaining obeyed sound ready)
    intro cells n move ok
    exact keeps_pure (stays move) fun c member => ok c (by simpa [Arrival.received] using member)
  | defined d =>
    apply Keeps.bind R.trans (keeps_evalRemaining obeyed sound ready)
    intro cells n move ok
    exact keeps_pure (stays move) fun c member => ok c (by simpa [Arrival.received] using member)
  | context c =>
    apply Keeps.bind R.trans (keeps_prepare obeyed sound ready)
    intro given n move ok
    refine keeps_pure (stays move) fun e member => ?_
    obtain ⟨p, held, cell⟩ := List.mem_map.mp member
    exact (ok p held).cell e cell

theorem keeps_arrive {eval : Invocation → Eval CellId} (obeyed : R.Obeyed eval)
    (settings : Settings) (depth : Nat) {inv : Invocation} (sound : R.sound m)
    (every : inv.Every (R.literal m)) :
    Keeps R.moved (fun a n => ∀ c, some c ∈ a.received → R.cell n c)
      (arrive settings eval depth inv) m := by
  have argument := obeyedBy_evalArgument obeyed
  apply Keeps.bind R.trans (keeps_resolve argument sound every)
  rintro ⟨f, args⟩ n move done
  have sound' := R.sound_after m n move
  dsimp only
  split
  · apply Keeps.bind R.trans (keeps_record _ sound')
    intro _ k move' _
    exact keeps_gather argument f (R.sound_after n k move') fun p member =>
      (done.2 p member).after move'
  · exact keeps_gather argument f sound' done.2

end Discipline

namespace Arrival

/-- All that the code of a function looks up among its arguments is there: it has as many as it
accepts, each has a slot, those that it evaluates have cells of the machine, and a definition has as
many names for them. -/
structure InRange (a : Arrival) (count : Nat) (m : Machine) : Prop extends a.Fits count where
  slots : ∀ i < count, (a.function.signature.slot? i).isSome
  cells : ∀ c, some c ∈ a.received → c < m.heap.size
  params : ∀ d cells, a = .defined d cells → d.params.length = cells.length

end Arrival

theorem arrive_candidate {settings : Settings} {eval : Invocation → Eval CellId} {depth : Nat}
    {inv : Invocation} {m k : Machine} {a : Arrival} (grown : m.registry.Grown)
    (arrived : arrive settings eval depth inv m = .ok a k) :
    a.function ∈ m.registry.candidates inv.name := by
  cases resolved : Matching.resolve (evalArgument eval) inv m with
  | error e n =>
    unfold arrive at arrived
    rw [bind_error resolved] at arrived
    cases arrived
  | ok out n =>
    obtain ⟨f, pending⟩ := out
    rw [arrive_run resolved] at arrived
    obtain ⟨_, _, _, _, rfl, member, matched⟩ := (prolongs_resolve grown).ok resolved
    obtain ⟨_, _, _, _, rfl, _, _⟩ :=
      (sweeps_gather matched (grown.eager_or_context inv.name member)).ok arrived
    exact member

theorem arrive_inRange {settings : Settings} {eval : Invocation → Eval CellId} {depth : Nat}
    {inv : Invocation} {m k : Machine} {a : Arrival} (sound : m.Sound)
    (finite : inv.Every (·.Within m.heap.size)) (obeyed : soundness.Obeyed eval)
    (safe : ∀ inv, Safe (eval inv)) (arrived : arrive settings eval depth inv m = .ok a k) :
    a.InRange inv.args.length k := by
  have fits : a.Fits inv.args.length := by
    have ends := sure_arrive (safe_evalArgument safe) settings depth inv m
    rwa [arrived] at ends
  refine ⟨fits, fun i inside => Signature.slot?_isSome fits.arity inside, ?_, ?_⟩
  · exact (Discipline.keeps_arrive obeyed settings depth sound finite).good arrived
  · rintro d cells rfl
    have member := Registry.mem_of_candidate (arrive_candidate sound.registry arrived)
    have single := (sound.registry.plain member).single
    have arity := fits.arity
    have received := fits.received
    simp only [Arrival.function, Function.signature, Signature.acceptsArity, single,
      Bool.false_eq_true, if_false, beq_iff_eq] at arity
    simp only [Arrival.received, List.length_map] at received
    rw [sound.registry.params_length member, ← arity, received]

/-- No well-formed program reaches a missing value. On every machine that programs reach, in any
scope of it, an invocation gives a cell of the machine or fails with a failure that is reported,
unless the fuel is used up; it leaves a machine on which every variable, list, control flow and
closure leads to cells that exist; when it runs the code of a function, all that the code looks up
among its arguments is there; and the positions kept for names are those of functions. Predicting a
call looks up no slot that is missing. -/
theorem evaluation_in_range {m : Machine} (reached : Reached m) {scope : Scope}
    (inside : scope.Within m.heap.size) {inv : Invocation}
    (finite : inv.Every (·.Within m.heap.size)) (settings : Settings) (fuel depth : Nat) :
    (∀ c n, evaluate settings fuel depth inv { m with scope } = .ok c n →
      n.Sound ∧ c < n.heap.size) ∧
      (∀ e n, evaluate settings fuel depth inv { m with scope } = .error e n →
        n.Sound ∧ (e = .outOfFuel ∨ ∃ f, e = .failed f)) ∧
      (∀ a k, arrive settings (evaluate settings fuel depth) depth inv { m with scope } = .ok a k →
        a.InRange inv.args.length k) ∧
      (∀ name, ∀ i ∈ (m.registry.positions.lookup name).getD [], i < m.registry.functions.size) ∧
      (∀ questions signatures,
        Matching.settleStrict questions signatures (Matching.unasked questions) =
        some (Matching.settle questions signatures (Matching.unasked questions))) ∧
      ∀ (i : Interpreter) (patience : Patience) (p : Program),
        (i.execute fuel patience p).1 ≠ .error .crashed ∧
          (i.evaluate fuel patience inv).1 ≠ .error .crashed := by
  have sound := (reached.sound.withScope inside).sound
  have keeps :=
    (Discipline.obeyed_evaluate settings fuel depth : soundness.Obeyed _) inv _ sound finite
  refine ⟨?_, ?_, ?_, reached.sound.registry.indexed.inside, ?_, ?_⟩
  · intro c n run
    have moved := keeps.move
    unfold after at moved
    rw [run] at moved
    exact ⟨moved.sound, keeps.good run⟩
  · intro e n run
    have moved := keeps.move
    unfold after at moved
    rw [run] at moved
    have ends := safe_evaluate settings fuel depth inv { m with scope }
    rw [run] at ends
    refine ⟨moved.sound, ?_⟩
    cases e with
    | failed f => exact Or.inr ⟨f, rfl⟩
    | crashed => exact absurd rfl ends
    | outOfFuel => exact Or.inl rfl
  · intro a k arrived
    exact arrive_inRange sound finite (Discipline.obeyed_evaluate settings fuel depth)
      (safe_evaluate settings fuel depth) arrived
  · intro questions signatures
    exact Matching.settleStrict_eq questions signatures (by simp [Matching.unasked])
  · intro i patience p
    exact ⟨i.run_ne_crashed patience (Interpreter.safe_program i.settings fuel p),
      i.run_ne_crashed patience (Interpreter.safe_single i.settings fuel inv)⟩

def indexOfTwo (index : Number) : Invocation :=
  ⟨utf8 "index",
    [.call (utf8 "list") [.literal (.string (utf8 "a")), .literal (.string (utf8 "b"))],
    .literal (.number index)]⟩

theorem evaluation_in_range_index :
    let m := (Interpreter.new 0 false (.ofInput [])).machine
    let eval := evaluate ⟨none, false⟩ 2 0
    (∃ c n, eval (indexOfTwo (.ofNat 1)) m = .ok c n ∧ n.Sound ∧ c < n.heap.size) ∧
      (∃ a k, arrive ⟨none, false⟩ eval 0 (indexOfTwo (.ofNat 1)) m = .ok a k ∧ a.InRange 2 k) ∧
      ∃ e n, eval (indexOfTwo (.ofNat 2)) m = .error e n ∧ n.Sound ∧
      (e = .outOfFuel ∨ ∃ f, e = .failed f) := by
  intro m eval
  have reached : Reached m := .between (.new 0 false (.ofInput []))
  have finite : ∀ x, (indexOfTwo x).Every (·.Within m.heap.size) := by
    simp [indexOfTwo, Invocation.Every, Argument.EveryOf, Argument.Every, Datum.Within, Datum.cells]
  have scope := reached.sound.scope
  obtain ⟨gives, -, arrives, -⟩ :=
    evaluation_in_range reached scope (finite (.ofNat 1)) ⟨none, false⟩ 2 0
  obtain ⟨-, stops, -⟩ := evaluation_in_range reached scope (finite (.ofNat 2)) ⟨none, false⟩ 2 0
  have taken : yields (fun _ _ => true) (eval (indexOfTwo (.ofNat 1))) m = true := by decide +kernel
  have arrived : yields (fun _ _ => true) (arrive ⟨none, false⟩ eval 0 (indexOfTwo (.ofNat 1))) m =
      true := by
    decide +kernel
  have refused : yields (fun _ _ => true) (eval (indexOfTwo (.ofNat 2))) m = false := by
    decide +kernel
  obtain ⟨c, n, run, -⟩ := ok_of_yields taken
  obtain ⟨a, k, reaches, -⟩ := ok_of_yields arrived
  refine ⟨⟨c, n, run, gives c n run⟩, ⟨a, k, reaches, arrives a k reaches⟩, ?_⟩
  cases stopped : eval (indexOfTwo (.ofNat 2)) m with
  | ok c n =>
    rw [yields, stopped] at refused
    cases refused
  | error e n => exact ⟨e, n, rfl, stops e n stopped⟩

end CallScript
