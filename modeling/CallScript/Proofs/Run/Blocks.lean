import CallScript.Proofs.Run.Assignment

/- Calls of `if`, `while` and `fn`. These are the oldest functions of their names and take
   statements as they are written, so matching such a call looks at the predicate of an `if` and at
   nothing else. -/
namespace CallScript

open Eval

theorem ContextFunction.builtin (f : ContextFunction) : .context f ∈ Registry.builtins := by
  cases f <;> simp [Registry.builtins, functions]

theorem ContextFunction.loop_raw (i : Nat) :
    ContextFunction.loop.signature.slot? i = some .raw := by
  match i with
  | 0 | 1 | _ + 2 => rfl

theorem ContextFunction.define_raw (i : Nat) :
    ContextFunction.define.signature.slot? i = some .raw := by
  match i with
  | 0 | _ + 1 => rfl

theorem ContextFunction.conditional_raw (i : Nat) (later : 1 ≤ i) :
    ContextFunction.conditional.signature.slot? i = some .raw := by
  match i, later with
  | 1, _ | _ + 2, _ => rfl

def Prepared.written (a : Argument) : Prepared := ⟨a, none⟩

namespace Matching

variable (eval : Argument → Eval CellId) {s : Signature} {position : Nat} {m n : Machine}

theorem accepts_raw (left : Nat) (raw : ∀ i, position ≤ i → s.slot? i = some .raw)
    (pending : List Pending) :
    accepts eval s left position pending = pure (true, pending) := by
  induction left generalizing position with
  | zero => rfl
  | succ left ih =>
    rw [accepts_unasked eval left (raw position (Nat.le_refl _)) (by simp)]
    exact ih fun i le => raw i (Nat.le_of_succ_le le)

theorem force_past {last : Nat} (past : last < position) (pending : List Pending) :
    force eval s last position pending = pure (pending.map Pending.forget) := by
  cases pending with
  | nil => rfl
  | cons p rest => rw [force, if_pos past]

theorem prepare_raw (raw : ∀ i, position ≤ i → s.slot? i = some .raw) (args : List Argument) :
    prepare eval s position (args.map .ofArgument) = pure (args.map .written) := by
  induction args generalizing position with
  | nil => rfl
  | cons a rest ih =>
    rw [List.map_cons, prepare, raw position (Nat.le_refl _),
      ih fun i le => raw i (Nat.le_of_succ_le le)]
    rfl

theorem resolve_raw (grown : m.registry.Grown) {f : ContextFunction}
    (arity : ∀ count, f.signature.acceptsArity count)
    (raw : ∀ i, f.signature.slot? i = some .raw) (args : List Argument) :
    resolve eval ⟨f.signature.name, args⟩ m = .ok (.context f, args.map .ofArgument) m := by
  obtain ⟨later, candidates⟩ := grown.candidates_builtin f.builtin
  have called : resolve eval ⟨f.signature.name, args⟩ m = choose eval f.signature.name
      (m.registry.candidates f.signature.name) (args.map .ofArgument) m := rfl
  have oldest : m.registry.candidates f.signature.name = .context f :: later := candidates
  rw [called, oldest]
  apply choose_accepted eval (f := .context f) (arity _)
  exact congrFun (accepts_raw eval _ (fun i _ => raw i) _) m

section Conditional

variable {later : List Function}
  (oldest : m.registry.candidates (utf8 "if") = .context .conditional :: later)
  {predicate : Argument} (body : List Argument)

theorem predicate_slot :
    (Function.context .conditional).signature.slot? 0 = some (.shape .boolean) := rfl

theorem accepts_body (left : Nat) (pending : List Pending) :
    accepts eval (Function.context .conditional).signature left 1 pending = pure (true, pending) :=
  accepts_raw eval left ContextFunction.conditional_raw pending

theorem accepts_predicate {shape : Shape} (told : shape? m predicate = some shape) :
    accepts eval (Function.context .conditional).signature (body.length + 1) 0
      (.ofArgument predicate :: body.map .ofArgument) m =
        .ok (shape = .boolean, ⟨predicate, none, some (some shape)⟩ :: body.map .ofArgument) m := by
  have asked : (Pending.ofArgument predicate).shape? m =
      (some shape, ⟨predicate, none, some (some shape)⟩) := by
    simp [Pending.shape?, Pending.ofArgument, told]
  rw [accepts_told eval _ predicate_slot rfl (congrArg Prod.fst asked), asked, Nat.zero_add,
    accepts_body]
  split
  · rename_i boolean
    simp [boolean, pure_run]
  · rename_i other
    simp [other]

theorem accepts_evaluated (untold : shape? m predicate = none) :
    accepts eval (Function.context .conditional).signature (body.length + 1) 0
      (.ofArgument predicate :: body.map .ofArgument) m = (eval predicate >>= fun c => do
        return (decide ((← contents c).shape = .boolean), ⟨predicate, some c, none⟩ ::
          body.map .ofArgument)) m := by
  have asked : ((Pending.ofArgument predicate).shape? m).1 = none := by
    simp [Pending.shape?, Pending.ofArgument, untold]
  have forgotten : (body.map Pending.ofArgument).map Pending.forget = body.map .ofArgument := by
    rw [List.map_map]
    rfl
  have forced : force eval (Function.context .conditional).signature 0 0
      (.ofArgument predicate :: body.map .ofArgument) = (do
        let c ← eval predicate
        return ⟨predicate, some c, none⟩ :: body.map .ofArgument) := by
    rw [force, if_neg (Nat.lt_irrefl 0), force_past eval Nat.zero_lt_one, forgotten]
    rfl
  have answer : ∀ (d : Datum) (pending : List Pending),
      (if d.shape = .boolean then pure (true, pending) else pure (false, pending) :
        Eval (Bool × List Pending)) = pure (decide (d.shape = .boolean), pending) := by
    intro d pending
    split
    · rename_i boolean
      simp [boolean]
    · rename_i other
      simp [other]
  rw [accepts_untold eval _ predicate_slot rfl asked, forced]
  simp only [bind_assoc, pure_bind, List.getElem?_cons_zero, Option.bind_some, need, Nat.zero_add,
    accepts_body, answer]

include oldest

theorem resolve_bare : resolve eval ⟨utf8 "if", []⟩ m = .ok (.context .conditional, []) m := by
  have called : resolve eval ⟨utf8 "if", []⟩ m =
      choose eval (utf8 "if") (m.registry.candidates (utf8 "if")) [] m := rfl
  rw [called, oldest]
  exact choose_accepted eval rfl rfl

/-- A predicate whose shape is told is not evaluated while the call is matched. -/
theorem resolve_told {shape : Shape} (told : shape? m predicate = some shape) :
    resolve eval ⟨utf8 "if", predicate :: body⟩ m =
      if shape = .boolean then
        .ok (.context .conditional, ⟨predicate, none, some (some shape)⟩ :: body.map .ofArgument) m
      else
        choose eval (utf8 "if") later
          (⟨predicate, none, some (some shape)⟩ :: body.map .ofArgument) m := by
  have called : resolve eval ⟨utf8 "if", predicate :: body⟩ m = choose eval (utf8 "if")
      (m.registry.candidates (utf8 "if")) (.ofArgument predicate :: body.map .ofArgument) m := rfl
  have first := accepts_predicate eval body told
  rw [called, oldest]
  by_cases boolean : shape = .boolean
  · rw [if_pos boolean]
    exact choose_accepted eval rfl (by simpa [boolean] using first)
  · rw [if_neg boolean]
    exact choose_rejected eval rfl (by simpa [boolean] using first)

theorem resolve_untold (untold : shape? m predicate = none) :
    resolve eval ⟨utf8 "if", predicate :: body⟩ m = (eval predicate >>= fun c => do
      let pending := ⟨predicate, some c, none⟩ :: body.map Pending.ofArgument
      if (← contents c).shape = .boolean then return (.context .conditional, pending)
      else choose eval (utf8 "if") later pending) m := by
  have called : resolve eval ⟨utf8 "if", predicate :: body⟩ m = choose eval (utf8 "if")
      (m.registry.candidates (utf8 "if")) (.ofArgument predicate :: body.map .ofArgument) m := rfl
  have first := accepts_evaluated eval body untold
  rw [called, oldest]
  cases run : eval predicate m with
  | error e n =>
    rw [bind_error run] at first ⊢
    rw [choose, if_pos (by rfl)]
    exact bind_error (by simpa using first) _
  | ok c n =>
    rw [bind_ok run] at first ⊢
    have seen : contents c n = .ok (n.heap.get c) n := rfl
    rw [bind_ok seen] at first ⊢
    by_cases boolean : (n.heap.get c).shape = .boolean
    · rw [if_pos boolean]
      exact choose_accepted eval rfl (by simpa [boolean, pure_run] using first)
    · rw [if_neg boolean]
      exact choose_rejected eval rfl (by simpa [boolean, pure_run] using first)

end Conditional

end Matching

section Calling

variable {settings : Settings} {eval : Invocation → Eval CellId} {fuel depth : Nat} {m n : Machine}

theorem invoke_run {inv : Invocation} {f : Function} {pending : List Pending}
    (resolved : Matching.resolve (evalArgument eval) inv m = .ok (f, pending) n) :
    invoke settings eval fuel depth inv m =
      dispatch eval fuel f pending (n.traced settings inv f depth) := by
  rw [invoke_eq, dispatch_eq]
  exact bind_same (arrive_run resolved) _

theorem dispatch_raw {f : ContextFunction} (raw : ∀ i, f.signature.slot? i = some .raw)
    (args : List Argument) :
    dispatch eval fuel (.context f) (args.map .ofArgument) =
      f.run (evalArgument eval) fuel (args.map .written) := by
  rw [dispatch, Matching.prepare_raw _ fun i _ => raw i, pure_bind]

/-- A loop is run by the built-in function, whatever functions have been defined. -/
theorem invoke_loop (grown : m.registry.Grown) (predicate : Argument) (body : List Argument) :
    invoke settings eval fuel depth ⟨utf8 "while", predicate :: body⟩ m =
      ContextFunction.runLoop (evalArgument eval) predicate (body.map .written) fuel
        (m.traced settings ⟨utf8 "while", predicate :: body⟩ (.context .loop) depth) := by
  have resolved : Matching.resolve (evalArgument eval) ⟨utf8 "while", predicate :: body⟩ m =
      .ok (.context .loop, (predicate :: body).map .ofArgument) m :=
    Matching.resolve_raw _ grown (f := .loop) (fun _ => rfl) ContextFunction.loop_raw _
  rw [invoke_run resolved, dispatch_raw ContextFunction.loop_raw]
  rfl

theorem dispatch_conditional (p : Pending) (body : List Argument) :
    dispatch eval fuel (.context .conditional) (p :: body.map .ofArgument) = (do
      let c ← match p.cell with
        | some c => pure c
        | none => evalArgument eval p.arg
      ContextFunction.runConditional (evalArgument eval)
        (⟨p.arg, some c⟩ :: body.map .written)) := by
  have slot : ContextFunction.conditional.signature.slot? 0 = some (.shape .boolean) :=
    Matching.predicate_slot
  have others := Matching.prepare_raw (evalArgument eval) ContextFunction.conditional_raw body
  rw [dispatch, prepare, slot, Nat.zero_add, others]
  cases held : p.cell with
  | some c => simp [prepareOne, held, need, ContextFunction.run]
  | none => simp [prepareOne, held, need, ContextFunction.run]

end Calling

def growth : Discipline where
  sound m := m.registry.Grown
  moved m n := n.registry.Grown ∧ m.registry.Extends n.registry
  cell _ _ := True
  literal _ _ := True
  function _ _ := True
  still m grown := ⟨grown, .refl m.registry⟩
  trans _ _ _ first second := ⟨second.1, first.2.trans second.2⟩
  sound_after _ _ move := move.1
  cell_after _ _ _ _ _ := trivial
  literal_after _ _ _ _ _ := trivial
  function_after _ _ _ _ _ := trivial
  cell_scope _ _ _ _ := trivial
  bound _ _ _ _ _ := trivial
  returned _ _ _ _ _ _ := trivial
  candidate _ _ _ _ _ := trivial
  record m _ grown := ⟨grown, .refl m.registry⟩
  spend m _ grown := ⟨grown, .refl m.registry⟩
  unit m grown := ⟨⟨grown, .refl m.registry⟩, trivial⟩
  copied m _ grown _ := ⟨⟨grown, .refl m.registry⟩, trivial⟩
  bind m _ _ grown _ := ⟨grown, .refl m.registry⟩
  assign m _ _ grown _ _ := ⟨⟨grown, .refl m.registry⟩, trivial⟩
  define m _ _ grown read _ := ⟨.define grown read _, .add m.registry _⟩
  system m f args grown _ := by
    apply (touches_system f args).looser
    intro n touched
    rw [Machine.Touched] at touched
    rw [touched]
    exact ⟨grown, .refl m.registry⟩
  enter _ _ _ grown _ _ := ⟨grown, fun inv _ => Argument.everyOf_of_all (fun _ => trivial) inv.args⟩
  leave _ _ _ _ move := move

theorem grown_of_keeps {α : Type} {good : α → Machine → Prop} {x : Eval α} {m n : Machine} {a : α}
    (keeps : Keeps growth.moved good x m) (run : x m = .ok a n) : n.registry.Grown := by
  unfold Keeps at keeps
  rw [run] at keeps
  exact keeps.1.1

theorem grows_runBlock {eval : Argument → Eval CellId} (obeyed : growth.ObeyedBy eval)
    (body : List Prepared) {m : Machine} (grown : m.registry.Grown) :
    Keeps growth.moved (fun out n => ∀ c, out = some c → growth.cell n c) (runBlock eval body) m :=
  Discipline.keeps_runBlock obeyed grown fun p _ =>
    ⟨Argument.every_of_all (fun _ => trivial) p.raw, fun _ _ => trivial⟩

end CallScript
