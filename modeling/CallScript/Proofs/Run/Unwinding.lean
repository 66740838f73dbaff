import CallScript.Proofs.Run.Blocks

/- How control flow leaves nested blocks. A return goes through all of them, up to the function
   whose body they are in. A break or continue goes through conditionals, up to the innermost loop.
   What stands after the statement that gave it, in any of the blocks that are left, is not
   evaluated: the machine is the one that the statement left, but for the scope, which is that of
   the outermost block left. -/
namespace CallScript

open Eval ContextFunction

def Datum.Flows (d : Datum) : Prop := ∃ kind carried, d = .flow kind carried

def Datum.Returns (d : Datum) : Prop := ∃ carried, d = .flow .returns carried

theorem Datum.Returns.flows {d : Datum} (returns : d.Returns) : d.Flows := by
  obtain ⟨carried, rfl⟩ := returns
  exact ⟨.returns, carried, rfl⟩

theorem Datum.not_flows_unit : ¬ Datum.unit.Flows := by
  rintro ⟨kind, carried, flow⟩
  cases flow

inductive Passes {α : Type} (eval : α → Eval CellId) (stops : Datum → Prop) :
    List α → Machine → Machine → Prop where
  | done (m : Machine) : Passes eval stops [] m m
  | next {a : α} {c : CellId} {rest : List α} {m n k : Machine} (run : eval a m = .ok c n)
    (goesOn : ¬ stops (n.heap.get c)) (later : Passes eval stops rest n k) :
      Passes eval stops (a :: rest) m k

section Statements

variable {eval : Argument → Eval CellId} {call : Invocation → Eval CellId} {m n k : Machine}
  {c : CellId}

theorem runBlock_next {a : Argument} (run : eval a m = .ok c n) (goesOn : ¬ (n.heap.get c).Flows)
    (rest : List Prepared) :
    runBlock eval (.written a :: rest) m = runBlock eval rest n := by
  have seen : contents c n = .ok (n.heap.get c) n := rfl
  rw [runBlock, Prepared.written, bind_ok run, bind_ok seen]
  cases held : n.heap.get c with
  | flow kind carried => exact absurd ⟨kind, carried, held⟩ goesOn
  | _ => rfl

theorem runBlock_flow {a : Argument} (run : eval a m = .ok c n) {kind : FlowKind}
    {carried : Option CellId} (flow : n.heap.get c = .flow kind carried) (rest : List Prepared) :
    runBlock eval (.written a :: rest) m = .ok (some c) n := by
  have seen : contents c n = .ok (n.heap.get c) n := rfl
  rw [runBlock, Prepared.written, bind_ok run, bind_ok seen, flow]
  rfl

theorem Passes.runBlock {before : List Argument} (passes : Passes eval Datum.Flows before m n)
    (rest : List Argument) :
    runBlock eval ((before ++ rest).map .written) m = runBlock eval (rest.map .written) n := by
  induction passes with
  | done m => rfl
  | next run goesOn _ ih =>
    rw [List.cons_append, List.map_cons, runBlock_next run goesOn, ih]

theorem runBody_next {s : Invocation} (run : call s m = .ok c n) (goesOn : ¬ (n.heap.get c).Returns)
    (rest : List Invocation) :
    Definition.runBody call (s :: rest) m = Definition.runBody call rest n := by
  have seen : contents c n = .ok (n.heap.get c) n := rfl
  rw [Definition.runBody, bind_ok run, bind_ok seen]
  cases held : n.heap.get c with
  | flow kind carried =>
    cases kind with
    | returns => exact absurd ⟨carried, held⟩ goesOn
    | _ => rfl
  | _ => rfl

theorem Passes.runBody {before : List Invocation} (passes : Passes call Datum.Returns before m n)
    (rest : List Invocation) :
    Definition.runBody call (before ++ rest) m = Definition.runBody call rest n := by
  induction passes with
  | done m => rfl
  | next run goesOn _ ih => rw [List.cons_append, runBody_next run goesOn, ih]

def returned (carried : Option CellId) : Eval CellId :=
  match carried with
  | some c => pure c
  | none => unit

theorem runBody_return {s : Invocation} (run : call s m = .ok c n) {carried : Option CellId}
    (flow : n.heap.get c = .flow .returns carried) (rest : List Invocation) :
    Definition.runBody call (s :: rest) m = returned carried n := by
  have seen : contents c n = .ok (n.heap.get c) n := rfl
  rw [Definition.runBody, bind_ok run, bind_ok seen, flow]
  cases carried with
  | some c => rfl
  | none => rfl

end Statements

section Rounds

variable {eval : Argument → Eval CellId} {predicate : Argument} {body : List Prepared}
  {m n k q : Machine} {c : CellId}

theorem expectBoolean_true (holds : k.heap.get c = .boolean true) :
    expectBoolean c k = .ok true k := by
  show ofExcept ((k.heap.get c).expect Datum.boolean? .boolean) k = _
  rw [holds]
  rfl

theorem runConditional_flow {a : Argument} {d : CellId} (holds : k.heap.get c = .boolean true)
    (block : runBlock eval body k = .ok (some d) q) :
    runConditional eval (⟨a, some c⟩ :: body) k = .ok d { q with scope := k.scope } := by
  have inside : inBlock (runBlock eval body) k = .ok (some d) { q with scope := k.scope } := by
    simp only [inBlock, block]
  simp only [runConditional, need, pure_bind]
  rw [bind_ok (expectBoolean_true holds), if_pos rfl, bind_ok inside]
  rfl

/-- How a loop goes on after a round of its body. -/
def goOn (eval : Argument → Eval CellId) (predicate : Argument) (body : List Prepared)
    (turns : Nat) : Option CellId → Eval CellId
  | none => runLoop eval predicate body turns
  | some c => do
    match ← contents c with
    | .flow .breaks _ => unit
    | .flow .continues _ => runLoop eval predicate body turns
    | _ => return c

section Flow

variable {turns : Nat} {carried : Option CellId}

theorem goOn_breaks (flow : n.heap.get c = .flow .breaks carried) :
    goOn eval predicate body turns (some c) n = unit n := by
  have seen : contents c n = .ok (n.heap.get c) n := rfl
  rw [goOn, bind_ok seen, flow]

theorem goOn_continues (flow : n.heap.get c = .flow .continues carried) :
    goOn eval predicate body turns (some c) n = runLoop eval predicate body turns n := by
  have seen : contents c n = .ok (n.heap.get c) n := rfl
  rw [goOn, bind_ok seen, flow]

theorem goOn_returns (flow : n.heap.get c = .flow .returns carried) :
    goOn eval predicate body turns (some c) n = .ok c n := by
  have seen : contents c n = .ok (n.heap.get c) n := rfl
  rw [goOn, bind_ok seen, flow]
  rfl

end Flow

def decided (eval : Argument → Eval CellId) (predicate : Argument) (body : List Prepared)
    (turns : Nat) (c : CellId) :
    Eval CellId := do
  if ← expectBoolean c then goOn eval predicate body turns (← inBlock (runBlock eval body))
  else unit

theorem runLoop_succ (turns : Nat) : runLoop eval predicate body (turns + 1) =
    checkPatience >>= fun _ => eval predicate >>= decided eval predicate body turns := by
  rw [runLoop]
  congr

theorem runLoop_round {turns : Nat} {out : Option CellId} (patient : checkPatience m = .ok () n)
    (run : eval predicate n = .ok c k) (holds : k.heap.get c = .boolean true)
    (block : runBlock eval body k = .ok out q) :
    runLoop eval predicate body (turns + 1) m =
      goOn eval predicate body turns out { q with scope := k.scope } := by
  have inside : inBlock (runBlock eval body) k = .ok out { q with scope := k.scope } := by
    simp only [inBlock, block]
  rw [runLoop_succ, bind_ok patient, bind_ok run, decided, bind_ok (expectBoolean_true holds),
    if_pos rfl, bind_ok inside]

/-- Rounds of a loop that end without control flow, or with a continue. -/
inductive Rounds (eval : Argument → Eval CellId) (predicate : Argument) (body : List Prepared) :
    Nat → Machine → Machine → Prop where
  | start (m : Machine) : Rounds eval predicate body 0 m m
  | next {count : Nat} {m n k q e : Machine} {c : CellId} {out : Option CellId}
      (patient : checkPatience m = .ok () n)
    (run : eval predicate n = .ok c k) (holds : k.heap.get c = .boolean true)
    (block : runBlock eval body k = .ok out q)
    (goesOn : ∀ d, out = some d → ∃ carried, q.heap.get d = .flow .continues carried)
    (later : Rounds eval predicate body count { q with scope := k.scope } e) :
      Rounds eval predicate body (count + 1) m e

theorem Rounds.runLoop {count : Nat} (rounds : Rounds eval predicate body count m n) (turns : Nat) :
    runLoop eval predicate body (count + turns) m = runLoop eval predicate body turns n := by
  induction rounds with
  | start m => rw [Nat.zero_add]
  | @next count m n k q e c out patient run holds block goesOn _ ih =>
    rw [Nat.add_right_comm, runLoop_round patient run holds block, ← ih]
    cases out with
    | none => rfl
    | some d =>
      obtain ⟨carried, flow⟩ := goesOn d rfl
      exact goOn_continues flow

end Rounds

/-- A block of the language around a place for a statement. -/
structure Block where
  loops : Bool
  predicate : Argument
  before : List Argument
  after : List Argument

namespace Block

def body (b : Block) (inner : Argument) : List Argument := b.before ++ inner :: b.after

def call (b : Block) (inner : Argument) : Invocation :=
  ⟨if b.loops then utf8 "while" else utf8 "if", b.predicate :: b.body inner⟩

end Block

def nest : List Block → Argument → Argument
  | [], s => s
  | b :: rest, s => .call (b.call (nest rest s)).name (b.call (nest rest s)).args

/-- A call of the block, made at `m`, is about to evaluate the statement in it: its predicate has
given true, and the statements before have passed. A loop may have gone round before. The scope of
the block is that of `k`. -/
inductive Block.Enters (settings : Settings) (eval : Argument → Eval CellId) (fuel depth : Nat)
    (b : Block) (inner : Argument) (m : Machine) : Machine → Machine → Prop where
  | told {c : CellId} {k n : Machine} (kind : b.loops = false)
      (told : Matching.shape? m b.predicate = some .boolean)
    (run : eval b.predicate (m.traced settings (b.call inner) (.context .conditional) depth) =
      .ok c k)
    (holds : k.heap.get c = .boolean true) (passes : Passes eval Datum.Flows b.before k n) :
    Enters settings eval fuel depth b inner m k n
  | untold {c : CellId} {k n : Machine} (kind : b.loops = false)
      (untold : Matching.shape? m b.predicate = none)
    (run : eval b.predicate m = .ok c k) (holds : k.heap.get c = .boolean true)
    (passes : Passes eval Datum.Flows b.before
      (k.traced settings (b.call inner) (.context .conditional) depth) n) :
    Enters settings eval fuel depth b inner m
      (k.traced settings (b.call inner) (.context .conditional) depth) n
  | loop {count turns : Nat} {c : CellId} {p o k n : Machine} (kind : b.loops = true)
      (enough : fuel = count + (turns + 1))
    (rounds : Rounds eval b.predicate ((b.body inner).map .written) count
      (m.traced settings (b.call inner) (.context .loop) depth) p)
    (patient : checkPatience p = .ok () o) (run : eval b.predicate o = .ok c k)
    (holds : k.heap.get c = .boolean true)
    (passes : Passes eval Datum.Flows b.before k n) : Enters settings eval fuel depth b inner m k n

/-- Evaluating a nest comes to its innermost statement. The nest is then left in the given scope, if
it has a block. -/
inductive Comes (settings : Settings) (s : Argument) :
    List Block → Nat → Nat → Machine → Option Scope → Nat → Nat → Machine → Prop where
  | here (fuel depth : Nat) (m : Machine) : Comes settings s [] fuel depth m none fuel depth m
  | within {b : Block} {rest : List Block} {fuel depth fuel' depth' : Nat} {m k n p : Machine}
      {home : Option Scope}
    (room : ∀ limit, settings.depthLimit = some limit → depth < limit)
    (enters : b.Enters settings (evalArgument (evaluate settings fuel (depth + 1))) fuel (depth + 1)
      (nest rest s) m k n)
    (later : Comes settings s rest fuel (depth + 1) n home fuel' depth' p) :
    Comes settings s (b :: rest) (fuel + 1) depth m (some k.scope) fuel' depth' p

section Leaving

variable {settings : Settings} {fuel depth : Nat} {m n k q : Machine} {c : CellId}

theorem evaluate_room (room : ∀ limit, settings.depthLimit = some limit → depth < limit)
    (inv : Invocation) :
    evaluate settings (fuel + 1) depth inv =
      inCall inv (invoke settings (evaluate settings fuel (depth + 1)) fuel (depth + 1) inv) := by
  rw [evaluate]
  split
  · rename_i limit limited
    rw [if_neg (Nat.not_le.mpr (room limit limited))]
  · rfl

theorem inCall_same {x y : Eval CellId} (run : x m = y n) (inv : Invocation) :
    inCall inv x m = inCall inv y n := by
  unfold inCall
  rw [run]

theorem inCall_run {x : Eval CellId} (run : x m = .ok c n) (inv : Invocation) :
    inCall inv x m = .ok c n := by
  unfold inCall
  rw [run]

variable {eval : Invocation → Eval CellId} {b : Block} {inner : Argument}

theorem invoke_conditional (grown : m.registry.Grown) (kind : b.loops = false)
    (enters : b.Enters settings (evalArgument eval) fuel depth inner m k n) :
    ∃ c, k.heap.get c = .boolean true ∧ Passes (evalArgument eval) Datum.Flows b.before k n ∧
      invoke settings eval fuel depth (b.call inner) m =
        runConditional (evalArgument eval)
          (⟨b.predicate, some c⟩ :: (b.body inner).map .written) k := by
  obtain ⟨later, candidates⟩ := grown.candidates_builtin ContextFunction.conditional.builtin
  have oldest : m.registry.candidates (utf8 "if") = .context .conditional :: later := candidates
  have called : b.call inner = ⟨utf8 "if", b.predicate :: b.body inner⟩ := by
    simp [Block.call, kind]
  cases enters with
  | @told c k n _ told run holds passes =>
    refine ⟨c, holds, passes, ?_⟩
    have resolved := Matching.resolve_told (evalArgument eval) oldest (b.body inner) told
    rw [if_pos rfl, ← called] at resolved
    rw [invoke_run resolved, dispatch_conditional]
    exact bind_ok run _
  | @untold c k n _ untold run holds passes =>
    have same : (k.traced settings (b.call inner) (.context .conditional) depth).heap = k.heap := by
      unfold Machine.traced
      split
      · rfl
      · rfl
    refine ⟨c, by rw [same, holds], passes, ?_⟩
    have resolved := Matching.resolve_untold (evalArgument eval) oldest (b.body inner) untold
    have seen : contents c k = .ok (k.heap.get c) k := rfl
    rw [bind_ok run, bind_ok seen, holds, ← called] at resolved
    rw [invoke_run resolved, dispatch_conditional]
    rfl
  | loop loops => rw [kind] at loops; cases loops

theorem runBlock_reached {a : Argument → Eval CellId} (passes : Passes a Datum.Flows b.before k n)
    (run : a inner n = .ok c q) {kind : FlowKind} {carried : Option CellId}
    (flow : q.heap.get c = .flow kind carried) :
    runBlock a ((b.body inner).map .written) k = .ok (some c) q := by
  rw [Block.body, passes.runBlock, List.map_cons, runBlock_flow run flow]

theorem invoke_turn (grown : m.registry.Grown) (loops : b.loops = true)
    (enters : b.Enters settings (evalArgument eval) fuel depth inner m k n)
    (run : evalArgument eval inner n = .ok c q) {kind : FlowKind} {carried : Option CellId}
    (flow : q.heap.get c = .flow kind carried) :
    ∃ turns, invoke settings eval fuel depth (b.call inner) m =
      goOn (evalArgument eval) b.predicate ((b.body inner).map .written) turns (some c)
        { q with scope := k.scope } := by
  have called : b.call inner = ⟨utf8 "while", b.predicate :: b.body inner⟩ := by
    simp [Block.call, loops]
  cases enters with
  | told conditional => rw [loops] at conditional; cases conditional
  | untold conditional => rw [loops] at conditional; cases conditional
  | @loop count turns d p o k n _ enough rounds patient ran holds passes =>
    refine ⟨turns, ?_⟩
    rw [called] at rounds ⊢
    rw [invoke_loop grown, enough, rounds.runLoop]
    exact runLoop_round patient ran holds (runBlock_reached passes run flow)

/-- A return leaves any block, and other control flow leaves a conditional. -/
theorem Block.Enters.leave (room : ∀ limit, settings.depthLimit = some limit → depth < limit)
    (grown : m.registry.Grown)
    (enters : b.Enters settings (evalArgument (evaluate settings fuel (depth + 1))) fuel
      (depth + 1) inner m k n)
    (run : evalArgument (evaluate settings fuel (depth + 1)) inner n = .ok c q) {kind : FlowKind}
    {carried : Option CellId} (flow : q.heap.get c = .flow kind carried)
    (leaves : kind = .returns ∨ b.loops = false) :
    evaluate settings (fuel + 1) depth (b.call inner) m = .ok c { q with scope := k.scope } := by
  rw [evaluate_room room]
  apply inCall_run
  cases loops : b.loops with
  | false =>
    obtain ⟨d, holds, passes, invoked⟩ := invoke_conditional grown loops enters
    rw [invoked]
    exact runConditional_flow holds (runBlock_reached passes run flow)
  | true =>
    obtain ⟨turns, invoked⟩ := invoke_turn grown loops enters run flow
    have returns : kind = .returns := leaves.resolve_right (by simp [loops])
    subst returns
    rw [invoked]
    exact goOn_returns flow

section Growing

variable {a : Argument → Eval CellId} (obeyed : growth.ObeyedBy a)
include obeyed

theorem grown_of_run {e : Argument} (grown : m.registry.Grown) (run : a e m = .ok c n) :
    n.registry.Grown :=
  grown_of_keeps (obeyed e m grown (Argument.every_of_all (fun _ => trivial) e)) run

theorem Passes.grown {stops : Datum → Prop} {list : List Argument} (grown : m.registry.Grown)
    (passes : Passes a stops list m n) : n.registry.Grown := by
  induction passes with
  | done m => exact grown
  | next run _ _ ih => exact ih (grown_of_run obeyed grown run)

theorem Rounds.grown {predicate : Argument} {body : List Prepared} {count : Nat}
    (grown : m.registry.Grown) (rounds : Rounds a predicate body count m n) : n.registry.Grown := by
  induction rounds with
  | start m => exact grown
  | @next count m n k q e c out patient run _ block _ _ ih =>
    have asked : n.registry.Grown :=
      grown_of_keeps (Discipline.keeps_checkPatience (R := growth) grown) patient
    have tested : k.registry.Grown := grown_of_run obeyed asked run
    have ran : q.registry.Grown := grown_of_keeps (grows_runBlock obeyed body tested) block
    exact ih ran

theorem Block.Enters.grown (grown : m.registry.Grown)
    (enters : b.Enters settings a fuel depth inner m k n) :
    n.registry.Grown := by
  have traced : ∀ (m : Machine) (f : Function), m.registry.Grown →
      (m.traced settings (b.call inner) f depth).registry.Grown := by
    intro m f grown
    unfold Machine.traced
    split
    · exact grown
    · exact grown
  cases enters with
  | told _ _ run _ passes => exact passes.grown obeyed (grown_of_run obeyed (traced _ _ grown) run)
  | untold _ _ run _ passes =>
    exact passes.grown obeyed (traced _ _ (grown_of_run obeyed grown run))
  | @loop count turns c p o k n _ _ rounds patient run _ passes =>
    have before : p.registry.Grown := rounds.grown obeyed (traced _ _ grown)
    have asked : o.registry.Grown :=
      grown_of_keeps (Discipline.keeps_checkPatience (R := growth) before) patient
    exact passes.grown obeyed (grown_of_run obeyed asked run)

end Growing

theorem obeyed_argument (settings : Settings) (fuel depth : Nat) :
    growth.ObeyedBy (evalArgument (evaluate settings fuel depth)) :=
  Discipline.obeyedBy_evalArgument (Discipline.obeyed_evaluate settings fuel depth)

theorem nest_append (outer inner : List Block) (s : Argument) :
    nest (outer ++ inner) s = nest outer (nest inner s) := by
  induction outer with
  | nil => rfl
  | cons b rest ih => rw [List.cons_append, nest, ih, nest]

section Coming

variable {s : Argument} {blocks : List Block} {fuel' depth' : Nat} {home : Option Scope}
  {p : Machine}

theorem Comes.grown (grown : m.registry.Grown)
    (comes : Comes settings s blocks fuel depth m home fuel' depth' p) :
    p.registry.Grown := by
  induction comes with
  | here fuel depth m => exact grown
  | within _ enters _ ih => exact ih (enters.grown (obeyed_argument settings _ _) grown)

theorem Comes.split {outer inner : List Block}
    (comes : Comes settings s (outer ++ inner) fuel depth m home fuel' depth' p) :
    ∃ fuel'' depth'' n around within, Comes settings (nest inner s) outer fuel depth m around
      fuel'' depth'' n ∧ Comes settings s inner fuel'' depth'' n within fuel' depth' p := by
  induction outer generalizing fuel depth m home with
  | nil => exact ⟨fuel, depth, m, none, home, .here fuel depth m, comes⟩
  | cons b rest ih =>
    rw [List.cons_append] at comes
    cases comes with
    | within room enters later =>
      obtain ⟨fuel'', depth'', n, around, within, first, second⟩ := ih later
      rw [nest_append] at enters
      exact ⟨fuel'', depth'', n, _, within, .within room enters first, second⟩

theorem Comes.leave (grown : m.registry.Grown)
    (comes : Comes settings s blocks fuel depth m home fuel' depth' p)
    (run : evalArgument (evaluate settings fuel' depth') s p = .ok c q) {kind : FlowKind}
    {carried : Option CellId} (flow : q.heap.get c = .flow kind carried)
    (leaves : kind = .returns ∨ ∀ b ∈ blocks, b.loops = false) :
    evalArgument (evaluate settings fuel depth) (nest blocks s) m =
      .ok c { q with scope := home.getD q.scope } := by
  induction comes with
  | here fuel depth m => exact run
  | @within b rest fuel depth fuel' depth' m k n p home room enters _ ih =>
    have inside := ih (enters.grown (obeyed_argument settings fuel (depth + 1)) grown) run
      (leaves.imp_right fun all other member => all other (List.mem_cons_of_mem b member))
    exact enters.leave (q := { q with scope := home.getD q.scope }) room grown inside flow
      (leaves.imp_right fun all => all b List.mem_cons_self)

/-- Control flow that leaves the conditionals in a loop is what a round of the loop ends with. -/
theorem Comes.turn (grown : m.registry.Grown) {inner : List Block}
    (comes : Comes settings s (b :: inner) fuel depth m home fuel' depth' p)
    (run : evalArgument (evaluate settings fuel' depth') s p = .ok c q) {kind : FlowKind}
    {carried : Option CellId} (flow : q.heap.get c = .flow kind carried) (loops : b.loops = true)
    (conditionals : ∀ x ∈ inner, x.loops = false) :
    ∃ turns, evaluate settings fuel depth (b.call (nest inner s)) m = inCall (b.call (nest inner s))
      (goOn (evalArgument (evaluate settings (fuel - 1) (depth + 1))) b.predicate
        ((b.body (nest inner s)).map .written)
        turns (some c)) { q with scope := home.getD q.scope } := by
  cases comes with
  | @within _ _ fuel depth _ _ _ k n _ home room enters later =>
    have inside :=
      later.leave (enters.grown (obeyed_argument settings fuel (depth + 1)) grown) run flow
      (Or.inr conditionals)
    obtain ⟨turns, invoked⟩ :=
      invoke_turn (q := { q with scope := home.getD q.scope }) grown loops enters inside flow
    exact ⟨turns, (congrFun (evaluate_room room _) m).trans (inCall_same invoked _)⟩

theorem Comes.breaks (grown : m.registry.Grown) {inner : List Block}
    (comes : Comes settings s (b :: inner) fuel depth m home fuel' depth' p)
    (run : evalArgument (evaluate settings fuel' depth') s p = .ok c q) {carried : Option CellId}
    (flow : q.heap.get c = .flow .breaks carried) (loops : b.loops = true)
    (conditionals : ∀ x ∈ inner, x.loops = false) :
    evaluate settings fuel depth (b.call (nest inner s)) m =
      .ok q.heap.size { q with scope := home.getD q.scope, heap := (q.heap.alloc .unit).2 } := by
  obtain ⟨turns, evaluated⟩ := comes.turn grown run flow loops conditionals
  exact evaluated.trans
    (inCall_run (goOn_breaks (n := { q with scope := home.getD q.scope }) flow) _)

theorem Comes.continues (grown : m.registry.Grown) {inner : List Block}
    (comes : Comes settings s (b :: inner) fuel depth m home fuel' depth' p)
    (run : evalArgument (evaluate settings fuel' depth') s p = .ok c q) {carried : Option CellId}
    (flow : q.heap.get c = .flow .continues carried) (loops : b.loops = true)
    (conditionals : ∀ x ∈ inner, x.loops = false) :
    ∃ turns, evaluate settings fuel depth (b.call (nest inner s)) m = inCall (b.call (nest inner s))
      (runLoop (evalArgument (evaluate settings (fuel - 1) (depth + 1))) b.predicate
        ((b.body (nest inner s)).map .written) turns) { q with scope := home.getD q.scope } := by
  obtain ⟨turns, evaluated⟩ := comes.turn grown run flow loops conditionals
  exact ⟨turns,
    evaluated.trans
      (inCall_same (goOn_continues (n := { q with scope := home.getD q.scope }) flow) _)⟩

end Coming

end Leaving

theorem checkPatience_scope {m n : Machine} (patient : checkPatience m = .ok () n) :
    n.scope = m.scope := by
  have kept : Keeps (fun m n : Machine => n.scope = m.scope) (fun _ _ => True) checkPatience m := by
    unfold checkPatience
    apply keeps_get
    dsimp only
    split
    · exact keeps_pure rfl trivial
    · exact keeps_fail rfl
    · exact keeps_modify rfl trivial
  unfold Keeps at kept
  rw [patient] at kept
  exact kept.1

theorem call_returns {f : Definition} {eval : Invocation → Eval CellId} {args : List CellId}
    {before later : List Invocation} {inv : Invocation} {start ready m q : Machine} {c : CellId}
    {carried : Option CellId} (body : f.body = before ++ inv :: later)
    (patient : checkPatience start = .ok () ready)
    (passes : Passes eval Datum.Returns before
      { ready with scope := f.closure.bindAll (f.params.zip args) } m)
    (run : eval inv m = .ok c q) (flow : q.heap.get c = .flow .returns carried) :
    f.call eval args start = returned carried { q with scope := start.scope } := by
  have ran :
      Definition.runBody eval f.body { ready with scope := f.closure.bindAll (f.params.zip args) } =
      returned carried q := by
    rw [body, passes.runBody, runBody_return run flow]
  rw [Definition.call, bind_ok patient, inScope, ran, checkPatience_scope patient]
  cases carried with
  | some d => rfl
  | none => rfl

/-- A nest has come to its innermost statement, which gives control flow. A return is what the nest
gives, in the machine that the statement left, and a function with the nest in its body gives the
cell that it carries. The innermost loop ends with unit at a break, and what follows it is run; at a
continue it goes on with its predicate, which is evaluated once in the scope of the loop. Without a
loop, a function goes on after the nest. -/
theorem control_flow_unwinds {r m : Machine} (reached : Reached r) (same : m.registry = r.registry)
    {settings : Settings} {s : Argument} {blocks : List Block} {fuel depth fuel' depth' : Nat}
    {home : Option Scope} {p q : Machine} {c : CellId}
    {kind : FlowKind} {carried : Option CellId}
    (comes : Comes settings s blocks fuel depth m home fuel' depth' p)
    (run : evalArgument (evaluate settings fuel' depth') s p = .ok c q)
    (flow : q.heap.get c = .flow kind carried) :
    let left : Machine := { q with scope := home.getD q.scope }
    (kind = .returns → evalArgument (evaluate settings fuel depth) (nest blocks s) m = .ok c left ∧
      ∀ (f : Definition) (args : List CellId) (before later : List Invocation) (inv : Invocation)
        (start ready : Machine),
        f.body = before ++ inv :: later → nest blocks s = .call inv.name inv.args →
        checkPatience start = .ok () ready →
        Passes (evaluate settings fuel depth) Datum.Returns before
          { ready with scope := f.closure.bindAll (f.params.zip args) } m →
        f.call (evaluate settings fuel depth) args start =
          returned carried { q with scope := start.scope }) ∧
    (∀ outer b inner, blocks = outer ++ b :: inner → b.loops = true →
      (∀ x ∈ inner, x.loops = false) →
      ∃ fuel'' depth'' n around within, Comes settings (nest (b :: inner) s) outer fuel depth m
        around fuel'' depth'' n ∧
        Comes settings s (b :: inner) fuel'' depth'' n within fuel' depth' p ∧
        let loop := b.call (nest inner s)
        let eval := evaluate settings fuel'' depth''
        let inside := evalArgument (evaluate settings (fuel'' - 1) (depth'' + 1))
        let body := (b.body (nest inner s)).map .written
        let left : Machine := { q with scope := within.getD q.scope }
        let ended : Machine := { left with heap := (q.heap.alloc .unit).2 }
        (kind = .breaks → eval loop n = .ok q.heap.size ended ∧
          (∀ later : List Argument,
            runBlock (evalArgument eval) ((nest (b :: inner) s :: later).map .written) n =
            runBlock (evalArgument eval) (later.map .written) ended) ∧
          ∀ later, Definition.runBody eval (loop :: later) n =
            Definition.runBody eval later ended) ∧
        (kind = .continues → ∃ turns,
          eval loop n = inCall loop (runLoop inside b.predicate body turns) left ∧
          ∀ more, turns = more + 1 → runLoop inside b.predicate body turns =
            checkPatience >>= fun _ =>
              inside b.predicate >>= decided inside b.predicate body more)) ∧
    ((∀ b ∈ blocks, b.loops = false) → kind ≠ .returns → ∀ inv later,
      nest blocks s = .call inv.name inv.args →
      Definition.runBody (evaluate settings fuel depth) (inv :: later) m =
        Definition.runBody (evaluate settings fuel depth) later left) := by
  intro left
  have grown : m.registry.Grown := same ▸ reached.sound.registry
  refine ⟨?_, ?_, ?_⟩
  · rintro rfl
    have leaves := comes.leave grown run flow (Or.inl rfl)
    refine ⟨leaves, ?_⟩
    intro f args before later inv start ready body nested patient passes
    rw [nested] at leaves
    exact call_returns (q := left) body patient passes leaves flow
  · rintro outer b inner rfl loops conditionals
    -- The nest is cut at the loop, since only what is inside of it is left.
    obtain ⟨fuel'', depth'', n, around, within, first, second⟩ := comes.split
    refine ⟨fuel'', depth'', n, around, within, first, second, ?_⟩
    intro loop eval inside body left ended
    constructor
    · rintro rfl
      have ends : eval loop n = .ok q.heap.size ended :=
        second.breaks (first.grown grown) run flow loops conditionals
      have plain : ended.heap.get q.heap.size = .unit := Heap.get_alloc_self q.heap .unit
      have goesOn : ¬ (ended.heap.get q.heap.size).Flows := plain ▸ Datum.not_flows_unit
      exact ⟨ends, fun rest => runBlock_next ends goesOn _,
        fun rest => runBody_next ends (goesOn ·.flows) rest⟩
    · rintro rfl
      obtain ⟨turns, goesOn⟩ := second.continues (first.grown grown) run flow loops conditionals
      refine ⟨turns, goesOn, ?_⟩
      rintro more rfl
      exact runLoop_succ more
  · intro conditionals other inv later nested
    have leaves := comes.leave grown run flow (Or.inr conditionals)
    rw [nested] at leaves
    have goesOn : ¬ (left.heap.get c).Returns := by
      rintro ⟨carried', returns⟩
      cases flow.symm.trans returns
      exact other rfl
    exact runBody_next leaves goesOn later

def printing (text : String) : Argument := .call (utf8 "print") [.literal (.string (utf8 text))]

/-- `while(true, if(true, print("a"), …, print("b")), print("c"))` -/
def printingBlocks : List Block :=
  [⟨true, .ident (utf8 "true"), [], [printing "c"]⟩,
    ⟨false, .ident (utf8 "true"), [printing "a"], [printing "b"]⟩]

theorem control_flow_unwinds_break :
    let settings : Settings := ⟨none, false⟩
    let m := (Interpreter.new 0 false (.ofInput [])).machine
    ∃ c q n, evalArgument (evaluate settings 1 2) (.call (utf8 "break") [])
        (after (evalArgument (evaluate settings 1 2) (printing "a")) m) = .ok c q ∧
      evalArgument (evaluate settings 3 0) (nest printingBlocks (.call (utf8 "break") [])) m =
        .ok q.heap.size n ∧
      n.console.output = utf8 "a" := by
  intro settings m
  have reached : Reached m := .between (.new 0 false (.ofInput []))
  obtain ⟨d, printed, plain⟩ :=
    run_after (x := evalArgument (evaluate settings 1 2) (printing "a")) (m := m)
    (by decide +kernel : yields (fun d n => (n.heap.get d).shape ≠ .controlFlow) _ m = true)
  obtain ⟨c, q, run, broke⟩ :=
    ok_of_yields (x := evalArgument (evaluate settings 1 2) (.call (utf8 "break") []))
    (m := after (evalArgument (evaluate settings 1 2) (printing "a")) m)
    (by decide +kernel :
      yields (fun c q => q.heap.get c = .flow .breaks none ∧ q.console.output = utf8 "a") _ _ =
        true)
  have goesOn :
      ¬ ((after (evalArgument (evaluate settings 1 2) (printing "a")) m).heap.get d).Flows := by
    rintro ⟨kind, carried, flow⟩
    rw [flow] at plain
    cases plain
  have found : lookup (utf8 "true") m = .ok 0 m := lookup_found (by decide +kernel)
  have holds : m.heap.get 0 = .boolean true := by decide +kernel
  have room : ∀ depth limit, settings.depthLimit = some limit → depth < limit := by
    intro depth limit limited
    cases limited
  have enough : 2 = 0 + (1 + 1) := rfl
  have comes : Comes settings (.call (utf8 "break") []) printingBlocks 3 0 m (some m.scope) 1 2 _ :=
    .within (room 0) (.loop rfl enough (.start m) rfl found holds (.done m))
      (.within (room 1) (.told rfl (by decide +kernel) found holds (.next printed goesOn (.done _)))
        (.here 1 2 _))
  simp only [decide_eq_true_eq] at broke
  obtain ⟨-, loops, -⟩ := control_flow_unwinds reached rfl comes run broke.1
  obtain ⟨fuel, depth, n, around, within, outside, -, breaks, -⟩ := loops [] _ _ rfl rfl (by simp)
  cases outside
  exact ⟨c, q, _, run, (breaks rfl).1, broke.2⟩

end CallScript
