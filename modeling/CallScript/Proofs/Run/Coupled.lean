import CallScript.Proofs.Run.Bond
import CallScript.Proofs.Run.Discipline

/- Evaluation under a coupling. Each part of an evaluation mimics the same part of another with less
   fuel, if the evaluators of nested invocations do; so whole evaluations do. -/
namespace CallScript

open Eval

namespace Matching

mutual

theorem shape?_alike {m n : Machine} (alike : m.Alike n) : ∀ a : Argument, shape? m a = shape? n a
  | .literal _ => by simp only [shape?]
  | .ident _ => by simp only [shape?, alike.scope, alike.heap]
  | .call _ args => by simp only [shape?, questions_alike alike args, alike.registry]
  | .unknown _ => by simp only [shape?]

theorem questions_alike {m n : Machine} (alike : m.Alike n) :
    ∀ args, questions m args = questions n args
  | [] => by simp only [questions]
  | a :: rest => by simp only [questions, shape?_alike alike a, questions_alike alike rest]

end

end Matching

theorem Pending.shape?_alike {m n : Machine} (alike : m.Alike n) (p : Pending) :
    p.shape? m = p.shape? n := by
  unfold Pending.shape?
  rw [alike.heap, Matching.shape?_alike alike]

def recordIf (traced : Bool) (entry : LogEntry) : Eval Unit :=
  if traced then Eval.record entry else pure ()

theorem invoke_recordIf (settings : Settings) (eval : Invocation → Eval CellId) (fuel depth : Nat)
    (inv : Invocation) :
    invoke settings eval fuel depth inv = (do
      let (f, args) ← Matching.resolve (evalArgument eval) inv
      recordIf settings.trace (.invoke inv.name f.origin depth)
      dispatch eval fuel f args) := by
  unfold invoke recordIf
  congr
  funext ⟨f, args⟩
  dsimp only
  split
  · rfl
  · rw [pure_bind]

namespace Coupling

variable {C : Coupling}

section System

theorem mimics_readLine : C.Mimics SystemFunction.runReadLine SystemFunction.runReadLine := by
  have read : C.Mimics
      (modifyGet fun m => (m.console.readLine.1, { m with console := m.console.readLine.2 }) :
        Eval (Option Bytes))
      (modifyGet fun m => (m.console.readLine.1, { m with console := m.console.readLine.2 })) := by
    constructor
    · intro n
      exact C.read_onward n.outer
    · intro m n joined
      obtain ⟨same, beside⟩ := C.read _ _ joined.beside
      show C.Agrees (.ok m.console.readLine.1 _) (.ok n.console.readLine.1 _)
      have line : m.console.readLine.1 = n.console.readLine.1 := same
      rw [line]
      exact .ok _ ⟨⟨joined.alike.heap, joined.alike.registry, joined.alike.scope⟩, beside⟩
  apply mimics_bind read
  intro line
  cases line with
  | none => exact mimics_fail _
  | some text => exact mimics_alloc _

def put (text : Bytes) : Eval CellId := do
  match (← get).console.write? text with
  | some console =>
    modify fun m => { m with console }
    unit
  | none => fail .outputFull

theorem runPrint_eq (ending : Bytes) (args : List CellId) :
    SystemFunction.runPrint ending args = get >>= fun m =>
      put (Bytes.join (utf8 " ") (args.map fun c => m.heap.render (m.heap.get c)) ++ ending) := rfl

theorem put_none {text : Bytes} {m : Machine} (full : m.console.write? text = none) :
    put text m = fail .outputFull m := by
  show (match m.console.write? text with | some console => _ | none => _ : Eval CellId) m = _
  rw [full]

theorem put_some {text : Bytes} {m : Machine} {console : Console}
    (written : m.console.write? text = some console) : put text m = unit { m with console } := by
  show (match m.console.write? text with | some console => _ | none => _ : Eval CellId) m = _
  rw [written]
  rfl

theorem mimics_put (text : Bytes) : C.Mimics (put text) (put text) := by
  constructor
  · intro n
    unfold after
    cases written : n.console.write? text with
    | none =>
      rw [put_none written]
      exact C.onward_refl n.outer
    | some console =>
      rw [put_some written]
      exact C.write_onward text n.outer console written
  · intro m n joined
    rcases C.write text _ _ joined.beside with ⟨first, second⟩ | ⟨c, d, first, second, beside⟩
    · rw [put_none first, put_none second]
      exact .error (C.shared_raise _) joined
    · rw [put_some first, put_some second]
      exact (mimics_alloc .unit).agrees _ _
        ⟨⟨joined.alike.heap, joined.alike.registry, joined.alike.scope⟩, beside⟩

theorem mimics_print (ending : Bytes) (args : List CellId) :
    C.Mimics (SystemFunction.runPrint ending args) (SystemFunction.runPrint ending args) := by
  rw [runPrint_eq]
  apply mimics_get
  · intro m n alike
    rw [alike.heap]
  · intro n
    exact mimics_put _

theorem mimics_detached (target c : CellId) :
    C.Mimics (SystemFunction.detached target c) (SystemFunction.detached target c) := by
  apply mimics_get
  · intro m n alike
    rw [alike.heap]
  · intro n
    split
    · apply mimics_contents
      intro d
      exact mimics_bind (mimics_copy d) fun e => mimics_alloc e
    · exact mimics_pure c

theorem mimics_push (args : List CellId) :
    C.Mimics (SystemFunction.runPush args) (SystemFunction.runPush args) := by
  cases args with
  | nil => exact mimics_fail _
  | cons target rest =>
    apply mimics_bind (mimics_expect _ _ target)
    intro elements
    apply mimics_bind (mimics_mapM fun c _ => mimics_detached target c)
    intro added
    exact mimics_bind (mimics_store target _) fun _ => mimics_alloc _

theorem mimics_pop (target : CellId) :
    C.Mimics (SystemFunction.runPop target) (SystemFunction.runPop target) := by
  apply mimics_bind (mimics_expect _ _ target)
  intro elements
  cases elements.getLast? with
  | none => exact mimics_fail _
  | some last => exact mimics_bind (mimics_store target _) fun _ => mimics_pure last

theorem mimics_index (target position : CellId) :
    C.Mimics (SystemFunction.runIndex target position)
      (SystemFunction.runIndex target position) := by
  apply mimics_bind (mimics_expect _ _ target)
  intro elements
  apply mimics_bind (mimics_expect _ _ position)
  intro n
  split
  · exact mimics_fail _
  · exact mimics_need _

theorem mimics_logical (decide : Nat → Nat → Bool) (args : List CellId) :
    C.Mimics (SystemFunction.runLogical decide args) (SystemFunction.runLogical decide args) :=
  mimics_bind (mimics_mapM fun c _ => mimics_expect _ _ c) fun _ => mimics_alloc _

theorem mimics_arithmetic (name : Name) (op : Number → Number → Number) (args : List CellId) :
    C.Mimics (SystemFunction.runArithmetic name op args)
      (SystemFunction.runArithmetic name op args) := by
  cases args with
  | nil => exact mimics_fail _
  | cons first rest =>
    apply mimics_bind (mimics_expect _ _ first)
    intro acc
    exact mimics_bind (mimics_mapM fun c _ => mimics_expect _ _ c) fun _ => mimics_alloc _

theorem mimics_compare (op : Number → Number → Bool) (a b : CellId) :
    C.Mimics (SystemFunction.runCompare op a b) (SystemFunction.runCompare op a b) := by
  apply mimics_bind (mimics_expect _ _ a)
  intro x
  exact mimics_bind (mimics_expect _ _ b) fun _ => mimics_alloc _

theorem mimics_parseNumber (c : CellId) :
    C.Mimics (SystemFunction.runParseNumber c) (SystemFunction.runParseNumber c) := by
  apply mimics_bind (mimics_expect _ _ c)
  intro text
  cases Number.parse? text with
  | none => exact mimics_fail _
  | some value => exact mimics_alloc _

theorem mimics_equal (a b : CellId) :
    C.Mimics (do
      let m ← get
      alloc (.boolean (m.heap.equal (m.heap.get a) (m.heap.get b)))) (do
      let m ← get
      alloc (.boolean (m.heap.equal (m.heap.get a) (m.heap.get b)))) := by
  apply mimics_get
  · intro m n alike
    rw [alike.heap]
  · intro n
    exact mimics_alloc _

theorem mimics_system (f : SystemFunction) (args : List CellId) :
    C.Mimics (f.run args) (f.run args) := by
  unfold SystemFunction.run
  split
  · exact mimics_readLine
  · exact mimics_parseNumber _
  · exact mimics_bind (mimics_expect _ _ _) fun _ => mimics_alloc _
  · exact mimics_bind (mimics_expect _ _ _) fun _ => mimics_alloc _
  · exact mimics_logical _ _
  · exact mimics_logical _ _
  · exact mimics_logical _ _
  · exact mimics_arithmetic _ _ _
  · exact mimics_arithmetic _ _ _
  · exact mimics_arithmetic _ _ _
  · exact mimics_arithmetic _ _ _
  · exact mimics_arithmetic _ _ _
  · exact mimics_print _ _
  · exact mimics_print _ _
  · exact mimics_alloc _
  · exact mimics_alloc _
  · exact mimics_alloc _
  · exact mimics_equal _ _
  · exact mimics_compare _ _ _
  · exact mimics_compare _ _ _
  · exact mimics_compare _ _ _
  · exact mimics_compare _ _ _
  · exact mimics_alloc _
  · exact mimics_push _
  · exact mimics_pop _
  · exact mimics_index _ _
  · exact mimics_bind (mimics_expect _ _ _) fun _ => mimics_alloc _
  · exact mimics_crash

end System

section Arguments

variable {eval other : Argument → Eval CellId} (callee : ∀ a, C.Mimics (eval a) (other a))
include callee

theorem mimics_force (s : Signature) (last position : Nat) (args : List Pending) :
    C.Mimics (Matching.force eval s last position args)
      (Matching.force other s last position args) := by
  induction args generalizing position with
  | nil => exact mimics_pure []
  | cons p rest ih =>
    have goOn : ∀ q : Pending, C.Mimics
        (do let rest ← Matching.force eval s last (position + 1) rest; return q :: rest)
        (do let rest ← Matching.force other s last (position + 1) rest; return q :: rest) :=
      fun q => mimics_bind (ih (position + 1)) fun _ => mimics_pure _
    simp only [Matching.force]
    split
    · exact mimics_pure _
    · split
      · exact goOn _
      · exact mimics_bind (callee p.arg) fun _ => goOn _
      · exact mimics_crash
      · exact goOn _

theorem mimics_accepts (s : Signature) (left position : Nat) (args : List Pending) :
    C.Mimics (Matching.accepts eval s left position args)
      (Matching.accepts other s left position args) := by
  induction left generalizing position args with
  | zero => exact mimics_pure _
  | succ left ih =>
    simp only [Matching.accepts]
    apply mimics_bind (mimics_need _)
    intro slot
    split
    · apply mimics_bind (mimics_need _)
      intro p
      apply mimics_get
      · intro m n alike
        rw [Pending.shape?_alike alike]
      · intro n
        split
        · split
          · exact ih _ _
          · exact mimics_pure _
        · apply mimics_bind (mimics_force callee s position 0 args)
          intro forced
          apply mimics_bind (mimics_need _)
          intro c
          apply mimics_contents
          intro d
          split
          · exact ih _ _
          · exact mimics_pure _
    · exact ih _ _

theorem mimics_choose (name : Name) (candidates : List Function) (args : List Pending) :
    C.Mimics (Matching.choose eval name candidates args)
      (Matching.choose other name candidates args) := by
  induction candidates generalizing args with
  | nil =>
    apply mimics_get
    · intro m n alike
      simp only [Pending.shape?_alike alike]
    · intro n
      exact mimics_fail _
  | cons f rest ih =>
    simp only [Matching.choose]
    split
    · apply mimics_bind (mimics_accepts callee f.signature args.length 0 args)
      intro out
      split
      · exact mimics_pure _
      · exact ih _
    · exact ih _

theorem mimics_resolve (inv : Invocation) :
    C.Mimics (Matching.resolve eval inv) (Matching.resolve other inv) := by
  apply mimics_get
  · intro m n alike
    rw [alike.registry]
  · intro n
    exact mimics_choose callee _ _ _

theorem mimics_evalRemaining (args : List Pending) :
    C.Mimics (evalRemaining eval args) (evalRemaining other args) := by
  apply mimics_mapM
  intro p _
  cases p.cell with
  | some c => exact mimics_pure c
  | none => exact callee p.arg

theorem mimics_prepareOne (p : Pending) (slot : Slot) :
    C.Mimics (prepareOne eval p slot) (prepareOne other p slot) := by
  unfold prepareOne
  split
  · exact mimics_pure _
  · split
    · exact mimics_pure _
    · exact mimics_bind (callee p.arg) fun _ => mimics_pure _

theorem mimics_prepare (s : Signature) (position : Nat) (args : List Pending) :
    C.Mimics (prepare eval s position args) (prepare other s position args) := by
  induction args generalizing position with
  | nil => exact mimics_pure []
  | cons p rest ih =>
    apply mimics_bind (mimics_need _)
    intro slot
    apply mimics_bind (mimics_prepareOne callee p slot)
    intro first
    exact mimics_bind (ih (position + 1)) fun _ => mimics_pure _

theorem mimics_runBlock (body : List Prepared) :
    C.Mimics (runBlock eval body) (runBlock other body) := by
  induction body with
  | nil => exact mimics_pure none
  | cons s rest ih =>
    apply mimics_bind (callee s.raw)
    intro c
    apply mimics_contents
    intro d
    split
    · exact mimics_pure _
    · exact ih

theorem mimics_runConditional (args : List Prepared) :
    C.Mimics (ContextFunction.runConditional eval args)
      (ContextFunction.runConditional other args) := by
  cases args with
  | nil => exact mimics_fail _
  | cons condition body =>
    apply mimics_bind (mimics_need _)
    intro c
    apply mimics_bind (mimics_expect _ _ c)
    intro value
    split
    · apply mimics_bind (mimics_inBlock (mimics_runBlock callee body))
      intro out
      cases out with
      | none => exact mimics_alloc _
      | some c => exact mimics_pure c
    · exact mimics_alloc _

/-- The first of the two loops may go round more often. -/
theorem mimics_runLoop (predicate : Argument) (body : List Prepared) {more less : Nat}
    (le : less ≤ more) :
    C.Mimics (ContextFunction.runLoop eval predicate body more)
      (ContextFunction.runLoop other predicate body less) := by
  induction less generalizing more with
  | zero => exact mimics_noFuel _
  | succ less ih =>
    obtain ⟨more, rfl⟩ : ∃ k, more = k + 1 := ⟨more - 1, by omega⟩
    have again := @ih more (by omega)
    simp only [ContextFunction.runLoop]
    apply mimics_bind C.check
    intro _
    apply mimics_bind (callee predicate)
    intro c
    apply mimics_bind (mimics_expect _ _ c)
    intro value
    split
    · apply mimics_bind (mimics_inBlock (mimics_runBlock callee body))
      intro out
      cases out with
      | none => exact again
      | some c =>
        apply mimics_contents
        intro d
        split
        · exact mimics_alloc _
        · exact again
        · exact mimics_pure c
    · exact mimics_alloc _

end Arguments

theorem mimics_runBind (args : List Prepared) :
    C.Mimics (ContextFunction.runBind args) (ContextFunction.runBind args) := by
  unfold ContextFunction.runBind
  split
  · rename_i target value
    split
    · apply mimics_bind (mimics_need _)
      intro c
      exact mimics_bind (mimics_bindName _ c) fun _ => mimics_alloc _
    · apply mimics_get
      · intro m n alike
        rw [alike.heap]
      · intro n
        exact mimics_fail _
  · exact mimics_crash

theorem mimics_runAssign (args : List Prepared) :
    C.Mimics (ContextFunction.runAssign args) (ContextFunction.runAssign args) := by
  unfold ContextFunction.runAssign
  split
  · rename_i target value
    split
    · apply mimics_bind (mimics_lookup _)
      intro c
      apply mimics_bind (mimics_need _)
      intro v
      apply mimics_contents
      intro d
      apply mimics_bind (mimics_copy d)
      intro e
      exact mimics_bind (mimics_store c e) fun _ => mimics_alloc _
    · apply mimics_get
      · intro m n alike
        rw [alike.heap]
      · intro n
        exact mimics_fail _
  · exact mimics_crash

theorem mimics_runDefine (args : List Prepared) :
    C.Mimics (ContextFunction.runDefine args) (ContextFunction.runDefine args) := by
  unfold ContextFunction.runDefine
  split
  · rename_i outline _
    have defined :
        C.Mimics (modify fun m => m.define outline) (modify fun m => m.define outline) := by
      apply mimics_modify
      · intro m
        rfl
      · intro m n alike
        unfold Machine.define
        rw [alike.heap, alike.registry, alike.scope]
        exact ⟨rfl, rfl, rfl⟩
    apply mimics_bind defined
    intro _
    exact mimics_bind (mimics_record _) fun _ => mimics_alloc _
  · apply mimics_get
    · intro m n alike
      rw [alike.heap]
    · intro n
      exact mimics_fail _

theorem mimics_context {eval other : Argument → Eval CellId}
    (callee : ∀ a, C.Mimics (eval a) (other a)) {more less : Nat} (le : less ≤ more)
    (f : ContextFunction) (args : List Prepared) :
    C.Mimics (f.run eval more args) (f.run other less args) := by
  cases f with
  | bindName => exact mimics_runBind args
  | assign => exact mimics_runAssign args
  | conditional => exact mimics_runConditional callee args
  | loop =>
    cases args with
    | nil => exact mimics_fail _
    | cons predicate body => exact mimics_runLoop callee predicate.raw body le
  | define => exact mimics_runDefine args

theorem mimics_recordIf (traced : Bool) (entry : LogEntry) :
    C.Mimics (recordIf traced entry) (recordIf traced entry) := by
  unfold recordIf
  split
  · exact mimics_record entry
  · exact mimics_pure ()

section Evaluation

variable {eval other : Invocation → Eval CellId} (callee : ∀ inv, C.Mimics (eval inv) (other inv))
include callee

theorem mimics_evalArgument (a : Argument) :
    C.Mimics (evalArgument eval a) (evalArgument other a) := by
  cases a with
  | literal value => exact mimics_bind (mimics_copy value) fun d => mimics_alloc d
  | ident name => exact mimics_lookup name
  | call name args => exact callee ⟨name, args⟩
  | unknown tag => exact mimics_fail _

theorem mimics_runBody (body : List Invocation) :
    C.Mimics (Definition.runBody eval body) (Definition.runBody other body) := by
  induction body with
  | nil => exact mimics_alloc _
  | cons s rest ih =>
    apply mimics_bind (callee s)
    intro c
    apply mimics_contents
    intro d
    split
    · exact mimics_pure _
    · exact mimics_alloc _
    · exact ih

theorem mimics_dispatch {more less : Nat} (le : less ≤ more) (f : Function) (args : List Pending) :
    C.Mimics (dispatch eval more f args) (dispatch other less f args) := by
  have argument := mimics_evalArgument callee
  cases f with
  | system s =>
    exact mimics_bind (mimics_evalRemaining argument args) fun cells => mimics_system s cells
  | context c =>
    exact mimics_bind (mimics_prepare argument c.signature 0 args) fun given =>
      mimics_context argument le c given
  | defined d =>
    apply mimics_bind (mimics_evalRemaining argument args)
    intro cells
    apply mimics_bind C.check
    intro _
    exact mimics_inScope _ (mimics_runBody callee d.body)

theorem mimics_invoke {s t : Settings}
    (traced : ∀ entry, C.Mimics (recordIf s.trace entry) (recordIf t.trace entry)) {more less : Nat}
    (le : less ≤ more) (depth : Nat) (inv : Invocation) :
    C.Mimics (invoke s eval more depth inv) (invoke t other less depth inv) := by
  rw [invoke_recordIf, invoke_recordIf]
  apply mimics_bind (mimics_resolve (mimics_evalArgument callee) inv)
  rintro ⟨f, args⟩
  exact mimics_bind (traced _) fun _ => mimics_dispatch callee le f args

end Evaluation

/-- The settings of two coupled runs: calls may be recorded in one and not in the other if the bond
allows it, and the first may have a lower limit of depth if it may stop for it. -/
structure Fits (C : Coupling) (s t : Settings) : Prop where
  traced : ∀ entry, C.Mimics (recordIf s.trace entry) (recordIf t.trace entry)
  limit : s.depthLimit = t.depthLimit ∨
    (∀ high, t.depthLimit = some high → ∃ low, s.depthLimit = some low ∧ low ≤ high) ∧
      ∀ low o p, C.beside o p → C.stopped (.failed (.raise (.depthExceeded low))) o p

theorem mimics_stopping {α : Type} {fault : Fault} {x y : Eval α}
    (stops : ∀ o p, C.beside o p → C.stopped (.failed (.raise fault)) o p) (runs : C.Mimics x y) :
    C.Mimics (fail fault) y :=
  ⟨runs.onward, fun _ _ joined => agrees_stopped (stops _ _ joined.beside) runs⟩

theorem mimics_entered {s t : Settings} (fits : C.Fits s t) {eval other : Invocation → Eval CellId}
    (callee : ∀ inv, C.Mimics (eval inv) (other inv)) {more less : Nat} (le : less ≤ more)
    (depth : Nat) (inv : Invocation) :
    C.Mimics (entered s eval more depth inv) (entered t other less depth inv) := by
  have invoked := mimics_invoke callee fits.traced le (depth + 1) inv
  apply mimics_inCall
  rcases fits.limit with same | ⟨lower, stops⟩
  · rw [same]
    split
    · split
      · exact mimics_fail _
      · exact invoked
    · exact invoked
  · cases low : s.depthLimit with
    | none =>
      have none : t.depthLimit = none := by
        cases high : t.depthLimit with
        | none => rfl
        | some limit =>
          obtain ⟨limit', found, _⟩ := lower limit high
          rw [low] at found
          cases found
      rw [none]
      exact invoked
    | some limit =>
      dsimp only
      by_cases exceeded : limit ≤ depth
      · -- The first run stops here, whether the second does or not.
        rw [if_pos exceeded]
        split
        · split
          · exact mimics_stopping (stops limit) (mimics_fail _)
          · exact mimics_stopping (stops limit) invoked
        · exact mimics_stopping (stops limit) invoked
      · rw [if_neg exceeded]
        split
        · rename_i high found
          obtain ⟨limit', found, le⟩ := lower high found
          cases low.symm.trans found
          rw [if_neg (by omega)]
          exact invoked
        · exact invoked

theorem mimics_evaluate {s t : Settings} (fits : C.Fits s t) {more less : Nat} (le : less ≤ more)
    (depth : Nat) (inv : Invocation) :
    C.Mimics (evaluate s more depth inv) (evaluate t less depth inv) := by
  induction less generalizing more depth inv with
  | zero => exact mimics_noFuel _
  | succ less ih =>
    obtain ⟨more, rfl⟩ : ∃ k, more = k + 1 := ⟨more - 1, by omega⟩
    rw [evaluate_succ, evaluate_succ]
    exact mimics_entered fits (ih (by omega) (depth + 1)) (by omega) depth inv

end Coupling
end CallScript
