import CallScript.Proofs.Run.Coupled
import CallScript.Run.Interpreter

/- Limits only cut a run short. A run with a lower limit of depth, or a less patient host, either
   does what the other run does, or stops because of its limits after writing an initial part of the
   other's output. That more fuel does not change a run that comes to an end is a case of the same
   argument. -/
namespace CallScript

open Eval

namespace Coupling

variable {C : Coupling} {α : Type}

theorem inStatement_eq (number : Nat) (x : Eval α) :
    Interpreter.inStatement number x = fun m => reported (fun f m =>
      ({ f with statement := some number },
        { m with log := .programFailed number f.text :: m.log })) (x m) := by
  funext m
  unfold Interpreter.inStatement
  cases x m with
  | ok a n => rfl
  | error e n => cases e <;> rfl

def Unnumbered (C : Coupling) : Prop :=
  ∀ f number, C.shared (.failed f) → C.shared (.failed { f with statement := some number })

theorem mimics_inStatement (unnumbered : C.Unnumbered) {x y : Eval α} (number : Nat)
    (mimics : C.Mimics x y) :
    C.Mimics (Interpreter.inStatement number x) (Interpreter.inStatement number y) := by
  rw [inStatement_eq, inStatement_eq]
  apply mimics_reported ?_ ?_ ?_ ?_ mimics
  · intro f n
    exact C.record_onward _ _
  · intro f m n joined
    exact ⟨rfl, ⟨joined.alike.heap, joined.alike.registry, joined.alike.scope⟩,
      C.record _ _ _ joined.beside⟩
  · intro f m p stopped
    exact C.retold f _ m.outer _ p stopped rfl
  · intro f m known
    exact unnumbered f number known

variable {s t : Settings} (fits : C.Fits s t) {more less : Nat} (le : less ≤ more)
include fits le

theorem mimics_statements (unnumbered : C.Unnumbered) (number : Nat) (p : Program) :
    C.Mimics (Interpreter.statements s more number p) (Interpreter.statements t less number p) := by
  induction p generalizing number with
  | nil => exact mimics_pure ()
  | cons inv rest ih =>
    apply mimics_bind C.check
    intro _
    apply mimics_bind (mimics_inStatement unnumbered number (mimics_evaluate fits le 0 inv))
    intro _
    exact ih (number + 1)

theorem mimics_program (unnumbered : C.Unnumbered) (p : Program) :
    C.Mimics (Interpreter.program s more p) (Interpreter.program t less p) :=
  mimics_bind (mimics_record _) fun _ => mimics_statements fits le unnumbered 1 p

theorem mimics_single (inv : Invocation) :
    C.Mimics (Interpreter.single s more inv) (Interpreter.single t less inv) :=
  mimics_bind C.check fun _ => mimics_evaluate fits le 0 inv

end Coupling

theorem Console.output_write? {c d : Console} {text : Bytes} (written : c.write? text = some d) :
    d.output = c.output ++ text := by
  unfold Console.write? at written
  dsimp only at written
  split at written
  · cases written
  · cases written
    simp [Console.output]

theorem Console.output_readLine (c : Console) : c.readLine.2.output = c.output := by
  unfold Console.readLine
  split
  · rfl
  · rfl

theorem checkPatience_run (m : Machine) :
    checkPatience m = match m.patience.checks with
      | none => .ok () m
      | some 0 => .error (.failed (.raise (.stopped m.patience.cause))) m
      | some (n + 1) => .ok () { m with patience := { m.patience with checks := some n } } := by
  show (match m.patience.checks with | none => _ | some 0 => _ | some (n + 1) => _ : Eval Unit) m =
      _
  cases m.patience.checks with
  | none => rfl
  | some k =>
    cases k with
    | zero => rfl
    | succ n => rfl

theorem checkPatience_console (m : Machine) :
    (after checkPatience m).outer.console = m.console := by
  unfold after
  rw [checkPatience_run]
  cases m.patience.checks with
  | none => rfl
  | some k =>
    cases k with
    | zero => rfl
    | succ n => rfl

def Bond.same : Bond where
  beside o p := o = p
  onward _ _ := True
  stopped _ _ _ := False
  shared _ := True

theorem Bond.Joined.eq {m n : Machine} (joined : Bond.same.Joined m n) : m = n := by
  obtain ⟨⟨heap, registry, scope⟩, outer⟩ := joined
  cases m
  cases n
  cases outer
  simp_all

theorem Bond.same_refl (m : Machine) : Bond.same.Joined m m := ⟨⟨rfl, rfl, rfl⟩, rfl⟩

theorem Bond.same_mimics {α : Type} (x : Eval α) : Bond.same.Mimics x x := by
  refine ⟨fun _ => trivial, ?_⟩
  intro m n joined
  rw [joined.eq]
  cases x n with
  | ok a k => exact .ok a (same_refl k)
  | error e k => exact .error trivial (same_refl k)

def sameRun : Coupling where
  toBond := .same
  onward_refl _ := trivial
  onward_trans _ _ _ _ _ := trivial
  ahead _ _ _ _ stopped _ := stopped
  retold _ _ _ _ _ stopped _ := stopped
  shared_raise _ := trivial
  shared_within _ _ _ _ := trivial
  shared_crashed := trivial
  record := by
    rintro entry o _ ⟨⟩
    rfl
  record_onward _ _ := trivial
  read := by
    rintro o _ ⟨⟩
    exact ⟨rfl, rfl⟩
  read_onward _ := trivial
  write := by
    rintro text o _ ⟨⟩
    cases o.console.write? text with
    | none => exact Or.inl ⟨rfl, rfl⟩
    | some c => exact Or.inr ⟨c, c, rfl, rfl, rfl⟩
  write_onward _ _ _ _ := trivial
  check := Bond.same_mimics checkPatience

def AtMost : Option Nat → Option Nat → Prop
  | _, none => True
  | none, some _ => False
  | some low, some high => low ≤ high

/-- A failure because of the limits of a run. -/
def Failure.Limiting (f : Failure) : Prop := f.fault.kind = .resource ∨ f.fault.kind = .cancelled

/-- A run of a less patient host, beside one that may go on for longer. -/
def Bond.shorter : Bond where
  beside o p := o.console = p.console ∧ o.log = p.log ∧ AtMost o.patience.checks p.patience.checks
  onward p q := p.console.output <+: q.console.output
  stopped e o p := ∃ f, e = .failed f ∧ f.Limiting ∧ o.console.output <+: p.console.output
  shared _ := True

theorem Bond.shorter_check : Bond.shorter.Mimics checkPatience checkPatience := by
  constructor
  · intro n
    show n.console.output <+: (after checkPatience n).outer.console.output
    simp [checkPatience_console]
  · intro m n joined
    obtain ⟨alike, console, log, checks⟩ := joined
    have console : m.console = n.console := console
    have checks : AtMost m.patience.checks n.patience.checks := checks
    have output : m.console.output <+: n.console.output := by simp [console]
    have spent : ∀ patience patience' : Patience, AtMost patience.checks patience'.checks →
        Bond.shorter.Joined { m with patience } { n with patience := patience' } := fun _ _ le =>
      ⟨⟨alike.heap, alike.registry, alike.scope⟩, console, log, le⟩
    rw [checkPatience_run, checkPatience_run]
    cases left : m.patience.checks with
    | none =>
      cases right : n.patience.checks with
      | none => exact .ok () ⟨alike, console, log, checks⟩
      | some high =>
        rw [left, right] at checks
        exact checks.elim
    | some low =>
      cases low with
      | zero =>
        -- The first host has given up, and the second may still go on.
        have stopped : Bond.shorter.stopped (.failed (.raise (.stopped m.patience.cause)))
            m.outer n.outer :=
          ⟨_, rfl, Or.inr rfl, output⟩
        cases n.patience.checks with
        | none => exact .stoppedOk () stopped
        | some high =>
          cases high with
          | zero => exact .stoppedError _ stopped
          | succ high => exact .stoppedOk () stopped
      | succ low =>
        rw [left] at checks
        cases right : n.patience.checks with
        | none => exact .ok () (spent _ n.patience (by rw [right]; trivial))
        | some high =>
          rw [right] at checks
          cases high with
          | zero => exact absurd checks (Nat.not_succ_le_zero low)
          | succ high => exact .ok () (spent _ _ (Nat.le_of_succ_le_succ checks))

theorem Bond.Joined.unhurried {m n : Machine} (joined : Bond.shorter.Joined m n) :
    { m with patience := .endless } = { n with patience := .endless } := by
  obtain ⟨⟨heap, registry, scope⟩, console, log, _⟩ := joined
  have console : m.console = n.console := console
  have log : m.log = n.log := log
  rw [heap, registry, scope, console, log]

def cutShort : Coupling where
  toBond := .shorter
  onward_refl _ := List.prefix_rfl
  onward_trans _ _ _ first second := List.IsPrefix.trans first second
  ahead := by
    rintro _ o p q ⟨f, rfl, limiting, before⟩ onward
    exact ⟨f, rfl, limiting, before.trans onward⟩
  retold := by
    rintro f g o log p ⟨_, ⟨⟩, limiting, before⟩ same
    refine ⟨g, rfl, ?_, before⟩
    rw [Failure.Limiting, same]
    exact limiting
  shared_raise _ := trivial
  shared_within _ _ _ _ := trivial
  shared_crashed := trivial
  record := by
    rintro entry o p ⟨console, log, checks⟩
    exact ⟨console, by rw [log], checks⟩
  record_onward _ _ := List.prefix_rfl
  read := by
    rintro o p ⟨console, log, checks⟩
    rw [console]
    exact ⟨rfl, rfl, log, checks⟩
  read_onward p := by
    show p.console.output <+: p.console.readLine.2.output
    simp [Console.output_readLine]
  write := by
    rintro text o p ⟨console, log, checks⟩
    rw [console]
    cases p.console.write? text with
    | none => exact Or.inl ⟨rfl, rfl⟩
    | some d => exact Or.inr ⟨d, d, rfl, rfl, rfl, log, checks⟩
  write_onward text p d written := by
    show p.console.output <+: d.output
    rw [Console.output_write? written]
    exact List.prefix_append _ _
  check := Bond.shorter_check

def Stop.numbered (number : Nat) : Stop → Stop
  | .failed f => .failed { f with statement := some number }
  | .crashed => .crashed
  | .outOfFuel => .outOfFuel

namespace Interpreter

variable {α : Type}

/-- A run comes to an end with a result, given enough fuel. -/
def Ends (run : Nat → Except Stop α × Interpreter) (result : Except Stop α) (i : Interpreter) :
    Prop :=
  ∃ fuel, run fuel = (result, i) ∧ result ≠ .error .outOfFuel

def fueled : Except Stop α → Bool
  | .error .outOfFuel => false
  | _ => true

theorem ends_of_fueled (run : Nat → Except Stop α × Interpreter) (fuel : Nat)
    (enough : fueled (run fuel).1 = true) : ∃ result i, Ends run result i := by
  refine ⟨(run fuel).1, (run fuel).2, fuel, rfl, ?_⟩
  intro out
  rw [out] at enough
  cases enough

/-- A run has done what another did, or has stopped because of its limits after an initial part of
the other's output. -/
def CutShort (first : Except Stop α × Interpreter) (second : Except Stop α × Interpreter) : Prop :=
  (∃ f, first.1 = .error (.failed f) ∧ f.Limiting ∧
      first.2.machine.console.output <+: second.2.machine.console.output) ∨
    first.1 = second.1 ∧ first.2.machine = second.2.machine

theorem agrees_same {x y : EStateM.Result Stop Machine α} (agrees : Bond.same.Agrees x y)
    (ended : ∀ n, y ≠ .error .outOfFuel n) : x = y := by
  cases agrees with
  | noFuel r n => exact absurd rfl (ended n)
  | ok a joined => rw [joined.eq]
  | error shared joined => rw [joined.eq]
  | stoppedOk a stopped => exact stopped.elim
  | stoppedError e stopped => exact stopped.elim

theorem inStatement_ok {x : Eval α} {a : α} {n n' : Machine} (number : Nat) (run : x n = .ok a n') :
    inStatement number x n = .ok a n' := by
  unfold inStatement
  rw [run]

theorem inStatement_error {x : Eval α} {e : Stop} {n n' : Machine} (number : Nat)
    (run : x n = .error e n') :
    ∃ log, inStatement number x n = .error (e.numbered number) { n' with log } := by
  unfold inStatement
  rw [run]
  cases e with
  | failed f => exact ⟨_, rfl⟩
  | crashed => exact ⟨n'.log, rfl⟩
  | outOfFuel => exact ⟨n'.log, rfl⟩

theorem run_eq (i : Interpreter) (patience : Patience) (act : Settings → Eval α) :
    i.run patience act = match act i.settings { i.machine with patience } with
      | .ok a m => (.ok a, { i with machine := { m with patience := .endless } })
      | .error e m => (.error e, { i with machine := { m with patience := .endless } }) := rfl

theorem run_ended {i : Interpreter} {patience : Patience} {act : Settings → Eval α}
    (ended : (i.run patience act).1 ≠ .error .outOfFuel) (n : Machine) :
    act i.settings { i.machine with patience } ≠ .error .outOfFuel n := by
  intro run
  rw [run_eq, run] at ended
  exact ended rfl

theorem run_more_fuel {i : Interpreter} {patience : Patience} {act : Nat → Settings → Eval α}
    (mimics : ∀ s more less, less ≤ more → sameRun.Mimics (act more s) (act less s))
    {more less : Nat} (le : less ≤ more)
    (ended : (i.run patience (act less)).1 ≠ .error .outOfFuel) :
    i.run patience (act more) = i.run patience (act less) := by
  have same :=
    agrees_same ((mimics i.settings more less le).agrees _ _ (Bond.same_refl _)) (run_ended ended)
  rw [run_eq, run_eq, same]

theorem ends_unique {i : Interpreter} {patience : Patience} {act : Nat → Settings → Eval α}
    (mimics : ∀ s more less, less ≤ more → sameRun.Mimics (act more s) (act less s))
    {first second : Except Stop α} {j k : Interpreter}
    (one : Ends (fun fuel => i.run patience (act fuel)) first j)
    (other : Ends (fun fuel => i.run patience (act fuel)) second k) : first = second ∧ j = k := by
  obtain ⟨fuel, run, ended⟩ := one
  obtain ⟨fuel', run', ended'⟩ := other
  dsimp only at run run'
  have same : (first, j) = (second, k) := by
    rcases Nat.le_total fuel fuel' with le | le
    · rw [← run, ← run']
      exact (run_more_fuel mimics le (by rwa [run])).symm
    · rw [← run, ← run']
      exact run_more_fuel mimics le (by rwa [run'])
  exact ⟨congrArg Prod.fst same, congrArg Prod.snd same⟩

theorem cutShort_run {i j : Interpreter} (machine : i.machine = j.machine) {few many : Patience}
    (checks : AtMost few.checks many.checks) {x y : Settings → Eval α}
    (mimics : cutShort.Mimics (x i.settings) (y j.settings))
    (ended : (j.run many y).1 ≠ .error .outOfFuel) : CutShort (i.run few x) (j.run many y) := by
  have joined :
      cutShort.Joined { i.machine with patience := few } { j.machine with patience := many } := by
    rw [machine]
    exact ⟨⟨rfl, rfl, rfl⟩, rfl, rfl, checks⟩
  have agrees := mimics.agrees _ _ joined
  have ended := run_ended ended
  rw [run_eq, run_eq]
  generalize x i.settings _ = r at agrees
  generalize y j.settings _ = s at agrees ended
  cases agrees with
  | noFuel r n => exact absurd rfl (ended n)
  | ok a joined => exact Or.inr ⟨rfl, joined.unhurried⟩
  | error e joined => exact Or.inr ⟨rfl, joined.unhurried⟩
  | stoppedOk a stopped =>
    obtain ⟨f, rfl, limiting, before⟩ := stopped
    exact Or.inl ⟨f, rfl, limiting, before⟩
  | stoppedError e stopped =>
    obtain ⟨f, rfl, limiting, before⟩ := stopped
    exact Or.inl ⟨f, rfl, limiting, before⟩

theorem CutShort.ended {first second : Except Stop α × Interpreter} (short : CutShort first second)
    (ended : second.1 ≠ .error .outOfFuel) : first.1 ≠ .error .outOfFuel := by
  rcases short with ⟨f, failed, _, _⟩ | ⟨same, _⟩
  · rw [failed]
    simp
  · rwa [same]

theorem ends_cutShort {i j k : Interpreter} (machine : i.machine = j.machine) {few many : Patience}
    (checks : AtMost few.checks many.checks) {x y : Nat → Settings → Eval α}
    {result : Except Stop α}
    (mimics : ∀ fuel, cutShort.Mimics (x fuel i.settings) (y fuel j.settings))
    (ends : Ends (fun fuel => j.run many (y fuel)) result k) :
    ∃ result' k', Ends (fun fuel => i.run few (x fuel)) result' k' ∧ CutShort (result', k')
      (result, k) := by
  obtain ⟨fuel, run, ended⟩ := ends
  dsimp only at run
  have short : CutShort (i.run few (x fuel)) (j.run many (y fuel)) :=
    cutShort_run machine checks (mimics fuel) (by rwa [run])
  rw [run] at short
  exact ⟨_, _, ⟨fuel, rfl, short.ended ended⟩, short⟩

end Interpreter

theorem sameRun_fits (s : Settings) : sameRun.Fits s s :=
  ⟨fun entry => Coupling.mimics_recordIf s.trace entry, Or.inl rfl⟩

theorem cutShort_fits {low high : Option Nat} (depths : AtMost low high) (trace : Bool) :
    cutShort.Fits ⟨low, trace⟩ ⟨high, trace⟩ := by
  refine ⟨fun entry => Coupling.mimics_recordIf trace entry, Or.inr ⟨?_, ?_⟩⟩
  · rintro limit rfl
    cases low with
    | none => exact depths.elim
    | some least => exact ⟨least, rfl, depths⟩
  · rintro limit o p ⟨console, -, -⟩
    exact ⟨_, rfl, Or.inl rfl, by simp [console]⟩

open Interpreter in
/-- Lower limits of depth and of patience only cut short what a program or an invocation does:
whenever the run with the higher limits comes to an end, so does the other, in one way only. -/
theorem limits_only_truncate (machine : Machine) (trace : Bool) {low high : Int}
    {few many : Patience} (depths : AtMost (depthLimitOf low) (depthLimitOf high))
    (checks : AtMost few.checks many.checks) :
    let limited : Interpreter := ⟨⟨depthLimitOf low, trace⟩, machine⟩
    let generous : Interpreter := ⟨⟨depthLimitOf high, trace⟩, machine⟩
    (∀ p result j, Ends (fun fuel => generous.execute fuel many p) result j →
      ∃ result' i, Ends (fun fuel => limited.execute fuel few p) result' i ∧
        (∀ r k, Ends (fun fuel => limited.execute fuel few p) r k → r = result' ∧ k = i) ∧
        CutShort (result', i) (result, j)) ∧
    ∀ inv result j, Ends (fun fuel => generous.evaluate fuel many inv) result j →
      ∃ result' i, Ends (fun fuel => limited.evaluate fuel few inv) result' i ∧
        (∀ r k, Ends (fun fuel => limited.evaluate fuel few inv) r k → r = result' ∧ k = i) ∧
        CutShort (result', i) (result, j) := by
  intro limited generous
  have fits := cutShort_fits depths trace
  constructor
  · intro p result j ends
    have again : ∀ s more less, less ≤ more →
        sameRun.Mimics (program s more p) (program s less p) :=
      fun s more less le => Coupling.mimics_program (sameRun_fits s) le (fun _ _ _ => trivial) p
    obtain ⟨result', i, ends', short⟩ := ends_cutShort (i := limited) (j := generous)
      (x := fun fuel s => program s fuel p) rfl checks
      (fun fuel => Coupling.mimics_program fits (Nat.le_refl fuel) (fun _ _ _ => trivial) p) ends
    exact ⟨result', i, ends', fun r k other => ends_unique again other ends', short⟩
  · intro inv result j ends
    have again : ∀ s more less, less ≤ more →
        sameRun.Mimics (single s more inv) (single s less inv) :=
      fun s more less le => Coupling.mimics_single (sameRun_fits s) le inv
    obtain ⟨result', i, ends', short⟩ := ends_cutShort (i := limited) (j := generous)
      (x := fun fuel s => single s fuel inv) rfl checks
      (fun fuel => Coupling.mimics_single fits (Nat.le_refl fuel) inv) ends
    exact ⟨result', i, ends', fun r k other => ends_unique again other ends', short⟩

def printNested : Program :=
  [⟨utf8 "print", [.literal (.string (utf8 "a"))]⟩, ⟨utf8 "print", [.call (utf8 "list") []]⟩]

theorem printNested_ends : ∃ result j,
    Interpreter.Ends
      (fun fuel => (Interpreter.new 2 false (.ofInput [])).execute fuel .endless printNested)
      result j :=
  Interpreter.ends_of_fueled _ 4 (by decide +kernel)

open Interpreter in
theorem limits_only_truncate_nested : ∃ result j result' i,
    Ends (fun fuel => (Interpreter.new 2 false (.ofInput [])).execute fuel .endless printNested)
      result j ∧
    Ends (fun fuel => (Interpreter.new 1 false (.ofInput [])).execute fuel .endless printNested)
      result' i ∧
    CutShort (result', i) (result, j) := by
  have depths : AtMost (depthLimitOf 1) (depthLimitOf 2) := by simp [depthLimitOf, AtMost]
  have checks : AtMost Patience.endless.checks Patience.endless.checks := trivial
  obtain ⟨result, j, ends⟩ := printNested_ends
  obtain ⟨result', i, ends', -, short⟩ :=
    (limits_only_truncate (.initial (.ofInput [])) false depths checks).1 printNested result j ends
  exact ⟨result, j, result', i, ends, ends', short⟩

end CallScript
