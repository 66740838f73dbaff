import CallScript.Proofs.Program.Cuts
import CallScript.Proofs.Run.Limits

/- A session that is given a text line by line does what an interpreter does that executes it whole.
   Its machine goes through the same heaps, scopes and functions; only its output starts anew with
   every statement it runs. -/
namespace CallScript

open Eval

/-- What surrounds a session that has been given an initial part of a program, beside the program as
a whole, which had written some output before. -/
structure Resumed (earlier : Bytes) (o p : Outer) : Prop where
  input : o.console.input = p.console.input
  breaks : o.console.inputBreaks = p.console.inputBreaks
  roomy : o.console.capacity = none ∧ p.console.capacity = none
  output : p.console.output = earlier ++ o.console.output
  patient : o.patience.checks = none ∧ p.patience.checks = none

def Bond.resumed (earlier : Bytes) : Bond where
  beside := Resumed earlier
  onward _ _ := True
  stopped _ _ _ := False
  shared e := ∀ f, e = .failed f → f.statement = none

theorem Console.write?_roomy {c : Console} (roomy : c.capacity = none) (text : Bytes) :
    c.write? text = some { c with written := text :: c.written, size := c.size + text.length } := by
  simp [Console.write?, roomy]

theorem Console.readLine_same {c d : Console} (input : c.input = d.input)
    (breaks : c.inputBreaks = d.inputBreaks) :
    c.readLine.1 = d.readLine.1 ∧ c.readLine.2.input = d.readLine.2.input := by
  unfold Console.readLine
  rw [input, breaks]
  split
  · exact ⟨rfl, rfl⟩
  · exact ⟨rfl, rfl⟩

theorem Console.readLine_rest (c : Console) :
    c.readLine.2.inputBreaks = c.inputBreaks ∧ c.readLine.2.capacity = c.capacity := by
  unfold Console.readLine
  split
  · exact ⟨rfl, rfl⟩
  · exact ⟨rfl, rfl⟩

theorem checkPatience_endless {m : Machine} (endless : m.patience.checks = none) :
    checkPatience m = .ok () m := by
  rw [checkPatience_run, endless]

theorem Bond.resumed_check (earlier : Bytes) :
    (Bond.resumed earlier).Mimics checkPatience checkPatience := by
  refine ⟨fun _ => trivial, ?_⟩
  intro m n joined
  rw [checkPatience_endless joined.beside.patient.1, checkPatience_endless joined.beside.patient.2]
  exact .ok () joined

def resuming (earlier : Bytes) : Coupling where
  toBond := .resumed earlier
  onward_refl _ := trivial
  onward_trans _ _ _ _ _ := trivial
  ahead _ _ _ _ stopped _ := stopped
  retold _ _ _ _ _ stopped _ := stopped
  shared_raise := by
    rintro fault _ ⟨⟩
    rfl
  shared_within := by
    rintro f h inv known _ ⟨⟩
    exact known f rfl
  shared_crashed := by
    rintro _ ⟨⟩
  record _ _ _ beside := ⟨beside.input, beside.breaks, beside.roomy, beside.output, beside.patient⟩
  record_onward _ _ := trivial
  read o p beside := by
    obtain ⟨line, input⟩ := Console.readLine_same beside.input beside.breaks
    obtain ⟨breaks, capacity⟩ := o.console.readLine_rest
    obtain ⟨breaks', capacity'⟩ := p.console.readLine_rest
    refine ⟨line, input, ?_, ?_, ?_, beside.patient⟩
    · rw [breaks, breaks', beside.breaks]
    · rw [capacity, capacity']
      exact beside.roomy
    · rw [Console.output_readLine, Console.output_readLine]
      exact beside.output
  read_onward _ := trivial
  write text o p beside := by
    have first := Console.write?_roomy beside.roomy.1 text
    have second := Console.write?_roomy beside.roomy.2 text
    refine Or.inr ⟨_, _, first, second, beside.input, beside.breaks, beside.roomy, ?_,
      beside.patient⟩
    rw [Console.output_write? first, Console.output_write? second, beside.output, List.append_assoc]
  write_onward _ _ _ _ := trivial
  check := Bond.resumed_check earlier

theorem resuming_recordIf (earlier : Bytes) (traced traced' : Bool) (entry : LogEntry) :
    (resuming earlier).Mimics (recordIf traced entry) (recordIf traced' entry) := by
  have recorded : ∀ (traced : Bool) (m : Machine), ∃ log, recordIf traced entry m =
      .ok () { m with log } := by
    intro traced m
    cases traced with
    | true => exact ⟨_, rfl⟩
    | false => exact ⟨m.log, rfl⟩
  refine ⟨fun _ => trivial, ?_⟩
  intro m n ⟨alike, beside⟩
  obtain ⟨log, left⟩ := recorded traced m
  obtain ⟨log', right⟩ := recorded traced' n
  rw [left, right]
  exact .ok () ⟨⟨alike.heap, alike.registry, alike.scope⟩,
    beside.input, beside.breaks, beside.roomy, beside.output, beside.patient⟩

theorem resuming_fits (earlier : Bytes) {s t : Settings} (limit : s.depthLimit = t.depthLimit) :
    (resuming earlier).Fits s t :=
  ⟨resuming_recordIf earlier s.trace t.trace, Or.inl limit⟩

def Stop.Unnumbered (stop : Stop) : Prop := ∀ f, stop = .failed f → f.statement = none

/-- A program stops like one of its statements, with the number of that statement in front. -/
structure Stop.Numbers (stop : Stop) (number : Nat) (e : Stop) : Prop where
  unnumbered : stop.Unnumbered
  numbered : e = stop.numbered number
  text : ∀ f, stop = .failed f → (LineError.run e).text =
    utf8 "statement " ++ Bytes.decimal number ++ utf8 ": " ++ (LineError.run stop).text

theorem Stop.Unnumbered.numbers {stop : Stop} (unnumbered : stop.Unnumbered) (number : Nat) :
    stop.Numbers number (stop.numbered number) := by
  refine ⟨unnumbered, rfl, ?_⟩
  rintro f rfl
  have none : f.statement = none := unnumbered f rfl
  simp [numbered, LineError.text, Failure.text, Failure.coreText, none]

namespace Interpreter

theorem statements_append (s : Settings) (fuel number : Nat) (p q : Program) :
    statements s fuel number (p ++ q) =
      (statements s fuel number p >>= fun _ => statements s fuel (number + p.length) q) := by
  induction p generalizing number with
  | nil => rfl
  | cons inv rest ih =>
    have count : number + (inv :: rest).length = number + 1 + rest.length := by
      rw [List.length_cons]
      omega
    rw [count]
    simp only [List.cons_append, statements, ih (number + 1), bind_assoc]

def begun (i : Interpreter) (p : Program) : Machine :=
  { i.machine with patience := .endless, log := .executing p.length :: i.machine.log }

theorem execute_eq (i : Interpreter) (fuel : Nat) (p : Program) :
    i.execute fuel .endless p = match statements i.settings fuel 1 p (i.begun p) with
      | .ok a m => (.ok a, { i with machine := { m with patience := .endless } })
      | .error e m => (.error e, { i with machine := { m with patience := .endless } }) := by
  have recorded : program i.settings fuel p { i.machine with patience := .endless } =
      statements i.settings fuel 1 p (i.begun p) := bind_ok rfl _
  rw [execute, run_eq, recorded]
  cases statements i.settings fuel 1 p (i.begun p) with
  | ok a m => rfl
  | error e m => rfl

end Interpreter

namespace Session

open Interpreter (statements)

inductive Follows (earlier : Bytes) :
    EStateM.Result Stop Machine (Option CellId) → EStateM.Result Stop Machine Unit → Prop where
  | noFuel (r : EStateM.Result Stop Machine (Option CellId)) (n : Machine) :
    Follows earlier r (.error .outOfFuel n)
  | ok (last : Option CellId) {m n : Machine} (joined : (resuming earlier).Joined m n) :
    Follows earlier (.ok last m) (.ok () n)
  | error (number : Nat) {stop : Stop} {m n : Machine} (unnumbered : stop.Unnumbered)
    (output : n.console.output = earlier ++ m.console.output) :
    Follows earlier (.error stop m) (.error (stop.numbered number) n)

theorem follows_evaluateAll {s t : Settings} (limit : s.depthLimit = t.depthLimit) {more less : Nat}
    (le : less ≤ more) {earlier : Bytes} (p : Program) (number : Nat) (last : Option CellId)
    {m n : Machine} (joined : (resuming earlier).Joined m n) :
    Follows earlier (evaluateAll s more last p m) (statements t less number p n) := by
  induction p generalizing number last m n with
  | nil => exact .ok last joined
  | cons inv rest ih =>
    -- Both hosts are asked before the statement, and are patient.
    have single : Interpreter.single s more inv m = evaluate s more 0 inv m :=
      bind_ok (checkPatience_endless joined.beside.patient.1) _
    have agrees :=
      (Coupling.mimics_evaluate (resuming_fits earlier limit) le 0 inv).agrees m n joined
    rw [statements, bind_ok (checkPatience_endless joined.beside.patient.2), evaluateAll]
    rw [← single] at agrees
    generalize left : Interpreter.single s more inv m = r at agrees
    generalize right : evaluate t less 0 inv n = r' at agrees
    cases agrees with
    | noFuel r k =>
      obtain ⟨log, told⟩ := Interpreter.inStatement_error number right
      rw [bind_error told]
      exact .noFuel _ _
    | ok c joined' =>
      rw [bind_ok left, bind_ok (Interpreter.inStatement_ok number right)]
      exact ih (number + 1) (some c) joined'
    | error shared joined' =>
      obtain ⟨log, told⟩ := Interpreter.inStatement_error number right
      rw [bind_error left, bind_error told]
      exact .error number shared joined'.beside.output
    | stoppedOk a stopped => exact stopped.elim
    | stoppedError e stopped => exact stopped.elim

/-- The interpreter of a session that has been given the first statements of a program, beside the
machine that runs it whole. -/
structure Abreast (i : Interpreter) (limit : Option Nat) (n : Machine) : Prop where
  alike : i.machine.Alike n
  limit : i.settings.depthLimit = limit
  input : i.machine.console.input = n.console.input
  breaks : i.machine.console.inputBreaks = n.console.inputBreaks
  roomy : i.machine.console.capacity = none ∧ n.console.capacity = none
  patient : n.patience.checks = none

def ready (i : Interpreter) : Machine := { (clearOutput i).machine with patience := .endless }

theorem Abreast.joined {i : Interpreter} {limit : Option Nat} {n : Machine}
    (abreast : Abreast i limit n) :
    (resuming n.console.output).Joined (ready i) n :=
  ⟨⟨abreast.alike.heap, abreast.alike.registry, abreast.alike.scope⟩,
    abreast.input, abreast.breaks, abreast.roomy, (List.append_nil _).symm, rfl, abreast.patient⟩

theorem runProgram_eq (s : Session) (fuel : Nat) (p : Program) :
    s.runProgram fuel .endless p =
      match evaluateAll s.interpreter.settings fuel none p (ready s.interpreter) with
      | .ok last m => (⟨m.console.output, shownValue m.heap last, none, false⟩,
          { s with
            interpreter := { s.interpreter with machine := { m with patience := .endless } } })
      | .error stop m => (⟨m.console.output, [], some (.run stop), false⟩,
          let i := { s.interpreter with machine := { m with patience := .endless } }
          { s with interpreter := recordFailure i (.run stop) }) := by
  have settings : (clearOutput s.interpreter).settings = s.interpreter.settings := rfl
  have machine : { (clearOutput s.interpreter).machine with patience := .endless } =
      ready s.interpreter := rfl
  unfold runProgram
  rw [Interpreter.run_eq, settings, machine]
  cases evaluateAll s.interpreter.settings fuel none p (ready s.interpreter) with
  | ok last m => rfl
  | error stop m => rfl

def feed (s : Session) (fuel : Nat) : List Bytes → List LineResult × Session
  | [] => ([], s)
  | line :: rest =>
    let (result, s') := s.eval fuel .endless line
    let (results, s'') := s'.feed fuel rest
    (result :: results, s'')

theorem feed_cons (s : Session) (fuel : Nat) (line : Bytes) (rest : List Bytes) :
    s.feed fuel (line :: rest) =
      ((s.eval fuel .endless line).1 :: ((s.eval fuel .endless line).2.feed fuel rest).1,
        ((s.eval fuel .endless line).2.feed fuel rest).2) := rfl

theorem eval_run {s : Session} {line : Bytes} {p : Program} (fuel : Nat)
    (word : isIdentifier (s.pending ++ line).trim = false)
    (parsed : Program.parse (s.pending ++ line) = .ok p) :
    s.eval fuel .endless line = { s with pending := [] }.runProgram fuel .endless p := by
  simp [eval, word, parsed]

theorem eval_keep {s : Session} {line : Bytes} {e : ParseError} (fuel : Nat)
    (word : isIdentifier (s.pending ++ line).trim = false)
    (parsed : Program.parse (s.pending ++ line) = .error e) (incomplete : e.incomplete = true) :
    s.eval fuel .endless line =
      (.unfinished, { s with pending := s.pending ++ line ++ [Bytes.newline] }) := by
  simp [eval, word, parsed, incomplete]

theorem eval_ok {s : Session} {t : Settings} {n n' : Machine}
    (abreast : Abreast s.interpreter t.depthLimit n)
    {more less : Nat} (le : less ≤ more) {line : Bytes} {p : Program}
    (word : isIdentifier (s.pending ++ line).trim = false)
    (parsed : Program.parse (s.pending ++ line) = .ok p)
    {number : Nat} (ran : statements t less number p n = .ok () n') :
    ∃ r s', s.eval more .endless line = (r, s') ∧ r.error = none ∧ r.incomplete = false ∧
      n'.console.output = n.console.output ++ r.output ∧ s'.pending = [] ∧
      Abreast s'.interpreter t.depthLimit n' := by
  have follows := follows_evaluateAll abreast.limit le p number none abreast.joined
  rw [ran] at follows
  rw [eval_run more word parsed, runProgram_eq]
  generalize evaluateAll s.interpreter.settings more none p (ready s.interpreter) = r at follows
  cases follows with
  | ok last joined =>
    obtain ⟨alike, input, breaks, roomy, output, patient⟩ := joined
    exact ⟨_, _, rfl, rfl, rfl, output, rfl,
      ⟨alike.heap, alike.registry, alike.scope⟩, abreast.limit, input, breaks, roomy, patient.2⟩

theorem eval_error {s : Session} {t : Settings} {n n' : Machine}
    (abreast : Abreast s.interpreter t.depthLimit n)
    {more less : Nat} (le : less ≤ more) {line : Bytes} {p : Program}
    (word : isIdentifier (s.pending ++ line).trim = false)
    (parsed : Program.parse (s.pending ++ line) = .ok p)
    {number : Nat} {e : Stop} (ran : statements t less number p n = .error e n')
    (fueled : e ≠ .outOfFuel) :
    ∃ r s' stop failed, s.eval more .endless line = (r, s') ∧ r.error = some (.run stop) ∧
      stop.Unnumbered ∧
      e = stop.numbered failed ∧ n'.console.output = n.console.output ++ r.output := by
  have follows := follows_evaluateAll abreast.limit le p number none abreast.joined
  rw [ran] at follows
  rw [eval_run more word parsed, runProgram_eq]
  generalize evaluateAll s.interpreter.settings more none p (ready s.interpreter) = r at follows
  cases follows with
  | noFuel _ _ => exact absurd rfl fueled
  | error failed unnumbered output => exact ⟨_, _, _, failed, rfl, rfl, unnumbered, rfl, output⟩

structure Succeed (results : List LineResult) (output : Bytes) : Prop where
  errorless : ∀ r ∈ results, r.error = none
  complete : ∃ r, results.getLast? = some r ∧ r.incomplete = false
  output : (results.map LineResult.output).flatten = output

/-- The first line that reports an error reports why a program stopped, but for the number of the
statement; the lines up to it have the given output. -/
def FailWith (results : List LineResult) (e : Stop) (output : Bytes) : Prop :=
  ∃ before r after stop number, results = before ++ r :: after ∧ (∀ q ∈ before, q.error = none) ∧
    r.error = some (.run stop) ∧ stop.Numbers number e ∧
    ((before ++ [r]).map LineResult.output).flatten = output

theorem Succeed.single {r : LineResult} (errorless : r.error = none)
    (complete : r.incomplete = false) :
    Succeed [r] r.output :=
  ⟨by simpa using errorless, ⟨r, rfl, complete⟩, by simp⟩

theorem Succeed.cons {r : LineResult} {results : List LineResult} {output : Bytes}
    (errorless : r.error = none) (later : Succeed results output) :
    Succeed (r :: results) (r.output ++ output) := by
  obtain ⟨last, isLast, complete⟩ := later.complete
  refine ⟨?_, ⟨last, ?_, complete⟩, ?_⟩
  · simpa using ⟨errorless, later.errorless⟩
  · rw [List.getLast?_cons, isLast]
    rfl
  · simp [later.output]

theorem FailWith.here {r : LineResult} {stop : Stop} (failed : r.error = some (.run stop))
    (unnumbered : stop.Unnumbered) (number : Nat) (after : List LineResult) :
    FailWith (r :: after) (stop.numbered number) r.output :=
  ⟨[], r, after, stop, number, rfl, by simp, failed, unnumbered.numbers number, by simp⟩

theorem FailWith.cons {r : LineResult} {results : List LineResult} {e : Stop} {output : Bytes}
    (errorless : r.error = none) (later : FailWith results e output) :
    FailWith (r :: results) e (r.output ++ output) := by
  obtain ⟨before, q, after, stop, number, rfl, none, failed, numbers, rfl⟩ := later
  refine ⟨r :: before, q, after, stop, number, rfl, ?_, failed, numbers, ?_⟩
  · simpa using ⟨errorless, none⟩
  · simp

section

variable {t : Settings} {more less : Nat} (le : less ≤ more) {pending : Bytes} {lines : List Bytes}
  {p : Program}
include le

theorem feed_ok (taken : Taken pending lines p) {s : Session} (kept : s.pending = pending)
    {n n' : Machine} (abreast : Abreast s.interpreter t.depthLimit n) {number : Nat}
    (ran : statements t less number p n = .ok () n') :
    ∃ output, Succeed (s.feed more lines).1 output ∧
      n'.console.output = n.console.output ++ output ∧
      Abreast (s.feed more lines).2.interpreter t.depthLimit n' := by
  induction taken generalizing s n number with
  | last word parsed =>
    subst kept
    obtain ⟨r, s', result, errorless, complete, written, -, abreast'⟩ :=
      eval_ok abreast le word parsed ran
    rw [feed_cons, result]
    exact ⟨r.output, .single errorless complete, written, abreast'⟩
  | @run _ _ _ first _ word parsed later ih =>
    subst kept
    rw [Interpreter.statements_append] at ran
    cases start : statements t less number first n with
    | error e k =>
      rw [bind_error start] at ran
      cases ran
    | ok _ k =>
      rw [bind_ok start] at ran
      obtain ⟨r, s', result, errorless, -, written, empty, abreast'⟩ :=
        eval_ok abreast le word parsed start
      obtain ⟨output, succeed, written', abreast''⟩ := ih empty abreast' ran
      rw [feed_cons, result]
      refine ⟨r.output ++ output, succeed.cons errorless, ?_, abreast''⟩
      rw [written', written, List.append_assoc]
  | @keep _ line _ _ _ word parsed incomplete later ih =>
    -- Nothing is run; only the text that is kept grows.
    subst kept
    rw [feed_cons, eval_keep more word parsed incomplete]
    obtain ⟨output, succeed, written, abreast'⟩ :=
      @ih { s with pending := s.pending ++ line ++ [Bytes.newline] } rfl _ abreast _ ran
    exact ⟨output, succeed.cons rfl, written, abreast'⟩

theorem feed_error (taken : Taken pending lines p) {s : Session} (kept : s.pending = pending)
    {n n' : Machine} (abreast : Abreast s.interpreter t.depthLimit n) {number : Nat} {e : Stop}
    (ran : statements t less number p n = .error e n') (fueled : e ≠ .outOfFuel) :
    ∃ output, FailWith (s.feed more lines).1 e output ∧
      n'.console.output = n.console.output ++ output := by
  induction taken generalizing s n number with
  | last word parsed =>
    subst kept
    obtain ⟨r, s', stop, failed, result, reported, unnumbered, rfl, written⟩ :=
      eval_error abreast le word parsed ran fueled
    rw [feed_cons, result]
    exact ⟨r.output, .here reported unnumbered failed _, written⟩
  | @run _ _ _ first _ word parsed later ih =>
    subst kept
    rw [Interpreter.statements_append] at ran
    cases start : statements t less number first n with
    | error _ k =>
      -- This line is the first to report an error, whatever the session does with the later ones.
      rw [bind_error start] at ran
      cases ran
      obtain ⟨r, s', stop, failed, result, reported, unnumbered, rfl, written⟩ :=
        eval_error abreast le word parsed start fueled
      rw [feed_cons, result]
      exact ⟨r.output, .here reported unnumbered failed _, written⟩
    | ok _ k =>
      rw [bind_ok start] at ran
      obtain ⟨r, s', result, errorless, -, written, empty, abreast'⟩ :=
        eval_ok abreast le word parsed start
      obtain ⟨output, fail, written'⟩ := ih empty abreast' ran
      rw [feed_cons, result]
      refine ⟨r.output ++ output, fail.cons errorless, ?_⟩
      rw [written', written, List.append_assoc]
  | @keep _ line _ _ _ word parsed incomplete later ih =>
    subst kept
    rw [feed_cons, eval_keep more word parsed incomplete]
    obtain ⟨output, fail, written⟩ :=
      @ih { s with pending := s.pending ++ line ++ [Bytes.newline] } rfl _ abreast _ ran
    exact ⟨output, fail.cons rfl, written⟩

end

theorem abreast_new (options : SessionOptions) (trace : Bool) (p : Program) :
    Abreast (Session.new options).interpreter (depthLimitOf options.maxDepth)
      ((Interpreter.new options.maxDepth trace (.ofInput [])).begun p) :=
  ⟨⟨rfl, rfl, rfl⟩, rfl, rfl, rfl, ⟨rfl, rfl⟩, rfl⟩

/-- A session that is given an accepted text line by line does what an interpreter does that
executes the whole text, whenever that comes to an end. -/
theorem line_by_line_is_whole (options : SessionOptions) (trace : Bool) {text : Bytes} {p : Program}
    (parsed : Program.parse text = .ok p) {result : Except Stop Unit} {i : Interpreter}
    (ends : Interpreter.Ends
      (fun fuel => (Interpreter.new options.maxDepth trace (.ofInput [])).execute fuel .endless p)
        result i) :
    ∃ enough, ∀ fuel, enough ≤ fuel →
      let fed := (Session.new options).feed fuel (Bytes.splitAt Bytes.newline text)
      (result = .ok () →
        Succeed fed.1 i.machine.console.output ∧ fed.2.interpreter.machine.Alike i.machine) ∧
      ∀ e, result = .error e → FailWith fed.1 e i.machine.console.output := by
  obtain ⟨enough, ran, fueled⟩ := ends
  refine ⟨enough, ?_⟩
  intro fuel le fed
  have taken := taken_of_parse parsed
  have abreast := abreast_new options trace p
  dsimp only at ran
  rw [Interpreter.execute_eq] at ran
  cases whole :
    statements _ enough 1 p ((Interpreter.new options.maxDepth trace (.ofInput [])).begun p) with
  | ok _ n =>
    rw [whole] at ran
    cases ran
    obtain ⟨output, succeed, written, abreast'⟩ := feed_ok le taken rfl abreast whole
    refine ⟨fun _ => ⟨?_, abreast'.alike.heap, abreast'.alike.registry, abreast'.alike.scope⟩,
      nofun⟩
    have same : n.console.output = output := written
    rw [same]
    exact succeed
  | error e n =>
    rw [whole] at ran
    cases ran
    obtain ⟨output, fail, written⟩ :=
      feed_error le taken rfl abreast whole (fun out => fueled (by rw [out]))
    refine ⟨nofun, ?_⟩
    rintro _ ⟨⟩
    have same : n.console.output = output := written
    rw [same]
    exact fail

def printOverLines : Bytes := utf8 "print(\n\"a\nb\",\n\n\"c\")\nprint(\"d\")"

def printTwice : Program :=
  [⟨utf8 "print", [.literal (.string (utf8 "a\nb")), .literal (.string (utf8 "c"))]⟩,
    ⟨utf8 "print", [.literal (.string (utf8 "d"))]⟩]

theorem printTwice_ends : ∃ i, i.machine.console.output = utf8 "a\nb cd" ∧
    Interpreter.Ends
      (fun fuel => (Interpreter.new 0 false (.ofInput [])).execute fuel .endless printTwice)
      (.ok ()) i := by
  have ran : ((Interpreter.new 0 false (.ofInput [])).execute 3 .endless printTwice).1.toBool =
      true := by
    decide +kernel
  refine ⟨((Interpreter.new 0 false (.ofInput [])).execute 3 .endless printTwice).2, by
    decide +kernel, 3, ?_, nofun⟩
  dsimp only
  generalize (Interpreter.new 0 false (.ofInput [])).execute 3 .endless printTwice = whole at ran
  obtain ⟨result, i⟩ := whole
  cases result with
  | ok _ => rfl
  | error e => cases ran

theorem line_by_line_is_whole_print :
    Program.parse printOverLines = .ok printTwice ∧ ∃ enough, ∀ fuel, enough ≤ fuel →
      Succeed ((Session.new ⟨[], [], [], [], [], 0, 0, false⟩).feed fuel
        (Bytes.splitAt Bytes.newline printOverLines)).1 (utf8 "a\nb cd") := by
  have parsed : Program.parse printOverLines = .ok printTwice := rfl
  obtain ⟨i, output, ends⟩ := printTwice_ends
  obtain ⟨enough, same⟩ := line_by_line_is_whole ⟨[], [], [], [], [], 0, 0, false⟩ false parsed ends
  rw [output] at same
  exact ⟨parsed, enough, fun fuel le => ((same fuel le).1 rfl).1⟩

end Session

end CallScript
