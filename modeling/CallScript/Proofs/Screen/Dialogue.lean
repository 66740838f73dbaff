import CallScript.Screen.Basic
import CallScript.Proofs.Session.Continuation

/- A screen with the evaluations it has started. Messages come in any order; an evaluation ends at
   any time after it was started, and its result is delivered at any time after that. In whatever
   order this happens, at most one evaluation is under way, and the flags of the screen tell whether
   there is one and whether the session keeps unfinished input. -/
namespace CallScript

namespace Screen

structure Flags where
  busy : Bool
  cancellable : Bool
  continuing : Bool
  pending : Bytes

def flags (s : Screen) : Flags := ⟨s.busy, s.cancel.isSome, s.continuing, s.session.pending⟩

/-- What a message that is no result can do to the flags, with the command that the screen then asks
for. -/
inductive Moves (s : Screen) : Screen → Option Command → Prop where
  | kept {t : Screen} {command : Option Command} (flags : t.flags = s.flags)
    (other : ∀ line, command ≠ some (.evaluate line)) : Moves s t command
  | dropped {t : Screen} (idle : s.busy = false)
    (flags : t.flags = { s.flags with continuing := false, pending := [] }) : Moves s t none
  | started {t : Screen} {line : Bytes} (idle : s.busy = false)
    (flags : t.flags = { s.flags with busy := true, cancellable := true }) :
      Moves s t (some (.evaluate line))

def taken (s : Screen) : Screen :=
  { s with buffer := [], cursor := 0 }.append ⟨if s.continuing then .continuation else .command,
    s.buffer, false⟩

def recorded (s : Screen) : Screen :=
  { s.taken with session := s.session.addToHistory s.buffer.trim }

/-- A blank line that continues nothing is only shown. Any other is recorded, and then either it is
a command of the screen or its evaluation is started. -/
theorem submit_cases (s : Screen) :
    (s.buffer.trim = [] ∧ s.submit = (s.taken, none)) ∨
      (s.buffer.trim ≠ [] ∧ ∃ quitting command, s.submit = ({ s.recorded with quitting }, command) ∧
        ∀ line, command ≠ some (.evaluate line)) ∨
      s.submit = s.recorded.startEvaluation s.buffer := by
  have unfolded : s.submit =
      if s.buffer.trim.isEmpty && !s.continuing then (s.taken, none)
      else if s.continuing then s.recorded.startEvaluation s.buffer
      else if s.buffer.trim = utf8 "exit" || s.buffer.trim = utf8 "quit" then
        ({ s.recorded with quitting := true }, some .quit)
      else if s.buffer.trim = utf8 "help" then (s.recorded, some (.print Session.helpText))
      else if s.buffer.trim =
        utf8 "vars" then (s.recorded, some (.print s.recorded.session.variablesText))
      else if s.buffer.trim =
        utf8 "funcs" then (s.recorded, some (.print s.recorded.session.functionsText))
      else s.recorded.startEvaluation s.buffer := rfl
  rw [unfolded]
  by_cases blank : s.buffer.trim = []
  · by_cases continuing : s.continuing = true
    · simp [blank, continuing]
    · simp [blank, continuing]
  · simp only [List.isEmpty_eq_false_iff.mpr blank, Bool.false_and, Bool.false_eq_true, if_false]
    right
    split
    · exact Or.inr rfl
    · split
      · exact Or.inl ⟨blank, _, _, rfl, by simp⟩
      · split
        · exact Or.inl ⟨blank, s.recorded.quitting, _, rfl, by simp⟩
        · split
          · exact Or.inl ⟨blank, s.recorded.quitting, _, rfl, by simp⟩
          · split
            · exact Or.inl ⟨blank, s.recorded.quitting, _, rfl, by simp⟩
            · exact Or.inr rfl

theorem moves_submit {s : Screen} (idle : s.busy = false) : Moves s s.submit.1 s.submit.2 := by
  rcases s.submit_cases with ⟨-, same⟩ | ⟨-, quitting, command, same, other⟩ | same
  · rw [same]
    exact .kept rfl (by simp)
  · rw [same]
    exact .kept rfl other
  · rw [same]
    exact .started idle rfl

theorem moves_interrupt (s : Screen) : Moves s s.interrupt none := by
  unfold interrupt
  split
  · refine .kept ?_ (by simp)
    simp [flags]
  · rename_i idle
    apply Moves.dropped (by simpa using idle)
    dsimp only
    split
    · rfl
    · rfl

theorem flags_browseUp (s : Screen) : s.browseUp.flags = s.flags := by
  unfold browseUp
  dsimp only
  split
  · rfl
  · rfl

theorem flags_browseDown (s : Screen) : s.browseDown.flags = s.flags := by
  unfold browseDown
  split
  · rfl
  · rfl

theorem flags_backspace (s : Screen) : s.backspace.flags = s.flags := by
  unfold backspace
  split
  · rfl
  · rfl

theorem moves_edit {s : Screen} (idle : s.busy = false) (key : Key) :
    Moves s (s.edit key).1 (s.edit key).2 := by
  cases key with
  | enter => exact moves_submit idle
  | backspace => exact .kept s.flags_backspace (by simp [edit])
  | up => exact .kept s.flags_browseUp (by simp [edit])
  | down => exact .kept s.flags_browseDown (by simp [edit])
  | _ => exact .kept rfl (by simp [edit])

theorem moves_pressKey (s : Screen) (key : Key) :
    Moves s (s.pressKey key).1 (s.pressKey key).2 := by
  have edited : Moves s (if s.busy then (s, none) else s.edit key).1
      (if s.busy then (s, none) else s.edit key).2 := by
    split
    · exact .kept rfl (by simp)
    · rename_i idle
      exact moves_edit (by simpa using idle) key
  cases key with
  | interrupt => exact s.moves_interrupt
  | leave =>
    refine .kept ?_ (by simp [pressKey])
    simp [pressKey, flags]
  | pageUp => exact .kept rfl (by simp [pressKey])
  | pageDown => exact .kept rfl (by simp [pressKey])
  | _ => exact edited

theorem moves_update (s : Screen) {m : Message} (other : ∀ r, m ≠ .evaluated r) :
    Moves s (s.update m).1 (s.update m).2 := by
  cases m with
  | key key => exact s.moves_pressKey key
  | typed text =>
    simp only [update]
    split
    · exact .kept rfl (by simp)
    · exact .kept rfl (by simp)
  | evaluated r => exact absurd rfl (other r)
  | _ => exact .kept rfl (by simp [update])

def InLine (s : Screen) : Prop := s.cursor ≤ s.buffer.length

theorem inLine_setBuffer (s : Screen) (text : Bytes) : (s.setBuffer text).InLine := Nat.le_refl _

theorem InLine.insert {s : Screen} (inside : s.InLine) (text : Bytes) : (s.insert text).InLine := by
  simp only [InLine, Screen.insert, List.length_append, List.length_take,
    List.length_drop] at inside ⊢
  omega

theorem InLine.backspace {s : Screen} (inside : s.InLine) : s.backspace.InLine := by
  unfold Screen.backspace
  split
  · simp only [InLine, List.length_append, List.length_take, List.length_drop] at inside ⊢
    omega
  · exact inside

theorem InLine.browseUp {s : Screen} (inside : s.InLine) : s.browseUp.InLine := by
  unfold Screen.browseUp
  dsimp only
  split
  · exact inLine_setBuffer _ _
  · exact inside

theorem InLine.browseDown {s : Screen} (inside : s.InLine) : s.browseDown.InLine := by
  unfold Screen.browseDown
  split
  · exact inLine_setBuffer _ _
  · exact inside

theorem submit_empty (s : Screen) : s.submit.1.buffer = [] ∧ s.submit.1.cursor = 0 := by
  rcases s.submit_cases with ⟨-, same⟩ | ⟨-, quitting, command, same, -⟩ | same
  · exact same ▸ ⟨rfl, rfl⟩
  · exact same ▸ ⟨rfl, rfl⟩
  · exact same ▸ ⟨rfl, rfl⟩

theorem interrupt_empty {s : Screen} (idle : s.busy = false) :
    s.interrupt.buffer = [] ∧ s.interrupt.cursor = 0 := by
  simp [interrupt, idle]

theorem InLine.interrupt {s : Screen} (inside : s.InLine) : s.interrupt.InLine := by
  by_cases busy : s.busy = true
  · unfold Screen.interrupt
    rw [if_pos busy]
    exact inside
  · simp [InLine, interrupt_empty (Bool.eq_false_iff.mpr busy)]

theorem InLine.edit {s : Screen} (inside : s.InLine) (key : Key) : (s.edit key).1.InLine := by
  cases key with
  | enter => simp [InLine, Screen.edit, s.submit_empty]
  | backspace => exact inside.backspace
  | left => exact Nat.le_trans (Nat.sub_le _ _) inside
  | right => exact Nat.min_le_right _ _
  | up => exact inside.browseUp
  | down => exact inside.browseDown
  | space => exact inside.insert _
  | _ => exact inside

theorem InLine.pressKey {s : Screen} (inside : s.InLine) (key : Key) :
    (s.pressKey key).1.InLine := by
  have edited : (if s.busy then (s, none) else s.edit key).1.InLine := by
    split
    · exact inside
    · exact inside.edit key
  cases key with
  | interrupt => exact inside.interrupt
  | leave => exact inside
  | pageUp => exact inside
  | pageDown => exact inside
  | _ => exact edited

theorem InLine.update {s : Screen} (inside : s.InLine) (m : Message) : (s.update m).1.InLine := by
  cases m with
  | key key => exact inside.pressKey key
  | typed text =>
    simp only [Screen.update]
    split
    · exact inside
    · exact inside.insert _
  | _ => exact inside

end Screen

def Message.IsKey : Message → Prop
  | .key _ | .typed _ => True
  | _ => False

/-- While an evaluation is under way, a key reaches neither the editor nor the session. -/
theorem Screen.update_busy {s : Screen} (busy : s.busy = true) {m : Message} (key : m.IsKey) :
    (s.update m).1.buffer = s.buffer ∧ (s.update m).1.cursor = s.cursor ∧
      (s.update m).1.session = s.session := by
  cases m with
  | key pressed =>
    cases pressed with
    | interrupt => simp [update, pressKey, interrupt, busy]
    | leave => exact ⟨rfl, rfl, rfl⟩
    | pageUp => exact ⟨rfl, rfl, rfl⟩
    | pageDown => exact ⟨rfl, rfl, rfl⟩
    | _ => simp [update, pressKey, busy]
  | typed text => simp [update, busy]
  | _ => cases key

theorem Session.eval_pending (s : Session) (fuel : Nat) (patience : Patience) (line : Bytes) :
    (s.eval fuel patience line).1.incomplete = !(s.eval fuel patience line).2.pending.isEmpty := by
  cases incomplete : (s.eval fuel patience line).1.incomplete with
  | true =>
    obtain ⟨_, _, _, kept⟩ := eval_incomplete incomplete
    rw [kept]
    simp
  | false =>
    have dropped : (s.eval fuel patience line).2.pending = [] := by
      simp only [eval] at incomplete ⊢
      split
      · rfl
      · rename_i word
        rw [if_neg word] at incomplete
        split
        · simp only [runProgram]
          split
          · rfl
          · rfl
        · rename_i parsed
          simp only [parsed] at incomplete
          split
          · rename_i lacks
            rw [if_pos lacks] at incomplete
            cases incomplete
          · rfl
    simp [dropped]

/-- A screen between two messages, with the lines whose evaluation has not ended and the results
that have not been delivered. -/
structure Dialogue where
  screen : Screen
  running : List Bytes
  results : List LineResult

namespace Dialogue

def new (options : SessionOptions) : Dialogue := ⟨.new options, [], []⟩

def underway (d : Dialogue) : Nat := d.running.length + d.results.length

def startedBy : Option Command → List Bytes
  | some (.evaluate line) => [line]
  | _ => []

def receive (d : Dialogue) (m : Message) : Dialogue :=
  { d with
    screen := (d.screen.update m).1, running := d.running ++ startedBy (d.screen.update m).2 }

inductive Step : Dialogue → Dialogue → Prop where
  | message (d : Dialogue) {m : Message} (other : ∀ r, m ≠ .evaluated r) : Step d (d.receive m)
  /-- An evaluation ends. It may have been cancelled at any of its checks. -/
  | finish (d : Dialogue) {before after : List Bytes} {line : Bytes}
      (running : d.running = before ++ line :: after)
    (fuel : Nat) (patience : Patience) :
    Step d ⟨{ d.screen with session := (d.screen.session.eval fuel patience line).2 },
      before ++ after, (d.screen.session.eval fuel patience line).1 :: d.results⟩
  | deliver (d : Dialogue) {before after : List LineResult} {r : LineResult}
    (results : d.results = before ++ r :: after) :
    Step d { d.receive (.evaluated r) with results := before ++ after }

inductive Reached (options : SessionOptions) : Dialogue → Prop where
  | new : Reached options (new options)
  | next {d e : Dialogue} (reached : Reached options d) (step : Step d e) : Reached options e

structure Consistent (d : Dialogue) : Prop where
  cursor : d.screen.InLine
  busy : d.underway = d.screen.busy.toNat
  cancel : d.screen.cancel.isSome = d.screen.busy
  /-- A result says what the session has kept since it was made. -/
  told : ∀ r ∈ d.results, r.incomplete = !d.screen.session.pending.isEmpty
  idle : d.screen.busy = false → d.screen.continuing = !d.screen.session.pending.isEmpty

theorem consistent_new (options : SessionOptions) : (new options).Consistent :=
  ⟨Nat.le_refl _, rfl, rfl, by simp [new], fun _ => rfl⟩

namespace Consistent

variable {d : Dialogue} (consistent : d.Consistent)
include consistent

theorem nothing_underway (idle : d.screen.busy = false) : d.running = [] ∧ d.results = [] := by
  have none := consistent.busy
  simp only [underway, idle, Bool.toNat_false, Nat.add_eq_zero_iff, List.length_eq_zero_iff] at none
  exact none

theorem message {m : Message} (other : ∀ r, m ≠ .evaluated r) : (d.receive m).Consistent := by
  have inside : (d.receive m).screen.InLine := consistent.cursor.update m
  have nothing := consistent.nothing_underway
  obtain ⟨-, busy, cancel, told, idle⟩ := consistent
  have moves := d.screen.moves_update other
  -- What the message does to the flags is all that counts.
  generalize running : startedBy (d.screen.update m).2 = more
  have received : d.receive m = ⟨(d.screen.update m).1, d.running ++ more, d.results⟩ := by
    rw [receive, running]
  rw [received] at inside ⊢
  generalize (d.screen.update m).1 = t at *
  generalize (d.screen.update m).2 = command at *
  cases moves with
  | kept flags other =>
    have none : more = [] := by
      rw [← running]
      unfold startedBy
      split
      · rename_i line
        exact absurd rfl (other line)
      · rfl
    simp only [Screen.flags, Screen.Flags.mk.injEq] at flags
    obtain ⟨sameBusy, sameCancel, sameContinuing, samePending⟩ := flags
    refine ⟨inside, ?_, ?_, ?_, ?_⟩
    · simpa [underway, none, sameBusy] using busy
    · rw [sameCancel, sameBusy, cancel]
    · simpa only [samePending] using told
    · simpa only [sameBusy, sameContinuing, samePending] using idle
  | dropped free flags =>
    obtain ⟨stopped, delivered⟩ := nothing free
    simp only [Screen.flags, Screen.Flags.mk.injEq] at flags
    obtain ⟨sameBusy, sameCancel, sameContinuing, samePending⟩ := flags
    refine ⟨inside, ?_, ?_, ?_, ?_⟩
    · simp [underway, stopped, delivered, ← running, startedBy, sameBusy, free]
    · rw [sameCancel, sameBusy, cancel]
    · simp [delivered]
    · simp [sameContinuing, samePending]
  | started free flags =>
    obtain ⟨stopped, delivered⟩ := nothing free
    simp only [Screen.flags, Screen.Flags.mk.injEq] at flags
    obtain ⟨sameBusy, sameCancel, sameContinuing, samePending⟩ := flags
    refine ⟨inside, ?_, ?_, ?_, ?_⟩
    · simp [underway, stopped, delivered, ← running, startedBy, sameBusy]
    · rw [sameCancel, sameBusy]
    · simp [delivered]
    · simp [sameBusy]

theorem finish {before after : List Bytes} {line : Bytes}
    (running : d.running = before ++ line :: after) (fuel : Nat) (patience : Patience) :
    Consistent ⟨{ d.screen with session := (d.screen.session.eval fuel patience line).2 },
      before ++ after, (d.screen.session.eval fuel patience line).1 :: d.results⟩ := by
  have count := consistent.busy
  have only : d.screen.busy = true ∧ d.results = [] := by
    cases busy : d.screen.busy with
    | false =>
      have none := (consistent.nothing_underway busy).1
      rw [running] at none
      cases before <;> cases none
    | true =>
      simp only [underway, running, busy, List.length_append, List.length_cons,
        Bool.toNat_true] at count
      exact ⟨rfl, List.length_eq_zero_iff.mp (by omega)⟩
  refine ⟨consistent.cursor, ?_, consistent.cancel, ?_, ?_⟩
  · rw [← count]
    simp only [underway, running, List.length_append, List.length_cons]
    omega
  · intro r member
    rw [only.2, List.mem_singleton] at member
    rw [member]
    exact Session.eval_pending _ fuel patience line
  · intro idle
    rw [only.1] at idle
    cases idle

theorem deliver {before after : List LineResult} {r : LineResult}
    (results : d.results = before ++ r :: after) :
    Consistent { d.receive (.evaluated r) with results := before ++ after } := by
  have count := consistent.busy
  have only : d.running = [] ∧ before = [] ∧ after = [] := by
    have most : d.underway ≤ 1 := count ▸ Bool.toNat_le _
    simp only [underway, results, List.length_append, List.length_cons] at most
    exact ⟨List.length_eq_zero_iff.mp (by omega), List.length_eq_zero_iff.mp (by omega),
      List.length_eq_zero_iff.mp (by omega)⟩
  obtain ⟨running, rfl, rfl⟩ := only
  refine ⟨consistent.cursor.update _, ?_, rfl, by simp, ?_⟩
  · show (d.running ++ []).length + 0 = 0
    rw [running]
    rfl
  · intro _
    exact consistent.told r (by simp [results])

end Consistent

theorem Consistent.step {d e : Dialogue} (consistent : d.Consistent) (step : Step d e) :
    e.Consistent := by
  cases step with
  | message other => exact consistent.message other
  | finish running fuel patience => exact consistent.finish running fuel patience
  | deliver results => exact consistent.deliver results

theorem Reached.consistent {options : SessionOptions} {d : Dialogue} (reached : d.Reached options) :
    d.Consistent := by
  induction reached with
  | new => exact consistent_new options
  | next _ step ih => exact ih.step step

end Dialogue

/-- In every order of messages, the cursor stays in the edited line; the screen is busy, and has the
means to cancel, exactly while one evaluation has been started and not delivered, and there are
never two; when it is idle, it expects a continuation exactly if the session keeps unfinished input;
and a key that comes while it is busy changes neither the edited line nor the session. -/
theorem screen_flags_agree {options : SessionOptions} {d : Dialogue} (reached : d.Reached options) :
    d.screen.cursor ≤ d.screen.buffer.length ∧
      d.underway ≤ 1 ∧ (d.screen.busy = true ↔ d.underway = 1) ∧
      (d.screen.busy = true ↔ d.screen.cancel.isSome = true) ∧
      (d.screen.busy = false → (d.screen.continuing = true ↔ d.screen.session.pending ≠ [])) ∧
      ∀ m : Message, m.IsKey → d.screen.busy = true →
        (d.screen.update m).1.buffer = d.screen.buffer ∧
          (d.screen.update m).1.cursor = d.screen.cursor ∧
          (d.screen.update m).1.session = d.screen.session := by
  obtain ⟨cursor, busy, cancel, -, idle⟩ := reached.consistent
  refine ⟨cursor, ?_, ?_, by rw [cancel], ?_, fun m key busy => Screen.update_busy busy key⟩
  · rw [busy]
    exact Bool.toNat_le _
  · rw [busy]
    cases d.screen.busy <;> simp
  · intro free
    rw [idle free]
    simp

def plainOptions : SessionOptions := ⟨[], [], [], [], [], 0, 0, false⟩

def lineStarted : Dialogue :=
  ((Dialogue.new plainOptions).receive (.typed (utf8 "print("))).receive (.key .enter)

def lineDelivered : Dialogue :=
  let d := lineStarted.receive (.key .interrupt)
  let (result, session) := d.screen.session.eval 0 .spent (utf8 "print(")
  { (⟨{ d.screen with session }, [], [result]⟩ : Dialogue).receive (.evaluated result) with
    results := [] }

theorem lineStarted_reached : lineStarted.Reached plainOptions :=
  (Dialogue.Reached.new.next (.message _ (by simp))).next (.message _ (by simp))

theorem lineDelivered_reached : lineDelivered.Reached plainOptions := by
  have interrupted := lineStarted_reached.next (.message _ (m := .key .interrupt) (by simp))
  have running : (lineStarted.receive (.key .interrupt)).running = [] ++ utf8 "print(" :: [] := by
    decide +kernel
  have ended := interrupted.next (.finish _ running 0 .spent)
  exact ended.next (@Dialogue.Step.deliver _ [] [] _ rfl)

theorem screen_flags_agree_continued :
    lineStarted.screen.busy = true ∧ lineStarted.underway = 1 ∧
      (lineStarted.screen.update (.key .up)).1.session = lineStarted.screen.session ∧
      lineDelivered.screen.busy = false ∧ lineDelivered.screen.continuing = true ∧
      lineDelivered.screen.session.pending ≠ [] := by
  have busy : lineStarted.screen.busy = true := by decide +kernel
  have free : lineDelivered.screen.busy = false := by decide +kernel
  have continuing : lineDelivered.screen.continuing = true := by decide +kernel
  obtain ⟨-, -, one, -, -, key⟩ := screen_flags_agree lineStarted_reached
  obtain ⟨-, -, -, -, idle, -⟩ := screen_flags_agree lineDelivered_reached
  exact ⟨busy, one.mp busy, (key (.key .up) trivial busy).2.2, free, continuing,
    (idle free).mp continuing⟩

end CallScript
