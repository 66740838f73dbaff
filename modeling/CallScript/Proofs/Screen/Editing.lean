import CallScript.Proofs.Screen.Browsing
import CallScript.Proofs.Text.Characters

/- What editing does to the characters of a line. Text is put in and recalled as whole characters,
   but the cursor and backspace go over one byte at a time. A line stays whole, with the cursor
   between two of its characters, as long as they go over ASCII characters only, and the first time
   they go over a byte of another character it does not. -/
namespace CallScript

namespace History

structure Whole (h : History) : Prop where
  entries : ∀ entry ∈ h.entries, entry.isUtf8 = true
  draft : h.draft.isUtf8 = true

variable {h : History} (whole : h.Whole)
include whole

theorem Whole.entry (position : Int) : (h.entry position).isUtf8 = true := by
  unfold History.entry
  split
  · rfl
  · cases found : h.entries[position.toNat]? with
    | none => rfl
    | some entry => exact whole.entries entry (List.mem_of_getElem? found)

theorem Whole.start {line : Bytes} (kept : line.isUtf8 = true) : (h.start line).Whole := by
  unfold History.start
  split
  · exact whole
  · exact ⟨whole.entries, kept⟩

theorem Whole.up : h.up.1.isUtf8 = true ∧ h.up.2.Whole := by
  unfold History.up
  split
  · exact ⟨rfl, whole⟩
  · exact ⟨whole.entry _, whole.entries, whole.draft⟩

theorem Whole.down : h.down.1.isUtf8 = true ∧ h.down.2.Whole := by
  unfold History.down
  split
  · exact ⟨rfl, whole⟩
  · split
    · exact ⟨whole.entry _, whole.entries, whole.draft⟩
    · exact ⟨whole.draft, whole.entries, whole.draft⟩

theorem Whole.add (limit : Int) {line : Bytes} (kept : line.isUtf8 = true) :
    (h.add limit line).Whole := by
  unfold History.add
  split
  · exact whole
  · refine ⟨?_, whole.draft⟩
    intro entry member
    have among : entry ∈ h.entries ++ [line] := by
      simp only [History.trim] at member
      split at member
      · exact List.mem_of_mem_drop member
      · exact member
    rcases List.mem_append.mp among with old | new
    · exact whole.entries entry old
    · rw [List.mem_singleton.mp new]
      exact kept

end History

namespace Screen

/-- The edited line is made of whole characters, and the cursor stands between two of them or at an
end. -/
structure Whole (s : Screen) : Prop where
  text : s.buffer.isUtf8 = true
  cursor : s.buffer.Boundary s.cursor

/-- A key that goes over one byte of a character that has several. -/
def Splits (s : Screen) : Message → Prop
  | .key .left | .key .backspace =>
    s.busy = false ∧ ∃ c ∈ (s.buffer.take s.cursor).getLast?, ¬c < 0x80
  | .key .right => s.busy = false ∧ ∃ c ∈ (s.buffer.drop s.cursor).head?, ¬c < 0x80
  | _ => False

variable {s : Screen}

theorem whole_iff {before after : Bytes} (text : s.buffer = before ++ after)
    (cursor : s.cursor = before.length) :
    s.Whole ↔ before.isUtf8 = true ∧ after.isUtf8 = true := by
  constructor
  · intro whole
    obtain ⟨first, second, text', length, kept, kept'⟩ := whole.cursor.parts whole.text
    obtain ⟨rfl, rfl⟩ := List.append_inj (text.symm.trans text') (by omega)
    exact ⟨kept, kept'⟩
  · rintro ⟨first, second⟩
    constructor
    · rw [text, Bytes.isUtf8_append first]
      exact second
    · rw [text, cursor]
      exact Bytes.boundary_append first

theorem Whole.parts (whole : s.Whole) :
    ∃ before after, s.buffer = before ++ after ∧ s.cursor = before.length ∧
    before.isUtf8 = true ∧ after.isUtf8 = true := by
  obtain ⟨before, after, text, length, first, second⟩ := whole.cursor.parts whole.text
  exact ⟨before, after, text, length.symm, first, second⟩

theorem whole_empty (buffer : s.buffer = []) (cursor : s.cursor = 0) : s.Whole :=
  (whole_iff (buffer.trans (List.append_nil []).symm) cursor).mpr ⟨rfl, rfl⟩

theorem whole_setBuffer {line : Bytes} (kept : line.isUtf8 = true) : (s.setBuffer line).Whole :=
  (whole_iff (List.append_nil line).symm rfl).mpr ⟨kept, rfl⟩

theorem isUtf8_typedText (text : Bytes) : (typedText text).isUtf8 = true := by
  apply Bytes.isUtf8_flatMap
  intro g member
  split
  · decide
  · rfl
  · decide
  · decide
  · rename_i code
    have character : g.IsCharacter := ⟨by simp [code], Glyph.mem_split member⟩
    simpa [Glyph.toText] using Bytes.isUtf8_toText (List.forall_mem_singleton.mpr character)

theorem Whole.insert (whole : s.Whole) {text : Bytes} (kept : text.isUtf8 = true) :
    (s.insert text).Whole := by
  obtain ⟨before, after, buffer, cursor, first, second⟩ := whole.parts
  have text' : (s.insert text).buffer = (before ++ text) ++ after := by
    simp [Screen.insert, buffer, cursor]
  have cursor' : (s.insert text).cursor = (before ++ text).length := by simp [Screen.insert, cursor]
  rw [whole_iff text' cursor', Bytes.isUtf8_append first]
  exact ⟨kept, second⟩

theorem Whole.left_iff (whole : s.Whole) (idle : s.busy = false) :
    (s.edit .left).1.Whole ↔ ¬s.Splits (.key .left) := by
  obtain ⟨before, after, buffer, cursor, first, second⟩ := whole.parts
  rcases List.eq_nil_or_concat' before with rfl | ⟨earlier, c, rfl⟩
  · refine iff_of_true ⟨whole.text, ?_⟩ (by simp [Splits, cursor])
    have same : (s.edit .left).1.cursor = s.cursor := by simp [Screen.edit, cursor]
    rw [same]
    exact whole.cursor
  · have splits : s.Splits (.key .left) ↔ ¬c < 0x80 := by
      rw [Splits, buffer, cursor, List.take_left]
      simp [idle]
    have text : (s.edit .left).1.buffer = earlier ++ c :: after := by simp [Screen.edit, buffer]
    rw [splits, Classical.not_not, whole_iff text (by simp [Screen.edit, cursor])]
    rcases Bytes.last_character first with ⟨low, alone, kept⟩ | ⟨high, follows, -⟩
    · rw [← List.singleton_append, Bytes.isUtf8_append alone]
      exact iff_of_true ⟨kept, second⟩ low
    · rw [Bytes.isUtf8_continuation follows]
      simp [high]

theorem Whole.backspace_iff (whole : s.Whole) (idle : s.busy = false) :
    s.backspace.Whole ↔ ¬s.Splits (.key .backspace) := by
  obtain ⟨before, after, buffer, cursor, first, second⟩ := whole.parts
  rcases List.eq_nil_or_concat' before with rfl | ⟨earlier, c, rfl⟩
  · have same : s.backspace = s := by simp [Screen.backspace, cursor]
    rw [same]
    simp [whole, Splits, cursor]
  · have splits : s.Splits (.key .backspace) ↔ ¬c < 0x80 := by
      rw [Splits, buffer, cursor, List.take_left]
      simp [idle]
    have text : s.backspace.buffer = earlier ++ after := by simp [Screen.backspace, buffer, cursor]
    rw [splits, Classical.not_not, whole_iff text (by simp [Screen.backspace, cursor])]
    rcases Bytes.last_character first with ⟨low, -, kept⟩ | ⟨high, -, broken⟩
    · exact iff_of_true ⟨kept, second⟩ low
    · -- The character before the cursor misses a byte, whatever comes after it.
      refine iff_of_false ?_ high
      rintro ⟨kept, -⟩
      have joined := broken after second
      rw [Bytes.isUtf8_append kept, second] at joined
      cases joined

theorem Whole.right_iff (whole : s.Whole) (idle : s.busy = false) :
    (s.edit .right).1.Whole ↔ ¬s.Splits (.key .right) := by
  obtain ⟨before, after, buffer, cursor, first, second⟩ := whole.parts
  cases after with
  | nil =>
    refine iff_of_true ⟨whole.text, ?_⟩ (by simp [Splits, cursor, buffer])
    have same : (s.edit .right).1.cursor = s.cursor := by simp [Screen.edit, cursor, buffer]
    rw [same]
    exact whole.cursor
  | cons c rest =>
    have splits : s.Splits (.key .right) ↔ ¬c < 0x80 := by simp [Splits, idle, buffer, cursor]
    have text : (s.edit .right).1.buffer = (before ++ [c]) ++ rest := by simp [Screen.edit, buffer]
    rw [splits, Classical.not_not, whole_iff text (by simp [Screen.edit, buffer, cursor]),
      Bytes.isUtf8_append first]
    rcases Bytes.first_character second with ⟨low, alone, kept⟩ | ⟨high, broken⟩
    · exact iff_of_true ⟨alone, kept⟩ low
    · simp [broken, high]

variable (whole : s.Whole) (recalled : s.session.history.Whole)
include whole recalled

theorem Whole.browseUp : s.browseUp.Whole := by
  unfold Screen.browseUp
  dsimp only
  split
  · exact whole_setBuffer (recalled.start whole.text).up.1
  · exact ⟨whole.text, whole.cursor⟩

theorem Whole.browseDown : s.browseDown.Whole := by
  unfold Screen.browseDown
  split
  · exact whole_setBuffer recalled.down.1
  · exact whole

theorem Whole.edit_iff (idle : s.busy = false) (key : Key) :
    (s.edit key).1.Whole ↔ ¬s.Splits (.key key) := by
  cases key with
  | enter => exact iff_of_true (whole_empty s.submit_empty.1 s.submit_empty.2) id
  | backspace => exact whole.backspace_iff idle
  | left => exact whole.left_iff idle
  | right => exact whole.right_iff idle
  | up => exact iff_of_true (whole.browseUp recalled) id
  | down => exact iff_of_true (whole.browseDown recalled) id
  | space => exact iff_of_true (whole.insert (by decide)) id
  | _ => exact iff_of_true whole id

theorem Whole.pressKey_iff (key : Key) : (s.pressKey key).1.Whole ↔ ¬s.Splits (.key key) := by
  have edited : (if s.busy then (s, none) else s.edit key).1.Whole ↔ ¬s.Splits (.key key) := by
    split
    · rename_i busy
      refine iff_of_true whole ?_
      cases key with
      | left | backspace | right => simp [Splits, busy]
      | _ => exact id
    · rename_i idle
      exact whole.edit_iff recalled (by simpa using idle) key
  cases key with
  | interrupt =>
    refine iff_of_true ?_ id
    by_cases busy : s.busy = true
    · simp only [Screen.pressKey, Screen.interrupt, if_pos busy]
      exact ⟨whole.text, whole.cursor⟩
    · obtain ⟨buffer, cursor⟩ := interrupt_empty (Bool.eq_false_iff.mpr busy)
      exact whole_empty buffer cursor
  | leave | pageUp | pageDown => exact iff_of_true ⟨whole.text, whole.cursor⟩ id
  | _ => exact edited

theorem Whole.update_iff (m : Message) : (s.update m).1.Whole ↔ ¬s.Splits m := by
  cases m with
  | key key => exact whole.pressKey_iff recalled key
  | typed text =>
    refine iff_of_true ?_ id
    simp only [Screen.update]
    split
    · exact whole
    · exact whole.insert (isUtf8_typedText text)
  | _ => exact iff_of_true ⟨whole.text, whole.cursor⟩ id

theorem Whole.history_edit (key : Key) : (s.edit key).1.session.history.Whole := by
  cases key with
  | enter =>
    simp only [Screen.edit, submit_history]
    exact recalled.add _ (Bytes.isUtf8_trim whole.text)
  | backspace =>
    simp only [Screen.edit, Screen.backspace]
    split
    · exact recalled
    · exact recalled
  | up =>
    have moved := (recalled.start whole.text).up.2
    simp only [Screen.edit, Screen.browseUp]
    split
    · exact moved
    · exact moved
  | down =>
    simp only [Screen.edit, Screen.browseDown]
    split
    · exact recalled.down.2
    · exact recalled
  | _ => exact recalled

/-- Only whole lines get into the history: a key that splits a character records nothing. -/
theorem Whole.history_update (m : Message) : (s.update m).1.session.history.Whole := by
  cases m with
  | key key =>
    have edited : (if s.busy then (s, none) else s.edit key).1.session.history.Whole := by
      split
      · exact recalled
      · exact whole.history_edit recalled key
    cases key with
    | interrupt =>
      simp only [Screen.update, Screen.pressKey, interrupt_history]
      exact recalled
    | leave | pageUp | pageDown => exact recalled
    | _ => exact edited
  | typed text =>
    simp only [Screen.update]
    split
    · exact recalled
    · exact recalled
  | _ => exact recalled

omit whole recalled

theorem edit_evaluates {key : Key} {line : Bytes} (asked : (s.edit key).2 = some (.evaluate line)) :
    line = s.buffer := by
  cases key with
  | enter =>
    simp only [Screen.edit] at asked
    rcases s.submit_cases with ⟨-, same⟩ | ⟨-, quitting, command, same, other⟩ | same
    · rw [same] at asked
      cases asked
    · rw [same] at asked
      exact absurd asked (other line)
    · rw [same] at asked
      cases asked
      rfl
  | _ => cases asked

theorem update_evaluates {m : Message} {line : Bytes}
    (asked : (s.update m).2 = some (.evaluate line)) :
    line = s.buffer := by
  cases m with
  | key key =>
    have edited : (if s.busy then (s, none) else s.edit key).2 = some (.evaluate line) →
        line = s.buffer := by
      split
      · simp
      · exact edit_evaluates
    cases key with
    | interrupt | leave | pageUp | pageDown => cases asked
    | _ => exact edited asked
  | typed text =>
    simp only [Screen.update] at asked
    split at asked
    · cases asked
    · cases asked
  | _ => cases asked

end Screen

namespace Dialogue

structure Whole (d : Dialogue) : Prop where
  line : d.screen.Whole
  recalled : d.screen.session.history.Whole
  running : ∀ line ∈ d.running, line.isUtf8 = true

inductive Unsplit (options : SessionOptions) : Dialogue → Prop where
  | new : Unsplit options (new options)
  | next {d e : Dialogue} (before : Unsplit options d) (step : Step d e)
    (kept : ∀ m, e = d.receive m → ¬d.screen.Splits m) : Unsplit options e

variable {options : SessionOptions} {d e : Dialogue}

theorem whole_new (options : SessionOptions) : (new options).Whole :=
  ⟨Screen.whole_empty rfl rfl,
    ⟨by simp [new, Screen.new, Session.new, History.empty], rfl⟩, by simp [new]⟩

theorem Whole.receive_iff (whole : d.Whole) (m : Message) :
    (d.receive m).Whole ↔ ¬d.screen.Splits m := by
  rw [← whole.line.update_iff whole.recalled m]
  constructor
  · intro after
    exact after.line
  · intro after
    refine ⟨after, whole.line.history_update whole.recalled m, ?_⟩
    intro line member
    rcases List.mem_append.mp member with old | new
    · exact whole.running line old
    · cases asked : (d.screen.update m).2 with
      | none => simp [asked, startedBy] at new
      | some command =>
        cases command with
        | evaluate started =>
          obtain rfl : line = started := by simpa [asked, startedBy] using new
          rw [Screen.update_evaluates asked]
          exact whole.line.text
        | _ => simp [asked, startedBy] at new

theorem Whole.step (whole : d.Whole) (step : Step d e)
    (kept : ∀ m, e = d.receive m → ¬d.screen.Splits m) :
    e.Whole := by
  cases step with
  | message other => exact (whole.receive_iff _).mpr (kept _ rfl)
  | finish running fuel patience =>
    refine ⟨⟨whole.line.text, whole.line.cursor⟩, ?_, ?_⟩
    · rw [Session.eval_history]
      exact whole.recalled
    · intro line member
      apply whole.running
      rw [running]
      rcases List.mem_append.mp member with first | second
      · exact List.mem_append_left _ first
      · exact List.mem_append_right _ (List.mem_cons_of_mem _ second)
  | deliver results =>
    obtain ⟨line, recalled, running⟩ := (whole.receive_iff (.evaluated _)).mpr id
    exact ⟨line, recalled, running⟩

theorem Unsplit.whole (unsplit : d.Unsplit options) : d.Whole := by
  induction unsplit with
  | new => exact whole_new options
  | next before step kept ih => exact ih.step step kept

-- A message that splits nothing cannot have the effect of one that does.
theorem Unsplit.message (unsplit : d.Unsplit options) {m : Message} (other : ∀ r, m ≠ .evaluated r)
    (kept : ¬d.screen.Splits m) : (d.receive m).Unsplit options := by
  refine unsplit.next (.message d other) ?_
  intro m' same
  rw [← unsplit.whole.receive_iff, ← same]
  exact (unsplit.whole.receive_iff m).mpr kept

end Dialogue

/-- As long as no key goes over one byte of a character that has several, the edited line is made of
whole characters and the cursor stands between two of them, and the lines that are evaluated and the
entries of the history are made of whole characters too. The first key that does leaves a broken
line or a cursor inside a character. -/
theorem characters_whole_until_split {options : SessionOptions} {d : Dialogue}
    (unsplit : d.Unsplit options) :
    (d.screen.buffer.isUtf8 = true ∧ d.screen.buffer.Boundary d.screen.cursor) ∧
      (∀ line ∈ d.running, line.isUtf8 = true) ∧
      (∀ entry ∈ d.screen.session.history.entries, entry.isUtf8 = true) ∧
      ∀ m, ((d.receive m).screen.buffer.isUtf8 = true ∧
        (d.receive m).screen.buffer.Boundary (d.receive m).screen.cursor) ↔ ¬d.screen.Splits m := by
  obtain ⟨line, recalled, running⟩ := unsplit.whole
  refine ⟨⟨line.text, line.cursor⟩, running, recalled.entries, ?_⟩
  intro m
  rw [← line.update_iff recalled m]
  exact ⟨fun ⟨text, cursor⟩ => ⟨text, cursor⟩, fun ⟨text, cursor⟩ => ⟨text, cursor⟩⟩

def letterTyped : Dialogue := (Dialogue.new plainOptions).receive (.typed (utf8 "é"))

def letterEntered : Dialogue :=
  ((letterTyped.receive (.key .space)).receive (.key .left)).receive (.key .enter)

theorem characters_whole_until_split_letter :
    letterEntered.Unsplit plainOptions ∧ letterEntered.running = [utf8 "é "] ∧
      letterEntered.screen.session.history.entries = [utf8 "é"] ∧ (utf8 "é ").isUtf8 = true := by
  have typed : letterTyped.Unsplit plainOptions := Dialogue.Unsplit.new.message (by simp) id
  have spaced := typed.message (m := .key .space) (by simp) id
  have moved := spaced.message (m := .key .left) (by simp) (by unfold Screen.Splits; decide +kernel)
  have entered : letterEntered.Unsplit plainOptions := moved.message (by simp) id
  have running : letterEntered.running = [utf8 "é "] := by decide +kernel
  obtain ⟨-, whole, -⟩ := characters_whole_until_split entered
  exact ⟨entered, running, by decide +kernel,
    whole _ (by rw [running]; exact List.mem_singleton_self _)⟩

/-- Backspace takes one byte of the letter, and what is left of it gets into the history; left puts
the cursor inside it. -/
theorem backspace_splits_letter :
    (letterTyped.receive (.key .backspace)).Reached plainOptions ∧
      (letterTyped.receive (.key .backspace)).screen.buffer = [0xc3] ∧
      (letterTyped.receive (.key .backspace)).screen.buffer.isUtf8 = false ∧
      ((letterTyped.receive (.key .backspace)).receive
        (.key .enter)).screen.session.history.entries = [[0xc3]] ∧
      (letterTyped.receive (.key .left)).screen.cursor = 1 ∧
      ¬(letterTyped.receive (.key .left)).screen.buffer.Boundary 1 := by
  have typed : letterTyped.Reached plainOptions := Dialogue.Reached.new.next (.message _ (by simp))
  exact ⟨typed.next (.message _ (by simp)), by decide +kernel⟩

end CallScript
