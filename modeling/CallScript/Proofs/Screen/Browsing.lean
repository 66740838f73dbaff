import CallScript.Proofs.Screen.Dialogue

/- Walking back and forth in the history while a line is being edited. The line comes back after the
   walk exactly from a screen that has a history and is not browsing it. Entering a line that is not
   blank leaves such a screen; giving a line up, or entering a blank one, leaves the history as it
   was, also in the middle of a walk. -/
namespace CallScript

/-- A key that only edits the line. -/
def Message.Edits : Message → Prop
  | .typed _ => True
  | .key pressed => pressed = .space ∨ pressed = .backspace ∨ pressed = .left ∨ pressed = .right
  | _ => False

namespace History

/-- There is something to browse, and the next walk begins with the edited line. -/
def Ready (h : History) : Prop := h.entries ≠ [] ∧ h.browsing = false

def moveTo (h : History) (position : Int) : History := { h with position }

def walkedTo (h : History) (position : Int) : History :=
  if position < h.entries.length then h.moveTo position
  else { h with position := h.entries.length, browsing := false }

def lineAt (h : History) (position : Int) : Bytes :=
  if position < h.entries.length then h.entry position else h.draft

def back (position : Int) (steps : Nat) : Int :=
  if 0 < position then max (position - steps) 0 else position

def returned (h : History) (line : Bytes) (steps : Nat) : Bytes :=
  if h.entries = [] then []
  else if h.browsing then h.lineAt (back h.position steps + steps)
  else line

theorem start_browsing (h : History) (line : Bytes) : (h.start line).browsing = true := by
  unfold start
  split
  · assumption
  · rfl

theorem start_entries (h : History) (line : Bytes) : (h.start line).entries = h.entries := by
  unfold start
  split
  · rfl
  · rfl

theorem start_of_browsing {h : History} (browsing : h.browsing = true) (line : Bytes) :
    h.start line = h := by
  simp [start, browsing]

theorem start_moveTo {h : History} (browsing : h.browsing = true) (p : Int) (line : Bytes) :
    (h.moveTo p).start line = h.moveTo p := start_of_browsing (h := h.moveTo p) browsing line

theorem up_of_empty {h : History} (empty : h.entries = []) : h.up = ([], h) := by
  simp [up, empty]

theorem down_of_empty {h : History} (empty : h.entries = []) : h.down = ([], h) := by
  simp [down, empty]

theorem back_one (position : Int) :
    back position 1 = if 0 < position then position - 1 else position := by
  unfold back
  omega

theorem back_succ (position : Int) (steps : Nat) :
    back (back position steps) 1 = back position (steps + 1) := by
  unfold back
  omega

theorem up_of_entries {h : History} (some : h.entries ≠ []) (p : Int) :
    (h.moveTo p).up = (h.entry (back p 1), h.moveTo (back p 1)) := by
  have filled : ¬(h.moveTo p).entries.isEmpty = true := by simpa [moveTo] using some
  have moved : (h.moveTo p).up =
      (h.entry (if 0 < p then p - 1 else p), h.moveTo (if 0 < p then p - 1 else p)) :=
    if_neg filled
  rw [moved, back_one]

theorem down_of_entries {h : History} (some : h.entries ≠ []) (p : Int) :
    (h.moveTo p).down = (h.lineAt (p + 1), h.walkedTo (p + 1)) := by
  have filled : ¬(h.moveTo p).entries.isEmpty = true := by simpa [moveTo] using some
  unfold lineAt walkedTo
  by_cases inside : p + 1 < h.entries.length
  · rw [if_pos inside, if_pos inside]
    exact (if_neg filled).trans (if_pos (Int.lt_sub_right_of_add_lt inside))
  · rw [if_neg inside, if_neg inside]
    exact (if_neg filled).trans (if_neg fun less => inside (Int.add_lt_of_lt_sub_right less))

theorem up_browsing (h : History) : h.up.2.browsing = h.browsing := by
  unfold up
  split
  · rfl
  · rfl

theorem trim_ne_nil (limit : Int) (entries : List Bytes) (entry : Bytes) :
    trim limit (entries ++ [entry]) ≠ [] := by
  unfold trim
  split
  · intro nothing
    have short := List.drop_eq_nil_iff.mp nothing
    simp only [List.length_append, List.length_singleton] at short
    omega
  · simp

theorem add_blank (limit : Int) (h : History) : h.add limit [] = h := rfl

theorem ready_add (limit : Int) (h : History) {entry : Bytes} (some : entry ≠ []) :
    (h.add limit entry).Ready := by
  simp only [Ready, add, List.isEmpty_iff, some, if_false]
  exact ⟨trim_ne_nil limit h.entries entry, trivial⟩

theorem returned_of_ready {h : History} (ready : h.Ready) (line : Bytes) (steps : Nat) :
    h.returned line steps = line := by
  simp [returned, ready.1, ready.2]

/-- A walk that does not begin anew goes back to a line that has nothing to do with the edited
one. -/
theorem returned_fixed {h : History} (unready : ¬h.Ready) :
    ∃ stale, ∀ line, h.returned line (h.entries.length + 1) = stale := by
  by_cases empty : h.entries = []
  · exact ⟨[], fun line => by simp [returned, empty]⟩
  · have browsing : h.browsing = true := by
      cases flag : h.browsing with
      | true => rfl
      | false => exact absurd ⟨empty, flag⟩ unready
    exact ⟨h.lineAt (back h.position (h.entries.length + 1) + (h.entries.length + 1 : Nat)),
      fun line => by simp [returned, empty, browsing]⟩

end History

theorem Session.eval_frame (s : Session) (fuel : Nat) (patience : Patience) (line : Bytes) :
    ∃ pending interpreter, (s.eval fuel patience line).2 = { s with pending, interpreter } := by
  simp only [eval]
  split
  · exact ⟨_, _, rfl⟩
  · split
    · simp only [runProgram]
      split
      · exact ⟨_, _, rfl⟩
      · exact ⟨_, _, rfl⟩
    · split
      · exact ⟨_, _, rfl⟩
      · exact ⟨_, _, rfl⟩

theorem Session.eval_history (s : Session) (fuel : Nat) (patience : Patience) (line : Bytes) :
    (s.eval fuel patience line).2.history = s.history := by
  obtain ⟨pending, interpreter, same⟩ := s.eval_frame fuel patience line
  rw [same]

namespace Screen

def receiveAll (s : Screen) (messages : List Message) : Screen :=
  messages.foldl (fun t m => (t.update m).1) s

theorem receiveAll_append (s : Screen) (first second : List Message) :
    s.receiveAll (first ++ second) = (s.receiveAll first).receiveAll second := List.foldl_append

theorem receiveAll_replicate_succ (s : Screen) (k : Nat) (m : Message) :
    s.receiveAll (List.replicate (k + 1) m) = ((s.receiveAll (List.replicate k m)).update m).1 := by
  rw [List.replicate_succ', receiveAll_append]
  rfl

def walked (s : Screen) (k : Nat) : Screen :=
  s.receiveAll (List.replicate k (.key .up) ++ List.replicate k (.key .down))

def answered (s : Screen) (fuel : Nat) (patience : Patience) (line : Bytes) : Screen :=
  let result := s.session.eval fuel patience line
  ({ s with session := result.2 }.update (.evaluated result.1)).1

theorem answered_history (s : Screen) (fuel : Nat) (patience : Patience) (line : Bytes) :
    (s.answered fuel patience line).session.history = s.session.history :=
  s.session.eval_history fuel patience line

theorem update_edits {s : Screen} (idle : s.busy = false) {m : Message} (edits : m.Edits) :
    (s.update m).1.busy = false ∧ (s.update m).1.session = s.session := by
  cases m with
  | typed text => simp [update, idle, insert]
  | key pressed =>
    rcases edits with rfl | rfl | rfl | rfl
    · simp [update, pressKey, idle, edit, insert]
    · simp only [update, pressKey, idle, edit, Bool.false_eq_true, if_false]
      unfold backspace
      split
      · exact ⟨idle, rfl⟩
      · exact ⟨idle, rfl⟩
    · simp [update, pressKey, idle, edit]
    · simp [update, pressKey, idle, edit]
  | _ => cases edits

theorem receiveAll_edits {s : Screen} (idle : s.busy = false) {messages : List Message}
    (edits : ∀ m ∈ messages, m.Edits) :
    (s.receiveAll messages).busy = false ∧ (s.receiveAll messages).session = s.session := by
  induction messages generalizing s with
  | nil => exact ⟨idle, rfl⟩
  | cons m rest ih =>
    obtain ⟨stillIdle, same⟩ := update_edits idle (edits m List.mem_cons_self)
    obtain ⟨restIdle, restSame⟩ :=
      ih stillIdle fun n member => edits n (List.mem_cons_of_mem m member)
    exact ⟨restIdle, restSame.trans same⟩

structure Showing (s : Screen) (h : History) (line : Bytes) : Prop where
  idle : s.busy = false
  history : s.session.history = h
  buffer : s.buffer = line
  cursor : s.cursor = line.length

theorem showing_up {s : Screen} (idle : s.busy = false) :
    Showing (s.update (.key .up)).1 (s.session.history.start s.buffer).up.2
      (s.session.history.start s.buffer).up.1 := by
  have browsing : (s.session.history.start s.buffer).up.2.browsing = true := by
    rw [History.up_browsing, History.start_browsing]
  simp only [update, pressKey, idle, edit, browseUp, Session.historyUp, Session.startBrowsing,
    Bool.false_eq_true, if_false, browsing, Bool.or_true, if_true, setBuffer]
  exact ⟨rfl, rfl, rfl, rfl⟩

variable {s : Screen} {h : History} {line : Bytes}

theorem Showing.down (shown : Showing s h line) (browsing : h.browsing = true) :
    Showing (s.update (.key .down)).1 h.down.2 h.down.1 := by
  obtain ⟨idle, rfl, rfl, -⟩ := shown
  simp only [update, pressKey, idle, edit, browseDown, Session.historyDown, Bool.false_eq_true,
    if_false, browsing, if_true, setBuffer]
  exact ⟨rfl, rfl, rfl, rfl⟩

theorem Showing.down_idle (shown : Showing s h line) (back : h.browsing = false) :
    Showing (s.update (.key .down)).1 h line := by
  obtain ⟨idle, rfl, rfl, cursor⟩ := shown
  simp only [update, pressKey, idle, edit, browseDown, Bool.false_eq_true, if_false, back]
  exact ⟨idle, rfl, rfl, cursor⟩

theorem showing_walk_empty {s : Screen} (idle : s.busy = false)
    (empty : s.session.history.entries = []) (k : Nat) :
    Showing (s.receiveAll (List.replicate (k + 1) (.key .up)))
      (s.session.history.start s.buffer) [] := by
  have start := (s.session.history.start_entries s.buffer).trans empty
  induction k with
  | zero =>
    have once := showing_up idle
    rwa [History.up_of_empty start] at once
  | succ k ih =>
    rw [receiveAll_replicate_succ]
    have again := showing_up ih.idle
    rwa [ih.history, History.start_of_browsing (History.start_browsing _ _),
      History.up_of_empty start] at again

theorem Showing.forward_empty (shown : Showing s h []) (browsing : h.browsing = true)
    (empty : h.entries = []) (k : Nat) :
    Showing (s.receiveAll (List.replicate k (.key .down))) h [] := by
  induction k with
  | zero => exact shown
  | succ k ih =>
    rw [receiveAll_replicate_succ]
    have again := ih.down browsing
    rwa [History.down_of_empty empty] at again

/-- Each step back of a walk goes to the entry before, or stays at the first. -/
theorem showing_back {s : Screen} (idle : s.busy = false) (some : s.session.history.entries ≠ [])
    (k : Nat) :
    ∃ line, Showing (s.receiveAll (List.replicate (k + 1) (.key .up)))
      ((s.session.history.start s.buffer).moveTo
        (History.back (s.session.history.start s.buffer).position (k + 1))) line := by
  have entries : (s.session.history.start s.buffer).entries ≠ [] := by
    rwa [History.start_entries]
  have walking := s.session.history.start_browsing s.buffer
  induction k with
  | zero =>
    exact ⟨_, History.up_of_entries entries (s.session.history.start s.buffer).position ▸
      showing_up idle⟩
  | succ k ih =>
    obtain ⟨line, shown⟩ := ih
    rw [receiveAll_replicate_succ]
    have again := showing_up shown.idle
    rw [shown.history, History.start_moveTo walking, History.up_of_entries entries,
      History.back_succ] at again
    exact ⟨_, again⟩

theorem Showing.forward {p : Int} (shown : Showing s (h.moveTo p) line)
    (browsing : h.browsing = true) (some : h.entries ≠ []) (k : Nat) :
    Showing (s.receiveAll (List.replicate (k + 1) (.key .down))) (h.walkedTo (p + (k + 1 : Nat)))
      (h.lineAt (p + (k + 1 : Nat))) := by
  induction k with
  | zero =>
    have once := shown.down browsing
    rwa [History.down_of_entries some] at once
  | succ k ih =>
    rw [receiveAll_replicate_succ]
    unfold History.walkedTo History.lineAt at ih
    by_cases inside : p + (k + 1 : Nat) < h.entries.length
    · rw [if_pos inside, if_pos inside] at ih
      have again := ih.down browsing
      rw [History.down_of_entries some] at again
      rwa [Int.add_assoc] at again
    · rw [if_neg inside, if_neg inside] at ih
      have back := ih.down_idle rfl
      have beyond : ¬p + (k + 1 + 1 : Nat) < h.entries.length := by omega
      unfold History.walkedTo History.lineAt
      rwa [if_neg beyond, if_neg beyond]

theorem walked_line {s : Screen} (idle : s.busy = false) {k : Nat} (positive : 0 < k) :
    (s.walked k).buffer = s.session.history.returned s.buffer k ∧
      (s.walked k).cursor = (s.walked k).buffer.length := by
  obtain ⟨k, rfl⟩ : ∃ j, k = j + 1 := ⟨k - 1, by omega⟩
  have browsing := s.session.history.start_browsing s.buffer
  rw [walked, receiveAll_append]
  by_cases empty : s.session.history.entries = []
  · have entries := (s.session.history.start_entries s.buffer).trans empty
    obtain ⟨-, -, buffer, cursor⟩ :=
      (showing_walk_empty idle empty k).forward_empty browsing entries (k + 1)
    rw [buffer]
    exact ⟨by simp [History.returned, empty], cursor⟩
  · obtain ⟨line, there⟩ := showing_back idle empty k
    have entries : (s.session.history.start s.buffer).entries ≠ [] := by
      rwa [History.start_entries]
    obtain ⟨-, -, buffer, cursor⟩ := there.forward browsing entries k
    rw [buffer]
    refine ⟨?_, cursor⟩
    -- The steps forward make up for those back, except for those that stayed at the first entry.
    unfold History.returned
    rw [if_neg empty]
    by_cases walking : s.session.history.browsing = true
    · rw [if_pos walking, History.start_of_browsing walking]
    · rw [if_neg walking]
      have beyond : ¬History.back s.session.history.entries.length (k + 1) + (k + 1 : Nat) <
          s.session.history.entries.length := by
        unfold History.back
        omega
      simp only [History.start, walking, Bool.false_eq_true, if_false, History.lineAt]
      rw [if_neg beyond]

theorem submit_history (s : Screen) :
    s.submit.1.session.history =
      s.session.history.add s.session.options.historySize s.buffer.trim := by
  rcases s.submit_cases with ⟨blank, same⟩ | ⟨-, quitting, command, same, -⟩ | same
  · rw [same, blank]
    rfl
  · rw [same]
    rfl
  · rw [same]
    rfl

theorem update_enter {s : Screen} (idle : s.busy = false) : s.update (.key .enter) = s.submit := by
  simp [update, pressKey, idle, edit]

theorem interrupt_history (s : Screen) : s.interrupt.session.history = s.session.history := by
  unfold interrupt
  split
  · rfl
  · dsimp only
    split
    · rfl
    · rfl

theorem edit_changes {s : Screen} (idle : s.busy = false) (line : Bytes) :
    ∃ draft, (∀ m ∈ draft, m.Edits) ∧ (s.receiveAll draft).buffer ≠ line := by
  by_cases same : s.buffer = line
  · refine ⟨[.key .space], ?_, ?_⟩
    · intro m member
      rw [List.mem_singleton.mp member]
      exact Or.inl rfl
    · intro unchanged
      have longer := congrArg List.length unchanged
      simp only [receiveAll, List.foldl, update, pressKey, idle, edit, insert, ← same,
        Bool.false_eq_true, if_false,
        List.length_append, List.length_take, List.length_drop, List.length_singleton] at longer
      omega
  · exact ⟨[], by simp, same⟩

end Screen

/-- From an idle screen, editing the line and then going back a number of times and forward as often
leaves the cursor at the end of a line that is told by the history alone, unless the screen is ready
to browse; it is the edited line for every edit and every number of steps exactly if it is ready.
Entering a line that is not blank leaves a screen that is ready, also when its evaluation has ended;
entering a blank one or giving the line up leaves the history as it was. -/
theorem draft_returns_iff_ready {s : Screen} (idle : s.busy = false) :
    (∀ draft : List Message, (∀ m ∈ draft, m.Edits) → ∀ k, 0 < k →
        ((s.receiveAll draft).walked k).buffer =
          s.session.history.returned (s.receiveAll draft).buffer k ∧
          ((s.receiveAll draft).walked k).cursor = ((s.receiveAll draft).walked k).buffer.length) ∧
      ((∀ draft : List Message, (∀ m ∈ draft, m.Edits) → ∀ k, 0 < k →
        ((s.receiveAll draft).walked k).buffer = (s.receiveAll draft).buffer) ↔
          s.session.history.Ready) ∧
      (s.buffer.trim ≠ [] → (s.update (.key .enter)).1.session.history.Ready ∧ ∀ fuel patience line,
        ((s.update (.key .enter)).1.answered fuel patience line).session.history.Ready) ∧
      (s.buffer.trim = [] → (s.update (.key .enter)).1.session.history = s.session.history) ∧
      (s.update (.key .interrupt)).1.session.history = s.session.history := by
  have walk : ∀ draft : List Message, (∀ m ∈ draft, m.Edits) → ∀ k, 0 < k →
      ((s.receiveAll draft).walked k).buffer =
        s.session.history.returned (s.receiveAll draft).buffer k ∧
        ((s.receiveAll draft).walked k).cursor = ((s.receiveAll draft).walked k).buffer.length := by
    intro draft edits k positive
    obtain ⟨free, same⟩ := Screen.receiveAll_edits idle edits
    rw [← same]
    exact Screen.walked_line free positive
  refine ⟨walk, ⟨?_, ?_⟩, ?_, ?_, s.interrupt_history⟩
  · intro kept
    by_contra unready
    -- A walk from a screen that is not ready comes back to the same line for every draft.
    obtain ⟨stale, fixed⟩ := History.returned_fixed unready
    obtain ⟨draft, edits, other⟩ := Screen.edit_changes idle stale
    have same := kept draft edits (s.session.history.entries.length + 1) (by omega)
    rw [(walk draft edits _ (by omega)).1, fixed] at same
    exact other same.symm
  · intro ready draft edits k positive
    rw [(walk draft edits k positive).1, History.returned_of_ready ready]
  · intro some
    have ready : (s.update (.key .enter)).1.session.history.Ready := by
      rw [Screen.update_enter idle, Screen.submit_history]
      exact History.ready_add _ _ some
    refine ⟨ready, fun fuel patience line => ?_⟩
    rwa [Screen.answered_history]
  · intro blank
    rw [Screen.update_enter idle, Screen.submit_history, blank, History.add_blank]

def lineRecorded : Screen :=
  (Screen.new plainOptions).receiveAll [.typed (utf8 "help"), .key .enter]

theorem draft_returns_iff_ready_recorded :
    lineRecorded.busy = false ∧ lineRecorded.session.history.Ready ∧
      ((lineRecorded.receiveAll [.typed (utf8 "x")]).walked 2).buffer = utf8 "x" := by
  have idle : lineRecorded.busy = false := by decide +kernel
  have ready : lineRecorded.session.history.Ready := by
    unfold History.Ready
    decide +kernel
  obtain ⟨-, kept, -⟩ := draft_returns_iff_ready idle
  refine ⟨idle, ready,
    (kept.mpr ready [.typed (utf8 "x")] (by simp [Message.Edits]) 2 (by omega)).trans ?_⟩
  decide +kernel

/-- A draft is lost after Ctrl+C: on a new screen, which has nothing to browse, and on one whose
last walk has not come back to its end. -/
theorem interrupted_draft_lost :
    (((Screen.new plainOptions).receiveAll [.key .interrupt, .typed (utf8 "x")]).walked 1).buffer =
      [] ∧
      ((lineRecorded.receiveAll [.key .up, .key .interrupt, .typed (utf8 "x")]).walked 1).buffer =
        [] := by
  decide +kernel

end CallScript
