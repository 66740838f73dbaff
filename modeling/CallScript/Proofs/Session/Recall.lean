import Mathlib.Data.List.DropRight
import CallScript.Proofs.Screen.Browsing

/- The history of a session as a log and a cursor. The log is made of the last lines that were
   added, as many as the session keeps. The cursor moves by one between the first entry and the
   place behind the last one, where the edited line is; it stays in that range whatever a session is
   asked to do, since it is set with the first entry. -/
namespace CallScript

inductive Direction where
  | up
  | down

def Direction.next (entries position : Nat) : Direction → Nat
  | .up => position - 1
  | .down => min (position + 1) entries

def Direction.positions (entries position : Nat) : List Direction → List Nat
  | [] => []
  | d :: rest => d.next entries position :: positions entries (d.next entries position) rest

inductive SessionCall where
  | add (line : Bytes)
  | start (draft : Bytes)
  | navigate (direction : Direction)
  | eval (fuel : Nat) (patience : Patience) (line : Bytes)
  | reset

def SessionCall.added? : SessionCall → Option Bytes
  | .add line => if line = [] then none else some line
  | _ => none

namespace Session

def navigate (s : Session) : Direction → Bytes × Session
  | .up => s.historyUp
  | .down => s.historyDown

def after (s : Session) : SessionCall → Session
  | .add line => s.addToHistory line
  | .start draft => s.startBrowsing draft
  | .navigate direction => (s.navigate direction).2
  | .eval fuel patience line => (s.eval fuel patience line).2
  | .reset => s.reset

def afterAll (s : Session) (calls : List SessionCall) : Session := calls.foldl after s

def lines (s : Session) : List Direction → List Bytes
  | [] => []
  | d :: rest => (s.navigate d).1 :: lines (s.navigate d).2 rest

def startingAt (options : SessionOptions) (position : Int) : Session :=
  { new options with history := { History.empty with position } }

theorem startingAt_new (options : SessionOptions) : startingAt options (-1) = new options := rfl

end Session

namespace History

theorem trim_append (limit : Int) (lines : List Bytes) (line : Bytes) :
    trim limit (trim limit lines ++ [line]) = trim limit (lines ++ [line]) := by
  unfold trim
  split
  · rename_i positive
    obtain ⟨n, size⟩ : ∃ n, limit.toNat = n + 1 := ⟨limit.toNat - 1, by omega⟩
    rw [size]
    show ((lines.rtake (n + 1)) ++ [line]).rtake (n + 1) = (lines ++ [line]).rtake (n + 1)
    rw [List.rtake_concat_succ, List.rtake_concat_succ]
    simp [List.rtake_eq_reverse_take_reverse, List.take_take]
  · rfl

theorem add_entries (limit : Int) (h : History) {line : Bytes} (some : line ≠ []) :
    (h.add limit line).entries = trim limit (h.entries ++ [line]) := by
  simp [add, some]

/-- The cursor is at an entry or behind the last one, if there is any. -/
def Clamped (h : History) : Prop := h.entries ≠ [] → 0 ≤ h.position ∧ h.position ≤ h.entries.length

theorem Clamped.add {h : History} (clamped : h.Clamped) (limit : Int) (line : Bytes) :
    (h.add limit line).Clamped := by
  unfold History.add
  split
  · exact clamped
  · exact fun _ => ⟨Int.natCast_nonneg _, Int.le_refl _⟩

theorem Clamped.start {h : History} (clamped : h.Clamped) (draft : Bytes) :
    (h.start draft).Clamped := by
  unfold History.start
  split
  · exact clamped
  · exact fun _ => ⟨Int.natCast_nonneg _, Int.le_refl _⟩

variable {h : History} (some : h.entries ≠ [])
include some

theorem up_eq : h.up = (h.entry (back h.position 1), h.moveTo (back h.position 1)) :=
  up_of_entries some h.position

theorem down_eq : h.down = (h.lineAt (h.position + 1), h.walkedTo (h.position + 1)) :=
  down_of_entries some h.position

omit some in
theorem getElem?_entry {position : Nat} (inside : position < h.entries.length) :
    h.entries[position]? = .some (h.entry position) := by
  rw [entry, if_neg (by omega), Int.toNat_natCast, List.getElem?_eq_getElem inside,
    Option.getD_some]

theorem up_entry (clamped : h.Clamped) : ∃ position : Nat, h.up.2.position = position ∧
    position = h.position.toNat - 1 ∧ position < h.entries.length ∧
      h.entries[position]? = .some h.up.1 := by
  have positive := List.length_pos_iff.mpr some
  have bound := clamped some
  have moved : back h.position 1 = (h.position.toNat - 1 : Nat) := by
    rw [back_one]
    omega
  have inside : h.position.toNat - 1 < h.entries.length := by omega
  rw [up_eq some, moved]
  exact ⟨_, rfl, rfl, inside, getElem?_entry inside⟩

/-- A step forward is to an entry, or to the edited line behind the last one. -/
theorem down_line (clamped : h.Clamped) : ∃ position : Nat, h.down.2.position = position ∧
    position = min (h.position.toNat + 1) h.entries.length ∧
    (h.entries ++ [h.draft])[position]? = .some h.down.1 := by
  have bound := clamped some
  rw [down_eq some]
  unfold lineAt walkedTo
  by_cases inside : h.position + 1 < h.entries.length
  · have moved : h.position + 1 = (h.position.toNat + 1 : Nat) := by omega
    have before : h.position.toNat + 1 < h.entries.length := by omega
    rw [if_pos inside, if_pos inside, moved]
    refine ⟨_, rfl, (Nat.min_eq_left before.le).symm, ?_⟩
    rw [List.getElem?_append_left before, getElem?_entry before]
  · rw [if_neg inside, if_neg inside]
    exact ⟨_, rfl, by omega, List.getElem?_concat_length⟩

end History

namespace Session

variable {s : Session}

/-- The history as it is seen from outside: the entries, then the line that was being edited. -/
def recalled (s : Session) : List Bytes := s.history.entries ++ [s.history.draft]

theorem navigate_history (s : Session) (d : Direction) :
    (s.navigate d).2.history.entries = s.history.entries ∧
      (s.navigate d).2.history.draft = s.history.draft := by
  cases d with
  | up =>
    simp only [navigate, historyUp, History.up]
    split
    · exact ⟨rfl, rfl⟩
    · exact ⟨rfl, rfl⟩
  | down =>
    simp only [navigate, historyDown, History.down]
    split
    · exact ⟨rfl, rfl⟩
    · split
      · exact ⟨rfl, rfl⟩
      · exact ⟨rfl, rfl⟩

theorem navigate_empty (empty : s.history.entries = []) (d : Direction) :
    s.navigate d = ([], s) := by
  cases d with
  | up => simp only [navigate, historyUp, History.up_of_empty empty]
  | down => simp only [navigate, historyDown, History.down_of_empty empty]

theorem navigate_line (some : s.history.entries ≠ []) (clamped : s.history.Clamped)
    (d : Direction) :
    ∃ position : Nat, (s.navigate d).2.history.position = position ∧
      position = d.next s.history.entries.length s.history.position.toNat ∧
      s.recalled[position]? = .some (s.navigate d).1 := by
  cases d with
  | up =>
    obtain ⟨position, moved, same, inside, line⟩ := History.up_entry some clamped
    exact ⟨position, moved, same, (List.getElem?_append_left inside).trans line⟩
  | down => exact History.down_line some clamped

theorem clamped_navigate (clamped : s.history.Clamped) (d : Direction) :
    (s.navigate d).2.history.Clamped := by
  intro some
  obtain ⟨entries, -⟩ := s.navigate_history d
  rw [entries] at some ⊢
  have bound := clamped some
  obtain ⟨position, moved, rfl, -⟩ := navigate_line some clamped d
  rw [moved]
  cases d with
  | up =>
    simp only [Direction.next]
    omega
  | down =>
    simp only [Direction.next]
    omega

theorem clamped_after (clamped : s.history.Clamped) (call : SessionCall) :
    (s.after call).history.Clamped := by
  cases call with
  | add line => exact clamped.add _ line
  | start draft => exact clamped.start draft
  | navigate d => exact clamped_navigate clamped d
  | eval fuel patience line =>
    unfold after
    rwa [eval_history]
  | reset => exact clamped

theorem clamped_afterAll (clamped : s.history.Clamped) (calls : List SessionCall) :
    (s.afterAll calls).history.Clamped := by
  induction calls generalizing s with
  | nil => exact clamped
  | cons call rest ih => exact ih (clamped_after clamped call)

theorem after_options (s : Session) (call : SessionCall) : (s.after call).options = s.options := by
  cases call with
  | navigate d => cases d <;> rfl
  | eval fuel patience line =>
    obtain ⟨pending, interpreter, same⟩ := s.eval_frame fuel patience line
    show (s.eval fuel patience line).2.options = s.options
    rw [same]
  | _ => rfl

theorem after_entries (s : Session) (call : SessionCall) {lines : List Bytes}
    (kept : s.history.entries = History.trim s.options.historySize lines) :
    (s.after call).history.entries =
      History.trim s.options.historySize (lines ++ call.added?.toList) := by
  cases call with
  | add line =>
    by_cases blank : line = []
    · subst blank
      simpa [after, addToHistory, History.add_blank, SessionCall.added?] using kept
    · simp only [after, addToHistory, History.add_entries _ _ blank, SessionCall.added?,
        if_neg blank, kept, History.trim_append, Option.toList_some]
  | start draft =>
    simpa [after, startBrowsing, History.start_entries, SessionCall.added?] using kept
  | navigate d => simpa [after, navigate_history, SessionCall.added?] using kept
  | eval fuel patience line => simpa [after, eval_history, SessionCall.added?] using kept
  | reset => simpa [after, reset, SessionCall.added?] using kept

theorem afterAll_entries (s : Session) (calls : List SessionCall) {lines : List Bytes}
    (kept : s.history.entries = History.trim s.options.historySize lines) :
    (s.afterAll calls).history.entries =
      History.trim s.options.historySize (lines ++ calls.filterMap SessionCall.added?) := by
  induction calls generalizing s lines with
  | nil => simpa [afterAll] using kept
  | cons call rest ih =>
    have first := s.after_entries call kept
    have later := ih (s.after call) (by rw [after_options]; exact first)
    rw [after_options] at later
    show ((s.after call).afterAll rest).history.entries = _
    rw [later]
    cases put : call.added? with
    | none => simp [put]
    | some line => simp [put]

theorem lines_eq (some : s.history.entries ≠ []) (clamped : s.history.Clamped)
    (walk : List Direction) :
    (s.lines walk).map Option.some =
      (Direction.positions s.history.entries.length s.history.position.toNat walk).map
        fun p => s.recalled[p]? := by
  induction walk generalizing s with
  | nil => rfl
  | cons d rest ih =>
    obtain ⟨entries, draft⟩ := s.navigate_history d
    obtain ⟨position, moved, rfl, line⟩ := navigate_line some clamped d
    have later := ih (by rwa [entries]) (clamped_navigate clamped d)
    rw [recalled, entries, draft, moved, Int.toNat_natCast] at later
    simp only [lines, Direction.positions, List.map_cons, later, ← line]
    rfl

end Session

/-- Whatever a session is asked to do, and wherever its cursor was before there was an entry, its
history is made of the last lines that were added and are not empty, as many as the session keeps,
or all if that is not a positive number; and a step through the history gives the entry at the new
position of the cursor, or the edited line behind the last one, unless the history is empty and
nothing is looked up. From a history that is not empty, and not being browsed, the cursor starts
behind the last entry and each step moves it by one within its range. -/
theorem history_log_and_cursor :
    (∀ (options : SessionOptions) (position : Int) (calls : List SessionCall),
      ((Session.startingAt options position).afterAll calls).history.entries =
        if 0 < options.historySize then (calls.filterMap SessionCall.added?).rtake
          options.historySize.toNat
        else calls.filterMap SessionCall.added?) ∧
    (∀ (options : SessionOptions) (position : Int) (calls : List SessionCall) (s : Session)
      (d : Direction), s = (Session.startingAt options position).afterAll calls →
      (s.history.entries = [] ∧ s.navigate d = ([], s)) ∨
        (0 ≤ (s.navigate d).2.history.position ∧
          (d = .up → (s.navigate d).2.history.position < s.history.entries.length) ∧
          s.recalled[(s.navigate d).2.history.position.toNat]? = some (s.navigate d).1)) ∧
    ∀ (s : Session) (draft : Bytes) (walk : List Direction),
      s.history.entries ≠ [] → s.history.browsing = false →
      ((s.startBrowsing draft).lines walk).map some =
        (Direction.positions s.history.entries.length s.history.entries.length walk).map
          fun p => (s.history.entries ++ [draft])[p]? := by
  refine ⟨?_, ?_, ?_⟩
  · intro options position calls
    have kept : (Session.startingAt options position).history.entries =
        History.trim options.historySize [] := by
      simp [Session.startingAt, History.empty, History.trim]
    exact (Session.startingAt options position).afterAll_entries calls kept
  · rintro options position calls s d rfl
    have clamped : ((Session.startingAt options position).afterAll calls).history.Clamped :=
      Session.clamped_afterAll (fun some => absurd rfl some) calls
    by_cases empty : ((Session.startingAt options position).afterAll calls).history.entries = []
    · exact Or.inl ⟨empty, Session.navigate_empty empty d⟩
    · obtain ⟨index, moved, same, line⟩ := Session.navigate_line empty clamped d
      rw [moved, Int.toNat_natCast]
      refine Or.inr ⟨Int.natCast_nonneg _, ?_, line⟩
      rintro rfl
      obtain ⟨before, moved', -, inside, -⟩ := History.up_entry empty clamped
      rw [← moved]
      exact moved'.trans_lt (Int.ofNat_lt.mpr inside)
  · intro s draft walk some idle
    have started : (s.startBrowsing draft).history =
        ⟨s.history.entries, s.history.entries.length, draft, true⟩ := by
      simp [Session.startBrowsing, History.start, idle]
    have lines := Session.lines_eq (s := s.startBrowsing draft) (by rwa [started])
      (by rw [started]; exact fun _ => ⟨Int.natCast_nonneg _, Int.le_refl _⟩) walk
    rwa [Session.recalled, started] at lines

def threeAdded : Session :=
  (Session.new { plainOptions with historySize := 2 }).afterAll
    [.add (utf8 "a"), .add (utf8 "b"), .navigate .up, .add [], .add (utf8 "c")]

theorem history_log_and_cursor_three :
    threeAdded.history.entries = [utf8 "b", utf8 "c"] ∧ threeAdded.history.browsing = false ∧
      (threeAdded.startBrowsing (utf8 "x")).lines [.up, .up, .up, .down, .down, .down, .up] =
        [utf8 "c", utf8 "b", utf8 "b", utf8 "c", utf8 "x", utf8 "x", utf8 "c"] := by
  obtain ⟨log, -, cursor⟩ := history_log_and_cursor
  have entries : threeAdded.history.entries = [utf8 "b", utf8 "c"] := by
    rw [threeAdded, ← Session.startingAt_new, log]
    decide +kernel
  have idle : threeAdded.history.browsing = false := by decide +kernel
  have lines :=
    cursor threeAdded (utf8 "x") [.up, .up, .up, .down, .down, .down, .up] (by simp [entries]) idle
  rw [entries] at lines
  exact ⟨entries, idle, List.map_injective_iff.mpr (fun _ _ => Option.some.inj) lines⟩

end CallScript
