import Mathlib.Data.List.DropRight
import CallScript.Proofs.Program.Agreement

/- Where a text is rejected. The position lies in the text, or at its end. The line counts the
   newlines before it, and the column the bytes since the last of them. A text that only ends too
   early is rejected at the first byte of the innermost string, invocation or name that is still
   open. -/
namespace CallScript

open Grammar

theorem lineColumn_column (text : Bytes) :
    (lineColumn text).2 = (text.rtakeWhile (· ≠ Bytes.newline)).length + 1 := by
  induction text using List.reverseRecOn with
  | nil => rfl
  | append_singleton text c ih =>
    rw [lineColumn_snoc]
    by_cases newline : c = Bytes.newline
    · rw [if_pos newline, List.rtakeWhile_concat_neg _ _ _ (by simp [newline])]
      rfl
    · rw [if_neg newline, List.rtakeWhile_concat_pos _ _ _ (by simp [newline]), List.length_append,
        ih]
      rfl

theorem Program.exists_rejection {text : Bytes} {e : ParseError}
    (rejected : parse text = .error e) : ∃ r, ofText text = .error r ∧ e = r.locate text := by
  unfold parse at rejected
  cases found : ofText text with
  | ok p =>
    rw [found] at rejected
    cases rejected
  | error r =>
    rw [found] at rejected
    cases rejected
    exact ⟨r, rfl, rfl⟩

theorem Grammar.Unfinished.rejected {u : Unfinished} {r : Rejection} (valid : u.Valid)
    (rejected : Program.ofText u.text = .error r) :
    r.incomplete = true ∧ r.position < u.text.length ∧ u.text.drop r.position = u.innermost := by
  obtain ⟨before, fault, split, lacks⟩ := Reader.lacks_unfinished u 0 [] valid
  have known : Reader.result 0 [] [] .blank u.text = .error r := rejected
  rw [known, Nat.zero_add] at lacks
  cases lacks
  refine ⟨rfl, ?_, ?_⟩
  · have positive := List.length_pos_iff.mpr (innermost_nonempty valid)
    rw [split, List.length_append]
    exact Nat.lt_add_of_pos_right positive
  · rw [split]
    exact List.drop_left

theorem Program.rejection_inside {text : Bytes} {r : Rejection}
    (rejected : ofText text = .error r) : r.position ≤ text.length := by
  cases incomplete : r.incomplete with
  | false => exact (ofText_wrong rejected incomplete []).1
  | true =>
    obtain ⟨u, valid, rfl⟩ := Descent.exists_unfinished rejected incomplete
    exact Nat.le_of_lt (u.rejected valid rejected).2.1

/-- Reading by descent ends with three more units of fuel than the text has bytes, or with any more
than that. It takes no byte and no slice that the text does not have, and gives what `Program.parse`
does. An error lies in the text, and its line and column are those of its position. It is incomplete
exactly if the text is an unfinished derivation, and then the innermost part of it that is still
open starts at the position. -/
theorem parse_safe_errors_placed (text : Bytes) :
    (∀ fuel, text.length + 3 ≤ fuel →
      Descent.parse text fuel = (Program.parse text).mapError .rejected) ∧
    ∀ e, Program.parse text = .error e →
      e.position ≤ text.length ∧
      e.line = 1 + (text.take e.position).count Bytes.newline ∧
      e.column = 1 + ((text.take e.position).rtakeWhile (· ≠ Bytes.newline)).length ∧
      (e.incomplete = true ↔ ∃ u : Unfinished, u.Valid ∧ u.text = text) ∧
      ∀ u : Unfinished, u.Valid → u.text = text →
        e.position < text.length ∧ text.drop e.position = u.innermost := by
  refine ⟨fun fuel enough => Descent.parse_eq text enough, fun e failed => ?_⟩
  obtain ⟨r, rejected, rfl⟩ := Program.exists_rejection failed
  refine ⟨Program.rejection_inside rejected, ?_, ?_, ⟨Descent.exists_unfinished rejected, ?_⟩, ?_⟩
  · rw [Nat.add_comm]
    exact lineColumn_line _
  · rw [Nat.add_comm]
    exact lineColumn_column _
  · rintro ⟨u, valid, rfl⟩
    exact (u.rejected valid rejected).1
  · rintro u valid rfl
    exact (u.rejected valid rejected).2

theorem parse_safe_errors_placed_string :
    let text := utf8 "f(1)\n g(x, h(\"a"
    Program.parse text = .error ⟨⟨13, .unclosedString, true⟩, 2, 9⟩ ∧
    Descent.parse text 18 = .error (.rejected ⟨⟨13, .unclosedString, true⟩, 2, 9⟩) ∧
    ((text.take 13).rtakeWhile (· ≠ Bytes.newline)).length = 8 ∧
    ∃ u : Unfinished, u.Valid ∧ u.text = text ∧ u.innermost = utf8 "\"a" := by
  intro text
  have failed : Program.parse text = .error ⟨⟨13, .unclosedString, true⟩, 2, 9⟩ := by decide +kernel
  have length : text.length + 3 ≤ 18 := by decide +kernel
  obtain ⟨descent, placed⟩ := parse_safe_errors_placed text
  obtain ⟨_, _, column, incomplete, innermost⟩ := placed _ failed
  obtain ⟨u, valid, same⟩ := incomplete.mp rfl
  refine ⟨failed, by rw [descent 18 length, failed]; rfl, ?_, u, valid, same, ?_⟩
  · exact (Nat.add_left_cancel column).symm
  · rw [← (innermost u valid same).2]
    decide +kernel

end CallScript
