import CallScript.Proofs.Program.Cuts
import Mathlib.Data.List.Induction

/- Two texts with a newline between them. If the first is accepted, the second is read as if it
   stood alone, and what is wrong with it is reported as many bytes and lines later as it starts.
   What is wrong with the first, unless it is only incomplete, is reported whatever the second
   is. -/
namespace CallScript

theorem lineColumn_snoc (text : Bytes) (c : UInt8) :
    lineColumn (text ++ [c]) =
      if c = Bytes.newline then ((lineColumn text).1 + 1, 1)
      else ((lineColumn text).1, (lineColumn text).2 + 1) := by
  simp [lineColumn]

theorem lineColumn_line (text : Bytes) : (lineColumn text).1 = text.count Bytes.newline + 1 := by
  induction text using List.reverseRecOn with
  | nil => rfl
  | append_singleton text c ih =>
    rw [lineColumn_snoc, List.count_append]
    by_cases newline : c = Bytes.newline
    · simp [newline, ih]
    · simp [newline, ih]

theorem lineColumn_joined (before text : Bytes) :
    lineColumn (before ++ Bytes.newline :: text) =
      ((lineColumn text).1 + (before.count Bytes.newline + 1), (lineColumn text).2) := by
  induction text using List.reverseRecOn with
  | nil =>
    rw [lineColumn_snoc, if_pos rfl, lineColumn_line]
    show _ = (1 + (before.count Bytes.newline + 1), 1)
    rw [Nat.add_comm 1]
  | append_singleton text c ih =>
    rw [← List.cons_append, ← List.append_assoc, lineColumn_snoc, lineColumn_snoc, ih]
    by_cases newline : c = Bytes.newline
    · simp only [if_pos newline, Nat.add_right_comm]
    · simp only [if_neg newline]

def ParseError.after (before : Bytes) (e : ParseError) : ParseError :=
  { e with
    position := e.position + (before.length + 1), line :=
      e.line + (before.count Bytes.newline + 1) }

theorem Rejection.locate_eq (text : Bytes) (e : Rejection) :
    e.locate text =
      { e with
        line := (lineColumn (text.take e.position)).1, column :=
          (lineColumn (text.take e.position)).2 } := rfl

theorem Rejection.locate_later (before text : Bytes) (e : Rejection) :
    (e.later (before.length + 1)).locate (before ++ Bytes.newline :: text) =
      (e.locate text).after before := by
  have prior : (before ++ Bytes.newline :: text).take (e.position + (before.length + 1)) =
      before ++ Bytes.newline :: text.take e.position := by
    rw [List.take_append, List.take_of_length_le (by omega)]
    have left : e.position + (before.length + 1) - before.length = e.position + 1 := by omega
    rw [left, List.take_succ_cons]
  simp only [locate_eq, later, ParseError.after, prior, lineColumn_joined]

theorem Rejection.locate_append {e : Rejection} {text : Bytes} (inside : e.position ≤ text.length)
    (more : Bytes) :
    e.locate (text ++ more) = e.locate text := by
  simp only [locate_eq, List.take_append_of_le_length inside]

namespace Program

theorem ofText_newline {a : Bytes} {r : Reader} (reads : Reader.start.read a = .ok r) (b : Bytes) :
    ofText (a ++ Bytes.newline :: b) =
      (r.advance Bytes.newline >>= fun q => { q with position := q.position + 1 }.read b >>=
        Reader.finish) := by
  unfold ofText
  rw [Reader.read_append, reads]
  show ((Bytes.newline :: b).foldlM Reader.step r >>= Reader.finish) = _
  rw [List.foldlM_cons, Reader.step]
  cases r.advance Bytes.newline <;> rfl

theorem ofText_joined {a : Bytes} {p : Program} (accepted : ofText a = .ok p) (b : Bytes) :
    ofText (a ++ Bytes.newline :: b) =
      ((ofText b).map (p ++ ·)).mapError (·.later (a.length + 1)) := by
  have placed := Reader.at_start.read a
  unfold ofText at accepted
  cases reads : Reader.start.read a with
  | error e =>
    rw [reads] at accepted
    cases accepted
  | ok r =>
    rw [reads] at accepted placed
    have placed : r.At a.length := by rwa [Nat.zero_add] at placed
    have finished : r.finish = .ok p := accepted
    rw [ofText_newline reads]
    cases placed.ending with
    | complete outside done advanced =>
      rw [finished] at done
      cases done
      rw [advanced, ← placed.position]
      exact Reader.read_anew outside b
    | wrong _ failed | named failed | within failed =>
      rw [finished] at failed
      cases failed

theorem ofText_wrong {a : Bytes} {e : Rejection} (rejected : ofText a = .error e)
    (final : e.incomplete = false) (b : Bytes) :
    e.position ≤ a.length ∧ ofText (a ++ Bytes.newline :: b) = .error e := by
  have placed := Reader.at_start.read a
  rw [Nat.zero_add] at placed
  cases reads : Reader.start.read a with
  | error e' =>
    unfold ofText at rejected ⊢
    rw [Reader.read_append]
    rw [reads] at rejected placed ⊢
    cases rejected
    exact ⟨placed.1, rfl⟩
  | ok r =>
    unfold ofText at rejected
    rw [reads] at rejected placed
    have finished : r.finish = .error e := rejected
    have stepped := Reader.At.advance placed Bytes.newline
    rw [ofText_newline reads]
    cases Reader.At.ending placed with
    | complete _ done =>
      rw [finished] at done
      cases done
    | wrong _ failed advanced =>
      rw [finished] at failed
      cases failed
      rw [advanced] at stepped ⊢
      exact ⟨stepped.1, rfl⟩
    | named failed | within failed =>
      rw [finished] at failed
      cases failed
      cases final

/-- Lines are read one after another: what follows a newline is a program of its own if what stands
before it is. -/
theorem parse_newline (a b : Bytes) :
    (∀ p, parse a = .ok p →
      parse (a ++ Bytes.newline :: b) = ((parse b).map (p ++ ·)).mapError (·.after a)) ∧
    ∀ e, parse a = .error e → e.incomplete = false →
      parse (a ++ Bytes.newline :: b) = .error e := by
  constructor
  · intro p parsed
    unfold parse at parsed ⊢
    cases accepted : ofText a with
    | error e =>
      rw [accepted] at parsed
      cases parsed
    | ok p =>
      rw [accepted] at parsed
      cases parsed
      rw [ofText_joined accepted]
      cases ofText b with
      | ok q => rfl
      | error e => exact congrArg Except.error (e.locate_later a b)
  · intro e parsed final
    unfold parse at parsed ⊢
    cases rejected : ofText a with
    | ok p =>
      rw [rejected] at parsed
      cases parsed
    | error e =>
      rw [rejected] at parsed
      cases parsed
      obtain ⟨inside, same⟩ := ofText_wrong rejected final b
      rw [same]
      exact congrArg Except.error (e.locate_append inside _)

theorem parse_newline_third :
    parse (utf8 "f()\n//x" ++ Bytes.newline :: utf8 "g(,") =
      .error ⟨⟨10, .unexpectedComma, false⟩, 3, 3⟩ ∧
    ∀ b, parse (utf8 "f(1." ++ Bytes.newline :: b) =
      .error ⟨⟨2, .invalidNumber (utf8 "1."), false⟩, 1, 3⟩ := by
  have first : parse (utf8 "f()\n//x") = .ok [⟨utf8 "f", []⟩] := by decide +kernel
  have second : parse (utf8 "g(,") = .error ⟨⟨2, .unexpectedComma, false⟩, 1, 3⟩ := by
    decide +kernel
  have number : parse (utf8 "f(1.") = .error ⟨⟨2, .invalidNumber (utf8 "1."), false⟩, 1, 3⟩ := by
    decide +kernel
  constructor
  · rw [(parse_newline _ _).1 _ first, second]
    rfl
  · intro b
    exact (parse_newline _ b).2 _ number rfl

end Program
end CallScript
