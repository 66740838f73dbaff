import CallScript.Proofs.Program.Joining

/- What may follow the text that a session keeps. It ends in a newline. If an invocation was open
   before it, one more line completes it: a quote if a string is open too, and a parenthesis for
   each invocation. After a name outside of all invocations nothing does: the newline has separated
   the name from the parenthesis that has to follow it, and that is the error whatever the next
   lines are. -/
namespace CallScript

namespace Reader

open Lexical

def closing (r : Reader) : Bytes :=
  match r.mode with
  | .string _ _ => ascii '"' :: List.replicate r.stack.length (ascii ')')
  | _ => List.replicate r.stack.length (ascii ')')

theorem newline_not_mem_closing (r : Reader) : Bytes.newline ∉ r.closing := by
  have other : Bytes.newline ≠ ascii ')' ∧ Bytes.newline ≠ ascii '"' := by decide
  unfold closing
  split
  · simp [other]
  · simp [other]

theorem close_cons {r : Reader} {top : OpenCall} {rest : List OpenCall}
    (held : r.stack = top :: rest) :
    r.close.stack.length = rest.length ∧ r.close.mode = .blank := by
  unfold close
  rw [held]
  cases rest with
  | nil => exact ⟨rfl, rfl⟩
  | cons outer rest => exact ⟨rfl, rfl⟩

theorem step_of_advance {r q : Reader} {c : UInt8} (advanced : r.advance c = .ok q) :
    r.step c = .ok { q with position := q.position + 1 } := by
  rw [step, advanced]
  rfl

theorem step_parenthesis {r : Reader} (mode : r.mode = .blank) (inside : r.stack ≠ []) :
    r.step (ascii ')') = .ok { r.close with position := r.close.position + 1 } := by
  have some : r.stack.isEmpty = false := by simpa using inside
  apply step_of_advance
  simp only [advance, mode, stepBlank, some]
  rfl

theorem read_parentheses {r : Reader} (mode : r.mode = .blank) :
    ∃ q, r.read (List.replicate r.stack.length (ascii ')')) = .ok q ∧
      q.finish = .ok q.done.reverse := by
  induction depth : r.stack.length generalizing r with
  | zero =>
    have outside : r.stack = [] := List.length_eq_zero_iff.mp depth
    refine ⟨r, rfl, ?_⟩
    simp only [finish, mode, endBlank, outside]
  | succ n ih =>
    obtain ⟨top, rest, held⟩ := List.exists_cons_of_length_eq_add_one depth
    obtain ⟨fewer, blank⟩ := close_cons held
    rw [held, List.length_cons] at depth
    have stepped := step_parenthesis mode (by simp [held])
    obtain ⟨q, reads, finished⟩ := @ih { r.close with position := r.close.position + 1 } blank (by
      show r.close.stack.length = n
      omega)
    refine ⟨q, ?_, finished⟩
    unfold read
    rw [List.replicate_succ, List.foldlM_cons, stepped]
    exact reads

theorem step_quote {r : Reader} {first : Nat} {text : Bytes} (mode : r.mode = .string first text)
    (inside : r.stack ≠ []) :
    ∃ q, r.step (ascii '"') = .ok q ∧ q.mode = .blank ∧ q.stack.length = r.stack.length := by
  obtain ⟨top, rest, held⟩ := List.exists_cons_of_ne_nil inside
  have advanced : r.advance (ascii '"') =
      .ok (r.addArgument (.literal (.string text.reverse))) := by
    rw [advance, mode]
    rfl
  refine ⟨_, step_of_advance advanced, (addArgument_inside inside _).2, ?_⟩
  simp [addArgument, held]

theorem read_closing {r : Reader} (inside : r.stack ≠ [])
    (mode : r.mode = .blank ∨ ∃ first text, r.mode = .string first text) :
    ∃ q, r.read r.closing = .ok q ∧ q.finish = .ok q.done.reverse := by
  rcases mode with blank | ⟨first, text, string⟩
  · have closing : r.closing = List.replicate r.stack.length (ascii ')') := by rw [closing, blank]
    rw [closing]
    exact read_parentheses blank
  · have closing : r.closing = ascii '"' :: List.replicate r.stack.length (ascii ')') := by
      rw [closing, string]
    obtain ⟨q, stepped, blank, same⟩ := step_quote string inside
    obtain ⟨q', reads, finished⟩ := read_parentheses blank
    rw [same] at reads
    refine ⟨q', ?_, finished⟩
    unfold read
    rw [closing, List.foldlM_cons, stepped]
    exact reads

end Reader

namespace Program

/-- What lacks a text that ends too early, if a line ends there too. -/
theorem ofText_incomplete {text : Bytes} {e : Rejection} (rejected : ofText text = .error e)
    (incomplete : e.incomplete = true) :
    ((∃ name, e.fault = .parenthesisExpected name) ∧
      ∀ more, ofText (text ++ Bytes.newline :: more) = .error ⟨text.length, e.fault, false⟩) ∨
    ((∀ name, e.fault ≠ .parenthesisExpected name) ∧
      ∃ more p, Bytes.newline ∉ more ∧ ofText (text ++ Bytes.newline :: more) = .ok p) := by
  have placed := Reader.at_start.read text
  rw [Nat.zero_add] at placed
  unfold ofText at rejected
  cases reads : Reader.start.read text with
  | error e' =>
    rw [reads] at rejected placed
    cases rejected
    rw [placed.2] at incomplete
    cases incomplete
  | ok r =>
    rw [reads] at rejected placed
    have placed : r.At text.length := placed
    have finished : r.finish = .error e := rejected
    -- What is open where the text ends is a name without its parenthesis, which a newline ends, or
    -- something that goes on after the newline.
    cases placed.ending with
    | complete _ done =>
      rw [finished] at done
      cases done
    | wrong final failed =>
      rw [finished] at failed
      cases failed
      rw [final] at incomplete
      cases incomplete
    | @named first name failed advanced =>
      rw [finished] at failed
      cases failed
      left
      refine ⟨⟨name, rfl⟩, ?_⟩
      intro more
      rw [ofText_newline reads, advanced, placed.position]
      rfl
    | @within q first fault failed other advanced inside mode =>
      rw [finished] at failed
      cases failed
      right
      obtain ⟨q', closed, done⟩ :=
        @Reader.read_closing { q with position := q.position + 1 } inside mode
      have accepted :
          ofText (text ++ Bytes.newline :: { q with position := q.position + 1 }.closing) =
          .ok q'.done.reverse := by
        rw [ofText_newline reads, advanced, ← done]
        show ({ q with position := q.position + 1 }.read _ >>= Reader.finish) = _
        rw [closed]
        rfl
      exact ⟨other, _, _, Reader.newline_not_mem_closing _, accepted⟩

theorem parse_error {text : Bytes} {e : ParseError} (parsed : parse text = .error e) :
    ofText text = .error e.toRejection := by
  unfold parse at parsed
  cases rejected : ofText text with
  | ok p =>
    rw [rejected] at parsed
    cases parsed
  | error e =>
    rw [rejected] at parsed
    cases parsed
    rfl

/-- After a name outside of all invocations, a newline is an error, and no text behind it changes
that. -/
theorem parse_parted {text : Bytes} {e : ParseError} (parsed : parse text = .error e)
    (incomplete : e.incomplete = true) {name : Name} (named : e.fault = .parenthesisExpected name)
    (more : Bytes) :
    parse (text ++ [Bytes.newline] ++ more) =
      .error (Rejection.locate text ⟨text.length, .parenthesisExpected name, false⟩) := by
  rcases ofText_incomplete (parse_error parsed) incomplete with ⟨-, rejected⟩ | ⟨other, -⟩
  · rw [List.append_assoc, List.singleton_append, parse, rejected, named]
    exact congrArg Except.error (Rejection.locate_append (Nat.le_refl text.length) _)
  · exact absurd named (other name)

theorem parse_completed {text : Bytes} {e : ParseError} (parsed : parse text = .error e)
    (incomplete : e.incomplete = true) (other : ∀ name, e.fault ≠ .parenthesisExpected name) :
    ∃ more p, Bytes.newline ∉ more ∧ parse (text ++ [Bytes.newline] ++ more) = .ok p := by
  rcases ofText_incomplete (parse_error parsed) incomplete with
    ⟨⟨name, named⟩, -⟩ | ⟨-, more, p, line, accepted⟩
  · exact absurd named (other name)
  · refine ⟨more, p, line, ?_⟩
    rw [List.append_assoc, List.singleton_append, parse, accepted]
    rfl

end Program

namespace Session

theorem runProgram_complete (s : Session) (fuel : Nat) (patience : Patience) (p : Program) :
    (s.runProgram fuel patience p).1.incomplete = false := by
  unfold runProgram
  dsimp only
  split
  · rfl
  · rfl

theorem lookup_complete (s : Session) (name : Name) : (s.lookup name).incomplete = false := by
  unfold lookup
  split
  · rfl
  · rfl

theorem eval_incomplete {s : Session} {fuel : Nat} {patience : Patience} {line : Bytes}
    (incomplete : (s.eval fuel patience line).1.incomplete = true) :
    ∃ e, Program.parse (s.pending ++ line) = .error e ∧ e.incomplete = true ∧
      (s.eval fuel patience line).2 =
        { s with pending := s.pending ++ line ++ [Bytes.newline] } := by
  unfold eval at incomplete ⊢
  dsimp only at incomplete ⊢
  by_cases word : isIdentifier (s.pending ++ line).trim = true
  · rw [if_pos word, lookup_complete] at incomplete
    cases incomplete
  · rw [if_neg word] at incomplete ⊢
    cases parsed : Program.parse (s.pending ++ line) with
    | ok p =>
      simp only [parsed, runProgram_complete] at incomplete
      cases incomplete
    | error e =>
      simp only [parsed] at incomplete ⊢
      by_cases lacks : e.incomplete = true
      · rw [if_pos lacks]
        exact ⟨e, rfl, lacks, rfl⟩
      · rw [if_neg lacks] at incomplete
        cases incomplete

theorem eval_rejected {s : Session} {line : Bytes} {e : ParseError}
    (parsed : Program.parse (s.pending ++ line) = .error e) (final : e.incomplete = false)
    (fuel : Nat) (patience : Patience) : (s.eval fuel patience line).2.pending = [] := by
  simp only [eval, parsed, final]
  split
  · rfl
  · rfl

/-- What a session keeps can be completed by one more line, which runs it, unless it ends in a name
outside of all invocations. Then it is rejected with every line that may follow, and dropped. -/
theorem kept_line_completed (s : Session) (fuel : Nat) (patience : Patience) (line : Bytes)
    (incomplete : (s.eval fuel patience line).1.incomplete = true) :
    ∃ e next, Program.parse (s.pending ++ line) = .error e ∧ (s.eval fuel patience line).2 = next ∧
      next.pending = s.pending ++ line ++ [Bytes.newline] ∧
      ((∀ name, e.fault ≠ .parenthesisExpected name) →
        ∃ more p, Bytes.newline ∉ more ∧ Program.parse (next.pending ++ more) = .ok p ∧
          ∀ fuel patience, next.eval fuel patience more = next.reset.runProgram fuel patience p) ∧
      ∀ name, e.fault = .parenthesisExpected name → ∀ more,
        Program.parse (next.pending ++ more) = .error (Rejection.locate (s.pending ++ line)
          ⟨(s.pending ++ line).length, .parenthesisExpected name, false⟩) ∧
        ∀ fuel patience, (next.eval fuel patience more).2.pending = [] := by
  obtain ⟨e, parsed, lacks, same⟩ := eval_incomplete incomplete
  refine ⟨e, _, parsed, same, rfl, ?_, ?_⟩
  · intro other
    obtain ⟨more, p, oneLine, accepted⟩ := Program.parse_completed parsed lacks other
    refine ⟨more, p, oneLine, accepted, ?_⟩
    intro fuel patience
    have word := Program.parse_ok_no_word accepted
    simp only [eval, word, accepted]
    rfl
  · intro name named more
    have rejected := Program.parse_parted parsed lacks named more
    exact ⟨rejected, fun fuel patience => eval_rejected rejected rfl fuel patience⟩

def plainSession : Session := .new ⟨[], [], [], [], [], 0, 0, false⟩

theorem kept_line_completed_string :
    (plainSession.eval 0 .endless (utf8 "f(x, g(\"a\\")).1.incomplete = true ∧
    ∃ more p,
      Program.parse ((plainSession.eval 0 .endless (utf8 "f(x, g(\"a\\")).2.pending ++ more) =
        .ok p := by
  have incomplete : (plainSession.eval 0 .endless (utf8 "f(x, g(\"a\\")).1.incomplete = true := by
    decide +kernel
  have parsed : Program.parse (utf8 "f(x, g(\"a\\") =
      .error ⟨⟨7, .unclosedString, true⟩, 1, 8⟩ := by decide +kernel
  obtain ⟨e, next, rejected, same, -, completed, -⟩ :=
    kept_line_completed plainSession 0 .endless _ incomplete
  cases parsed.symm.trans rejected
  obtain ⟨more, p, -, accepted, -⟩ := completed (by simp)
  rw [same]
  exact ⟨incomplete, more, p, accepted⟩

/-- A name behind an invocation is kept, and nothing completes it. -/
theorem name_kept_in_vain :
    (plainSession.eval 0 .endless (utf8 "println(\"a\") println")).1.incomplete = true ∧
    ∀ more p,
      Program.parse ((plainSession.eval 0 .endless (utf8 "println(\"a\") println")).2.pending ++
        more) ≠ .ok p := by
  have incomplete : (plainSession.eval 0 .endless (utf8 "println(\"a\") println")).1.incomplete =
      true := by
    decide +kernel
  have parsed : Program.parse (utf8 "println(\"a\") println") =
      .error ⟨⟨13, .parenthesisExpected (utf8 "println"), true⟩, 1, 14⟩ := by decide +kernel
  obtain ⟨-, -, -, same⟩ := eval_incomplete incomplete
  refine ⟨incomplete, ?_⟩
  intro more p accepted
  rw [same] at accepted
  cases (Program.parse_parted parsed rfl rfl more).symm.trans accepted

end Session

end CallScript
