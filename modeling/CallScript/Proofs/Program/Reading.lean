import CallScript.Proofs.Program.Lexemes

/- What comes of a text from each state of the reader, a program or a rejection with its position.
   There is one equation for each kind of token, from the state before it to the state after it, as
   many bytes later as the token has; and one for each way in which a text is rejected. -/
namespace CallScript.Reader

open Grammar Lexical

/-- What comes of the rest of a text, from a state of the reader. -/
def result (p : Nat) (done : List Invocation) (stack : List OpenCall) (mode : Mode) (text : Bytes) :
    Except Rejection Program :=
  (⟨p, done, stack, mode⟩ : Reader).read text >>= finish

def given (a : Argument) (top : OpenCall) : OpenCall :=
  { top with args := a :: top.args, afterComma := false }

variable {p : Nat} {done : List Invocation} {stack : List OpenCall} {mode : Mode} {c : UInt8}
  {text : Bytes}

theorem result_ok {done' : List Invocation} {stack' : List OpenCall} {mode' : Mode}
    (advanced : (⟨p, done, stack, mode⟩ : Reader).advance c = .ok ⟨p, done', stack', mode'⟩) :
    result p done stack mode (c :: text) = result (p + 1) done' stack' mode' text := by
  unfold result read
  rw [List.foldlM_cons, step, advanced]
  rfl

theorem result_error {e : Rejection}
    (advanced : (⟨p, done, stack, mode⟩ : Reader).advance c = .error e) :
    result p done stack mode (c :: text) = .error e := by
  unfold result read
  rw [List.foldlM_cons, step, advanced]
  rfl

theorem result_same {done' : List Invocation} {stack' : List OpenCall} {mode' : Mode}
    (same : (⟨p, done, stack, mode⟩ : Reader).advance c =
      (⟨p, done', stack', mode'⟩ : Reader).advance c) :
    result p done stack mode (c :: text) = result p done' stack' mode' (c :: text) := by
  unfold result read
  rw [List.foldlM_cons, List.foldlM_cons, step, step, same]

section Gaps

theorem result_space (space : isSpace c = true) :
    result p done stack .blank (c :: text) = result (p + 1) done stack .blank text :=
  result_ok (by simp [advance, stepBlank, space])

theorem result_slashes :
    result p done stack .blank (ascii '/' :: ascii '/' :: text) =
      result (p + 2) done stack .comment text := by
  have first : (⟨p, done, stack, .blank⟩ : Reader).advance (ascii '/') =
      .ok ⟨p, done, stack, .slash p []⟩ := by
    simp [advance, stepBlank, show isSpace (ascii '/') = false by decide]
  have second : (⟨p + 1, done, stack, .slash p []⟩ : Reader).advance (ascii '/') =
      .ok ⟨p + 1, done, stack, .comment⟩ := by
    simp [advance]
  rw [result_ok first, result_ok second]

theorem result_comment {line : Bytes} (unbroken : Bytes.newline ∉ line) :
    result p done stack .comment (line ++ text) =
      result (p + line.length) done stack .comment text := by
  induction line generalizing p with
  | nil => rfl
  | cons c line ih =>
    simp only [List.mem_cons, not_or] at unbroken
    have step : (⟨p, done, stack, .comment⟩ : Reader).advance c =
        .ok ⟨p, done, stack, .comment⟩ := by
      simp [advance, Ne.symm unbroken.1]
    rw [List.cons_append, result_ok step, ih unbroken.2, List.length_cons, Nat.add_assoc,
      Nat.add_comm 1]

theorem result_newline :
    result p done stack .comment (Bytes.newline :: text) = result (p + 1) done stack .blank text :=
  result_ok (by simp [advance])

theorem result_comment_end : result p done stack .comment [] = result p done stack .blank [] := rfl

theorem result_gap {gap : Gap} (valid : GapValid gap) :
    result p done stack .blank (gapText gap ++ text) =
      result (p + (gapText gap).length) done stack .blank text := by
  induction gap generalizing p with
  | nil => rfl
  | cons f gap ih =>
    rw [gapText_cons, List.append_assoc, List.length_append, ← Nat.add_assoc]
    cases f with
    | blank c =>
      have space : isSpace c = true := valid _ List.mem_cons_self
      rw [Filler.text, List.singleton_append, result_space space, ih valid.tail,
        List.length_singleton]
    | comment line =>
      have unbroken : Bytes.newline ∉ line := valid _ List.mem_cons_self
      have length : (Filler.comment line).text.length = 2 + line.length + 1 := by
        simp [Filler.text]; omega
      rw [length]
      simp only [Filler.text, List.cons_append, List.append_assoc, List.nil_append]
      rw [result_slashes, result_comment unbroken, result_newline, ih valid.tail]
      simp only [Nat.add_assoc]

end Gaps

section Names

/-- What comes of the text after a name that no parenthesis follows. Outside of all invocations it
is rejected: where it starts if the text ends with it, and else where it ends. -/
def resultIdent (p start : Nat) (done : List Invocation) (stack : List OpenCall) (name : Name)
    (text : Bytes) :
    Except Rejection Program :=
  match stack with
  | [] =>
    if text.isEmpty then lacking start (.parenthesisExpected name)
    else reject p (.parenthesisExpected name)
  | top :: rest => result p done (given (.ident name) top :: rest) .blank text

theorem resultIdent_outside {start : Nat} {name : Name} {program : Program} :
    resultIdent p start done [] name text ≠ .ok program := by
  intro accepted
  rw [resultIdent] at accepted
  split at accepted
  · cases accepted
  · cases accepted

def resultClosed (p : Nat) (done : List Invocation) (stack : List OpenCall) (inv : Invocation)
    (text : Bytes) :
    Except Rejection Program :=
  match stack with
  | [] => result p (inv :: done) [] .blank text
  | top :: rest => result p done (given (.call inv.name inv.args) top :: rest) .blank text

theorem result_open_word {start : Nat} {name : Name} :
    result p done stack (.word start name.reverse) (ascii '(' :: text) =
      result (p + 1) done (⟨name, start, [], false⟩ :: stack) .blank text :=
  result_ok (by simp [advance, openCall, show isWordPart (ascii '(') = false by decide])

theorem result_open_operator {start : Nat} {name : Name} :
    result p done stack (.operator start name.reverse) (ascii '(' :: text) =
      result (p + 1) done (⟨name, start, [], false⟩ :: stack) .blank text :=
  result_ok (by
    simp [advance, stepOperator, openCall, show isOperator (ascii '(') = false by decide,
      show ascii '(' ≠ ascii '/' by decide])

theorem result_endName {start : Nat} {name : Name}
      (ends : (⟨p, done, stack, mode⟩ : Reader).advance c =
    (⟨p, done, stack, mode⟩ : Reader).endName p name >>= (·.stepBlank c)) :
    result p done stack mode (c :: text) = resultIdent p start done stack name (c :: text) := by
  cases stack with
  | nil => exact result_error ends
  | cons top rest => exact result_same ends

theorem result_word {word after : Bytes} (starts : startsWith isWordStart word = true)
    (longest : Longest (startsWith isWordPart) word after) :
    result p done stack .blank (word ++ after) =
      result (p + word.length) done stack (.word p word.reverse) after := by
  -- The bytes of a word are collected, the latest first.
  have collected : ∀ (run read : Bytes) (q : Nat), Longest (startsWith isWordPart) run after →
      result q done stack (.word p read) (run ++ after) =
        result (q + run.length) done stack (.word p (run.reverse ++ read)) after := by
    intro run
    induction run with
    | nil => exact fun read q _ => rfl
    | cons c run ih =>
      intro read q longest
      have part : isWordPart c = true := longest.1
      have step : (⟨q, done, stack, .word p read⟩ : Reader).advance c =
          .ok ⟨q, done, stack, .word p (c :: read)⟩ := by
        simp [advance, part]
      rw [List.cons_append, result_ok step, ih _ _ longest.2, List.length_cons, Nat.add_assoc,
        Nat.add_comm 1]
      simp
  cases word with
  | nil => cases starts
  | cons c run =>
    have start : isWordStart c = true := starts
    obtain ⟨_, space, operator, _⟩ := wordStart_kind c start
    have ne : c ≠ ascii '/' := by
      rintro rfl
      exact absurd start (by decide)
    have step : (⟨p, done, stack, .blank⟩ : Reader).advance c =
        .ok ⟨p, done, stack, .word p [c]⟩ := by
      simp [advance, stepBlank, space, ne, start]
    rw [List.cons_append, result_ok step, collected run [c] _ longest.2, List.length_cons,
      Nat.add_assoc, Nat.add_comm 1]
    simp

theorem result_slash {start : Nat} {operator : Bytes}
    (single : startsWith (· = ascii '/') text = false) :
    result p done stack (.slash start operator) text =
      result p done stack (.operator start (ascii '/' :: operator)) text := by
  cases text with
  | nil =>
    cases stack with
    | nil => rfl
    | cons top rest => rfl
  | cons c rest =>
    have ne : c ≠ ascii '/' := by simpa [startsWith] using single
    apply result_same
    cases stack with
    | nil => simp [advance, stepOperator, ne, openCall, endName]
    | cons top rest => simp [advance, stepOperator, ne, openCall, endName, addArgument]

theorem single_slash {c : UInt8} (isSlash : c = ascii '/')
    (noComment : startsComment (c :: text) = false) :
    startsWith (· = ascii '/') text = false := by
  cases text with
  | nil => rfl
  | cons d rest => simpa [startsComment, startsWith, isSlash] using noComment

theorem result_operator {operator after : Bytes} (some : operator ≠ [])
    (longest : Longest (fun text => startsWith isOperator text && !startsComment text)
      operator after) :
    result p done stack .blank (operator ++ after) =
      result (p + operator.length) done stack (.operator p operator.reverse) after := by
  have collected : ∀ (run read : Bytes) (q : Nat),
      Longest (fun text => startsWith isOperator text && !startsComment text) run after →
      result q done stack (.operator p read) (run ++ after) =
        result (q + run.length) done stack (.operator p (run.reverse ++ read)) after := by
    intro run
    induction run with
    | nil => exact fun read q _ => rfl
    | cons c run ih =>
      intro read q longest
      obtain ⟨goesOn, rest⟩ := longest
      simp only [startsWith, Bool.and_eq_true, Bool.not_eq_true'] at goesOn
      rw [List.cons_append, List.length_cons, Nat.add_comm run.length, ← Nat.add_assoc]
      by_cases isSlash : c = ascii '/'
      · have step : (⟨q, done, stack, .operator p read⟩ : Reader).advance c =
            .ok ⟨q, done, stack, .slash p read⟩ := by
          simp [advance, stepOperator, isSlash]
        rw [result_ok step, result_slash (single_slash isSlash goesOn.2), ← isSlash, ih _ _ rest]
        simp
      · have step : (⟨q, done, stack, .operator p read⟩ : Reader).advance c =
            .ok ⟨q, done, stack, .operator p (c :: read)⟩ := by
          simp [advance, stepOperator, isSlash, goesOn.1]
        rw [result_ok step, ih _ _ rest]
        simp
  cases operator with
  | nil => exact absurd rfl some
  | cons c run =>
    obtain ⟨goesOn, rest⟩ := longest
    simp only [startsWith, Bool.and_eq_true, Bool.not_eq_true'] at goesOn
    obtain ⟨_, word, space, _⟩ := operator_kind c goesOn.1
    rw [List.cons_append, List.length_cons, Nat.add_comm run.length, ← Nat.add_assoc]
    by_cases isSlash : c = ascii '/'
    · have step : (⟨p, done, stack, .blank⟩ : Reader).advance c =
          .ok ⟨p, done, stack, .slash p []⟩ := by
        simp [advance, stepBlank, isSlash, show isSpace (ascii '/') = false by decide]
      rw [result_ok step, result_slash (single_slash isSlash goesOn.2), ← isSlash,
        collected run [c] _ rest]
      simp
    · have step : (⟨p, done, stack, .blank⟩ : Reader).advance c =
          .ok ⟨p, done, stack, .operator p [c]⟩ := by
        simp [advance, stepBlank, space, isSlash, word, goesOn.1]
      rw [result_ok step, collected run [c] _ rest]
      simp

theorem result_call {name : Bytes} (isName : IsName name (ascii '(' :: text)) :
    result p done stack .blank (name ++ ascii '(' :: text) =
      result (p + name.length + 1) done (⟨name, p, [], false⟩ :: stack) .blank text := by
  rcases isName with ⟨starts, longest⟩ | ⟨some, longest⟩
  · rw [result_word starts longest, result_open_word]
  · rw [result_operator some longest, result_open_operator]

theorem result_before_comment {start : Nat} {operator : Bytes} (some : operator ≠ []) :
    result p done stack (.operator start operator.reverse) (ascii '/' :: ascii '/' :: text) =
      resultIdent p start done stack operator (ascii '/' :: ascii '/' :: text) := by
  have first : (⟨p, done, stack, .operator start operator.reverse⟩ : Reader).advance (ascii '/') =
      .ok ⟨p, done, stack, .slash start operator.reverse⟩ := by
    simp [advance, stepOperator]
  rw [result_ok first]
  cases stack with
  | nil =>
    apply result_error
    simp [advance, some, endName, reject, bind, Except.bind]
  | cons top rest =>
    have second : (⟨p + 1, done, top :: rest, .slash start operator.reverse⟩ : Reader).advance
        (ascii '/') = .ok ⟨p + 1, done, given (.ident operator) top :: rest, .comment⟩ := by
      simp [advance, some, endName, addArgument, given, bind, Except.bind]
    rw [result_ok second, resultIdent, result_slashes]

theorem result_ident {name after : Bytes} (isName : IsName name after)
    (plain : startsWith (· = ascii '(') after = false)
    (unsigned : name = [ascii '-'] → startsWith Bytes.isDigit after = false ∨ stack = []) :
    result p done stack .blank (name ++ after) =
      resultIdent (p + name.length) p done stack name after := by
  rcases isName with ⟨starts, longest⟩ | ⟨some, longest⟩
  · rw [result_word starts longest]
    have stops := longest.stops
    cases after with
    | nil =>
      cases stack with
      | nil =>
        simp [result, read, finish, endInName, resultIdent, pure, Except.pure, bind, Except.bind]
      | cons top rest =>
        simp [result, read, finish, endInName, resultIdent, addArgument, given, pure, Except.pure,
          bind, Except.bind]
    | cons c rest =>
      have part : isWordPart c = false := stops
      have open' : c ≠ ascii '(' := by simpa [startsWith] using plain
      apply result_endName
      simp [advance, part, open']
  · rw [result_operator some longest]
    have stops := longest.stops
    cases after with
    | nil =>
      cases stack with
      | nil =>
        simp [result, read, finish, endInName, resultIdent, pure, Except.pure, bind, Except.bind]
      | cons top rest =>
        simp [result, read, finish, endInName, resultIdent, addArgument, given, pure, Except.pure,
          bind, Except.bind]
    | cons c rest =>
      by_cases comment : startsComment (c :: rest) = true
      · obtain ⟨text, same⟩ := startsComment_eq comment
        rw [same, result_before_comment some]
      · have operator : isOperator c = false := by simpa [startsWith, comment] using stops
        have slash : c ≠ ascii '/' := by
          rintro rfl
          exact absurd operator (by decide)
        have open' : c ≠ ascii '(' := by simpa [startsWith] using plain
        have number : (Bytes.isDigit c && name.reverse == [ascii '-'] && !stack.isEmpty) =
            false := by
          by_cases minus : name = [ascii '-']
          · rcases unsigned minus with digit | outside
            · simp [show Bytes.isDigit c = false from digit]
            · simp [outside]
          · have : name.reverse ≠ [ascii '-'] :=
              fun same => minus (by simpa using congrArg List.reverse same)
            simp [this]
        apply result_endName
        simp [advance, stepOperator, slash, operator, open', number]

end Names

section Invocations

variable {top : OpenCall}

theorem result_close : result p done (top :: stack) .blank (ascii ')' :: text) =
    resultClosed (p + 1) done stack ⟨top.name, top.args.reverse⟩ text := by
  have closed : (⟨p, done, top :: stack, .blank⟩ : Reader).advance (ascii ')') =
      .ok (⟨p, done, top :: stack, .blank⟩ : Reader).close := by
    simp [advance, stepBlank, show isSpace (ascii ')') = false by decide,
      show ascii ')' ≠ ascii '/' by decide,
      show isWordStart (ascii ')') = false by decide, show isOperator (ascii ')') = false by decide]
  cases stack with
  | nil => exact result_ok closed
  | cons outer rest => exact result_ok closed

theorem result_comma : result p done (top :: stack) .blank (ascii ',' :: text) =
    if top.args.isEmpty || top.afterComma then reject p .unexpectedComma
    else result (p + 1) done ({ top with afterComma := true } :: stack) .blank text := by
  have comma : (⟨p, done, top :: stack, .blank⟩ : Reader).advance (ascii ',') =
      (⟨p, done, top :: stack, .blank⟩ : Reader).comma := by
    simp [advance, stepBlank, show isSpace (ascii ',') = false by decide,
      show ascii ',' ≠ ascii '/' by decide,
      show isWordStart (ascii ',') = false by decide, show isOperator (ascii ',') = false by decide,
      show ascii ',' ≠ ascii ')' by decide]
  unfold Reader.comma at comma
  split
  · rename_i refused
    apply result_error
    simp [comma, refused, reject]
  · rename_i allowed
    simp only [allowed] at comma
    exact result_ok comma

/-- Outside of all invocations only a name can stand. -/
theorem result_outside (space : isSpace c = false) (word : isWordStart c = false)
    (operator : isOperator c = false) :
    result p done [] .blank (c :: text) = reject p (.nameExpected c) := by
  have slash : c ≠ ascii '/' := by
    rintro rfl
    exact absurd operator (by decide)
  apply result_error
  simp [advance, stepBlank, space, slash, word, operator, reject]

theorem starts_outside {program : Program}
    (read : result p done [] .blank (c :: text) = .ok program) (settled : Settled (c :: text)) :
    startsComment (c :: text) = true ∨ isWordStart c = true ∨ isOperator c = true := by
  apply Classical.byContradiction
  intro other
  simp only [not_or, Bool.not_eq_true] at other
  obtain ⟨_, word, operator⟩ := other
  rw [result_outside settled.1 word operator] at read
  cases read

theorem result_inside (space : isSpace c = false) (word : isWordStart c = false)
    (operator : isOperator c = false) (digit : Bytes.isDigit c = false) (close : c ≠ ascii ')')
    (comma : c ≠ ascii ',') (quote : c ≠ ascii '"') :
    result p done (top :: stack) .blank (c :: text) = reject p (.unexpected c) := by
  have slash : c ≠ ascii '/' := by
    rintro rfl
    exact absurd operator (by decide)
  apply result_error
  simp [advance, stepBlank, space, slash, word, operator, digit, close, comma, quote, reject]

theorem starts_inside {program : Program}
    (read : result p done (top :: stack) .blank (c :: text) = .ok program)
    (settled : Settled (c :: text)) :
    startsComment (c :: text) = true ∨ isWordStart c = true ∨ isOperator c = true ∨
      Bytes.isDigit c = true ∨ c = ascii ')' ∨ c = ascii ',' ∨ c = ascii '"' := by
  apply Classical.byContradiction
  intro other
  simp only [not_or, Bool.not_eq_true] at other
  obtain ⟨_, word, operator, digit, close, comma, quote⟩ := other
  rw [result_inside settled.1 word operator digit close comma quote] at read
  cases read

end Invocations

end CallScript.Reader
