import CallScript.Proofs.Program.Endings
import CallScript.Proofs.Program.Resuming
import CallScript.Proofs.Text.Trimming
import CallScript.Session.Basic

/- Cutting a text at a newline. If a text is accepted, what stands before one of its newlines is
   either accepted by itself, or rejected as incomplete; and it is not a single word. So a text can
   be read line by line, the lines of a statement together. -/
namespace CallScript

namespace Reader

open Lexical

theorem unprinted_plain {c : UInt8} (unprinted : Unprinted c) :
    isWordPart c = false ∧ isWordStart c = false ∧ isOperator c = false ∧ c ≠ ascii '/' ∧
      c ≠ ascii '(' := by
  have all : ∀ n : Fin 256, (UInt8.ofNat n ≤ 32 ∨ 127 ≤ UInt8.ofNat n) →
      isWordPart (UInt8.ofNat n) = false ∧ isWordStart (UInt8.ofNat n) = false ∧
        isOperator (UInt8.ofNat n) = false ∧ UInt8.ofNat n ≠ ascii '/' ∧
          UInt8.ofNat n ≠ ascii '(' := by
    decide +kernel
  have this := all ⟨c.toNat, c.toNat_lt⟩
  simp only [UInt8.ofNat_toNat] at this
  exact this unprinted

structure Bare (r : Reader) : Prop where
  stack : r.stack = []
  mode : r.mode = .blank

theorem step_ok {r r' : Reader} {c : UInt8} (stepped : r.step c = .ok r') :
    ∃ q, r.advance c = .ok q ∧ r' = { q with position := q.position + 1 } := by
  unfold step at stepped
  cases advanced : r.advance c with
  | error e =>
    rw [advanced] at stepped
    cases stepped
  | ok q =>
    rw [advanced] at stepped
    cases stepped
    exact ⟨q, rfl, rfl⟩

theorem read_cons {r r' : Reader} {c : UInt8} {rest : Bytes} (read : r.read (c :: rest) = .ok r') :
    ∃ q, r.step c = .ok q ∧ q.read rest = .ok r' := by
  unfold Reader.read at read
  rw [List.foldlM_cons] at read
  cases stepped : r.step c with
  | error e =>
    rw [stepped] at read
    cases read
  | ok q =>
    rw [stepped] at read
    exact ⟨q, rfl, read⟩

theorem Bare.advance_eq {r : Reader} (bare : r.Bare) (c : UInt8) : r.advance c = r.stepBlank c := by
  unfold advance
  rw [bare.mode]

theorem Bare.step_unprinted {r r' : Reader} (bare : r.Bare) {c : UInt8} (unprinted : Unprinted c)
    (stepped : r.step c = .ok r') : r'.Bare := by
  obtain ⟨q, advanced, rfl⟩ := step_ok stepped
  obtain ⟨-, start, operator, slash, -⟩ := unprinted_plain unprinted
  rw [bare.advance_eq, stepBlank] at advanced
  by_cases space : isSpace c = true
  · rw [if_pos space] at advanced
    cases advanced
    exact ⟨bare.stack, rfl⟩
  · rw [if_neg space, if_neg slash, if_neg (by simp [start]), if_neg (by simp [operator]),
      if_pos (by simp [bare.stack])] at advanced
    cases advanced

theorem Bare.read {r r' : Reader} (bare : r.Bare) {text : Bytes}
    (unprinted : ∀ c ∈ text, Unprinted c) (reads : r.read text = .ok r') : r'.Bare := by
  induction text generalizing r with
  | nil =>
    cases reads
    exact bare
  | cons c rest ih =>
    obtain ⟨q, stepped, later⟩ := read_cons reads
    exact ih (bare.step_unprinted (unprinted c List.mem_cons_self) stepped)
      (fun d member => unprinted d (List.mem_cons_of_mem c member)) later

theorem read_split {r r' : Reader} {first second : Bytes}
    (reads : r.read (first ++ second) = .ok r') :
    ∃ q, r.read first = .ok q ∧ q.read second = .ok r' := by
  rw [read_append] at reads
  cases before : r.read first with
  | error e =>
    rw [before] at reads
    cases reads
  | ok q =>
    rw [before] at reads
    exact ⟨q, rfl, reads⟩

structure InWord (r : Reader) : Prop where
  stack : r.stack = []
  mode : ∃ start text, r.mode = .word start text

theorem wordStart_plain {c : UInt8} (word : isWordStart c = true) :
    isSpace c = false ∧ c ≠ ascii '/' := by
  have all : ∀ n : Fin 256, isWordStart (UInt8.ofNat n) = true →
      isSpace (UInt8.ofNat n) = false ∧ UInt8.ofNat n ≠ ascii '/' := by decide +kernel
  have this := all ⟨c.toNat, c.toNat_lt⟩
  simp only [UInt8.ofNat_toNat] at this
  exact this word

theorem Bare.step_word {r r' : Reader} (bare : r.Bare) {c : UInt8} (word : isWordStart c = true)
    (stepped : r.step c = .ok r') : r'.InWord := by
  obtain ⟨q, advanced, rfl⟩ := step_ok stepped
  obtain ⟨space, slash⟩ := wordStart_plain word
  rw [bare.advance_eq, stepBlank, if_neg (by simp [space]), if_neg slash, if_pos word] at advanced
  cases advanced
  exact ⟨bare.stack, _, _, rfl⟩

theorem InWord.read {r r' : Reader} (inWord : r.InWord) {text : Bytes}
    (parts : text.all isWordPart = true) (reads : r.read text = .ok r') : r'.InWord := by
  induction text generalizing r with
  | nil =>
    cases reads
    exact inWord
  | cons c rest ih =>
    rw [List.all_cons, Bool.and_eq_true] at parts
    obtain ⟨q, stepped, later⟩ := read_cons reads
    refine ih ?_ parts.2 later
    obtain ⟨q, advanced, rfl⟩ := step_ok stepped
    obtain ⟨start, text, mode⟩ := inWord.mode
    unfold advance at advanced
    rw [mode] at advanced
    simp only [parts.1, if_true] at advanced
    cases advanced
    exact ⟨inWord.stack, _, _, rfl⟩

/-- A word outside of all invocations can only be followed by more of it or by a parenthesis. -/
theorem InWord.rejects {r q : Reader} (inWord : r.InWord) {c : UInt8} (unprinted : Unprinted c) :
    r.advance c ≠ .ok q := by
  intro advanced
  obtain ⟨part, -, -, -, parenthesis⟩ := unprinted_plain unprinted
  obtain ⟨start, text, mode⟩ := inWord.mode
  unfold advance at advanced
  rw [mode] at advanced
  simp only [part, parenthesis, endName, inWord.stack] at advanced
  cases advanced

theorem InWord.unfinished {r : Reader} (inWord : r.InWord) {p : Program} : r.finish ≠ .ok p := by
  intro finished
  obtain ⟨start, text, mode⟩ := inWord.mode
  unfold finish at finished
  rw [mode] at finished
  simp only [endInName, inWord.stack] at finished
  cases finished

theorem inWord_of_identifier {text : Bytes} {r : Reader}
    (word : Session.isIdentifier text.trim = true) (reads : start.read text = .ok r) :
    r.InWord := by
  obtain ⟨before, after, whole, outside, outside'⟩ := text.trim_between
  cases held : text.trim with
  | nil =>
    rw [held] at word
    cases word
  | cons c rest =>
    rw [held] at word whole
    simp only [Session.isIdentifier, Bool.and_eq_true] at word
    rw [whole, List.append_assoc] at reads
    obtain ⟨q, first, reads⟩ := read_split reads
    have bare : q.Bare := Bare.read ⟨rfl, rfl⟩ outside first
    obtain ⟨q', stepped, reads⟩ := read_cons reads
    obtain ⟨q'', within, reads⟩ := read_split reads
    have inWord : q''.InWord := (bare.step_word word.1 stepped).read word.2 within
    cases after with
    | nil =>
      cases reads
      exact inWord
    | cons d more =>
      obtain ⟨_, stepped, _⟩ := read_cons reads
      obtain ⟨_, advanced, _⟩ := step_ok stepped
      exact absurd advanced (inWord.rejects (outside' d List.mem_cons_self))

end Reader

/-- How a session takes the lines of a text: a line is run together with the lines kept before it,
or kept. -/
inductive Taken : Bytes → List Bytes → Program → Prop where
  | last {pending line : Bytes} {p : Program}
      (word : Session.isIdentifier (pending ++ line).trim = false)
    (parsed : Program.parse (pending ++ line) = .ok p) : Taken pending [line] p
  | run {pending line : Bytes} {rest : List Bytes} {p q : Program}
    (word : Session.isIdentifier (pending ++ line).trim = false)
    (parsed : Program.parse (pending ++ line) = .ok p) (later : Taken [] rest q) :
    Taken pending (line :: rest) (p ++ q)
  | keep {pending line : Bytes} {rest : List Bytes} {p : Program} {e : ParseError}
    (word : Session.isIdentifier (pending ++ line).trim = false)
    (parsed : Program.parse (pending ++ line) = .error e) (incomplete : e.incomplete = true)
    (later : Taken (pending ++ line ++ [Bytes.newline]) rest p) : Taken pending (line :: rest) p

theorem Bytes.splitAt_cases (sep : UInt8) (text : Bytes) :
    (splitAt sep text = [text] ∧ sep ∉ text) ∨
      ∃ line rest, text = line ++ sep :: rest ∧ splitAt sep text = line :: splitAt sep rest := by
  induction text with
  | nil => exact Or.inl ⟨rfl, by simp⟩
  | cons c rest ih =>
    by_cases same : c = sep
    · right
      subst same
      exact ⟨[], rest, rfl, by simp [splitAt]⟩
    · rcases ih with ⟨whole, absent⟩ | ⟨line, more, cut, parts⟩
      · left
        simp [splitAt, same, whole, absent, Ne.symm same]
      · right
        refine ⟨c :: line, more, by simp [cut], ?_⟩
        simp [splitAt, same, parts]

theorem Program.parse_of_read {text : Bytes} {r : Reader} (reads : Reader.start.read text = .ok r) :
    Program.parse text = r.finish.mapError (·.locate text) := by
  unfold Program.parse Program.ofText
  rw [reads]
  rfl

theorem Program.parse_ok {text : Bytes} {p : Program} (parsed : Program.parse text = .ok p) :
    ∃ r, Reader.start.read text = .ok r ∧ r.finish = .ok p := by
  cases reads : Reader.start.read text with
  | error e =>
    unfold Program.parse Program.ofText at parsed
    rw [reads] at parsed
    cases parsed
  | ok r =>
    rw [Program.parse_of_read reads] at parsed
    cases finished : r.finish with
    | error e =>
      rw [finished] at parsed
      cases parsed
    | ok q =>
      rw [finished] at parsed
      cases parsed
      exact ⟨r, rfl, finished⟩

theorem Program.parse_ok_no_word {text : Bytes} {p : Program}
    (parsed : Program.parse text = .ok p) : Session.isIdentifier text.trim = false := by
  obtain ⟨r, reads, finished⟩ := Program.parse_ok parsed
  rw [Bool.eq_false_iff]
  intro word
  exact (Reader.inWord_of_identifier word reads).unfinished finished

namespace Reader

/-- After a newline with no invocation open, reading starts anew. -/
theorem read_anew {q : Reader} (outside : q.stack = []) (text : Bytes) :
    ({ q with mode := .blank, position := q.position + 1 }.read text >>= finish) =
      ((Program.ofText text).map (q.done.reverse ++ ·)).mapError (·.later (q.position + 1)) := by
  have again : { q with mode := .blank, position := q.position + 1 } =
      start.later (q.position + 1) q.done := by
    simp [later, start, outside, Mode.later]
  rw [again, read_later]

theorem start_again {q r : Reader} {text : Bytes} {p : Program} (outside : q.stack = [])
    (reads : { q with mode := .blank, position := q.position + 1 }.read text = .ok r)
    (finished : r.finish = .ok p) :
    ∃ r' p', start.read text = .ok r' ∧ r'.finish = .ok p' ∧ p = q.done.reverse ++ p' := by
  have whole : .ok p =
      ((Program.ofText text).map (q.done.reverse ++ ·)).mapError (·.later (q.position + 1)) := by
    rw [← read_anew outside, reads, ← finished]
    rfl
  unfold Program.ofText at whole
  cases first : start.read text with
  | error e =>
    rw [first] at whole
    cases whole
  | ok r' =>
    rw [first] at whole
    cases complete : r'.finish with
    | error e =>
      simp only [bind, Except.bind, complete] at whole
      cases whole
    | ok p' =>
      simp only [bind, Except.bind, complete] at whole
      cases whole
      exact ⟨r', p', rfl, complete, rfl⟩

theorem read_snoc {r q q' : Reader} {text : Bytes} {c : UInt8} (reads : r.read text = .ok q)
    (stepped : q.step c = .ok q') : r.read (text ++ [c]) = .ok q' := by
  rw [read_append, reads]
  show ([c].foldlM step q) = .ok q'
  rw [List.foldlM_cons, stepped]
  rfl

end Reader

theorem taken_of_read {pending text : Bytes} {q r : Reader} {p : Program}
    (before : Reader.start.read pending = .ok q) (reads : q.read text = .ok r)
    (finished : r.finish = .ok p) :
    Taken pending (Bytes.splitAt Bytes.newline text) p := by
  induction size : text.length using Nat.strongRecOn generalizing pending text q r p with
  | ind n ih =>
    have joined : ∀ {part : Bytes} {q' : Reader}, q.read part = .ok q' →
        Reader.start.read (pending ++ part) = .ok q' := by
      intro part q' read
      rw [Reader.read_append, before]
      exact read
    rcases Bytes.splitAt_cases Bytes.newline text with ⟨whole, _⟩ | ⟨line, rest, rfl, parts⟩
    · have parsed : Program.parse (pending ++ text) = .ok p := by
        rw [Program.parse_of_read (joined reads), finished]
        rfl
      rw [whole]
      exact .last (Program.parse_ok_no_word parsed) parsed
    · obtain ⟨q₁, read, reads⟩ := Reader.read_split reads
      obtain ⟨q₂, stepped, reads⟩ := Reader.read_cons reads
      obtain ⟨q₃, advanced, again⟩ := Reader.step_ok stepped
      have line' := joined read
      have shorter : rest.length < n := by
        rw [← size, List.length_append, List.length_cons]
        omega
      have word : Session.isIdentifier (pending ++ line).trim = false := by
        rw [Bool.eq_false_iff]
        intro word
        exact (Reader.inWord_of_identifier word line').rejects (Or.inl (by decide)) advanced
      rw [parts]
      have placed : q₁.At (0 + (pending ++ line).length) := by
        have placed := Reader.at_start.read (pending ++ line)
        rwa [line'] at placed
      -- The line is run if no invocation is open where it ends, and kept if one is.
      cases placed.ending with
      | complete outside complete blank =>
        rw [advanced] at blank
        cases blank
        subst again
        obtain ⟨r', p', reads', finished', rfl⟩ := Reader.start_again outside reads finished
        exact .run word (by rw [Program.parse_of_read line', complete]; rfl)
          (ih _ shorter rfl reads' finished' rfl)
      | wrong _ _ rejected =>
        rw [advanced] at rejected
        cases rejected
      | named _ rejected =>
        rw [advanced] at rejected
        cases rejected
      | within failed =>
        have parsed := Program.parse_of_read line'
        rw [failed] at parsed
        exact .keep word parsed
          rfl (ih _ shorter (Reader.read_snoc line' stepped) reads finished rfl)

/-- A text that is accepted as a whole is accepted line by line. -/
theorem taken_of_parse {text : Bytes} {p : Program} (parsed : Program.parse text = .ok p) :
    Taken [] (Bytes.splitAt Bytes.newline text) p := by
  obtain ⟨r, reads, finished⟩ := Program.parse_ok parsed
  exact taken_of_read rfl reads finished

end CallScript
