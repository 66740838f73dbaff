import Mathlib.Data.Set.Function
import CallScript.Proofs.Program.Unambiguous
import CallScript.Proofs.Program.Literals
import CallScript.Proofs.Program.Figures

/- Reading accepts what the grammar derives, and nothing else. In the one direction, each part of a
   derivation takes the reader past its text. In the other, a text that comes to something is taken
   apart from the left: the parts found are shorter texts, which come to something themselves. -/
namespace CallScript

namespace Reader

open Grammar Lexical

variable {q : Nat} {done : List Invocation} {stack : List OpenCall} {top : OpenCall} {after : Bytes}

mutual

/-- Past an argument, the reader has added it to the innermost open invocation. -/
theorem result_phrase :
    ∀ (p : Phrase) {q : Nat} {done : List Invocation} {top : OpenCall} {stack : List OpenCall}
    {after : Bytes}, p.Valid after → result q done (top :: stack) .blank (p.text ++ after) =
      result (q + p.text.length) done (given p.tree top :: stack) .blank after
  | .string pieces, q, done, top, stack, after, valid => by
    rw [Phrase.Valid] at valid
    have place : q + 1 + (pieces.flatMap StringPart.text).length + 1 =
        q + (Phrase.string pieces).text.length := by
      simp only [Phrase.text, List.length_cons, List.length_append, List.length_nil]
      omega
    rw [← place]
    simp only [Phrase.text, Phrase.tree, List.cons_append, List.append_assoc, List.nil_append]
    rw [result_quote, result_pieces valid, result_string_close]
    simp
  | .number figure, q, done, top, stack, after, valid => by
    rw [Phrase.Valid] at valid
    rw [Phrase.text, Phrase.tree, result_figure valid, valid.parse]
    rfl
  | .ident name, q, done, top, stack, after, valid => by
    rw [Phrase.Valid] at valid
    rw [Phrase.text, Phrase.tree, result_ident valid.1 valid.2.1 fun minus =>
      .inl (valid.2.2 minus)]
    rfl
  | .call name items, q, done, top, stack, after, valid => by
    rw [Phrase.Valid] at valid
    have place : q + name.length + 1 + items.text.length =
        q + (Phrase.call name items).text.length := by
      simp only [Phrase.text, List.length_cons, List.length_append]
      omega
    rw [← place, Phrase.text, Phrase.tree, List.append_assoc, List.cons_append, result_call valid.1,
      result_items items valid.2]
    rfl

theorem result_items :
    ∀ (items : Items) {q : Nat} {done : List Invocation} {top : OpenCall} {stack : List OpenCall}
    {after : Bytes}, items.Valid after → result q done (top :: stack) .blank (items.text ++ after) =
      resultClosed (q + items.text.length) done stack ⟨top.name, top.args.reverse ++ items.trees⟩
        after
  | .close gap, q, done, top, stack, after, valid => by
    rw [Items.Valid] at valid
    rw [Items.text, Items.trees, List.append_assoc, result_gap valid, List.singleton_append,
      result_close, List.length_append, List.length_singleton, Nat.add_assoc]
    simp
  | .item gap phrase comma rest, q, done, top, stack, after, valid => by
    rw [Items.Valid] at valid
    obtain ⟨gapValid, phraseValid, commaValid, restValid⟩ := valid
    simp only [Items.text, Items.trees, List.append_assoc, List.length_append, ← Nat.add_assoc]
    rw [result_gap gapValid, result_phrase phrase phraseValid]
    cases comma with
    | none =>
      rw [commaText, List.nil_append, result_items rest restValid]
      simp [given]
    | some g =>
      rw [commaText, List.append_assoc, result_gap (commaValid g rfl), List.singleton_append,
        result_comma]
      simp only [given, List.isEmpty_cons, Bool.or_self, Bool.false_eq_true, if_false]
      rw [result_items rest restValid]
      simp [Nat.add_assoc]

end

theorem result_statement {s : Statement} (valid : s.Valid after) :
    result q done [] .blank (s.text ++ after) = result (q + s.text.length) (s.tree :: done)
      [] .blank after := by
  obtain ⟨gapValid, isName, itemsValid⟩ := valid
  have place : q + (gapText s.gap).length + s.name.length + 1 + s.items.text.length =
      q + s.text.length := by
    simp only [Statement.text, List.length_append, List.length_cons]
    omega
  rw [← place]
  simp only [Statement.text, List.append_assoc, List.cons_append]
  rw [result_gap gapValid, result_call isName, result_items _ itemsValid]
  rfl

theorem result_derivation (d : Derivation) (valid : d.Valid) :
    result q done [] .blank d.text = .ok (done.reverse ++ d.program) := by
  induction d generalizing q done with
  | finish gap comment =>
    obtain ⟨gapValid, unbroken⟩ := valid
    cases comment with
    | none =>
      rw [Derivation.text, ← List.append_nil (gapText gap), result_gap gapValid, Derivation.program,
        List.append_nil]
      rfl
    | some line =>
      rw [Derivation.text, result_gap gapValid, result_slashes, ← List.append_nil line,
        result_comment (unbroken line rfl), Derivation.program, List.append_nil]
      rfl
  | statement first rest ih =>
    rw [Derivation.text, result_statement valid.1, ih valid.2]
    simp [Derivation.program]

theorem result_unfinished {text : Bytes} (settled : Settled text)
    (comment : startsComment text = true) :
    result q done stack .blank text = result (q + text.length) done stack .blank [] := by
  have unbroken := settled.2 comment
  obtain ⟨line, rfl⟩ := startsComment_eq comment
  simp only [List.mem_cons, not_or] at unbroken
  rw [result_slashes, ← List.append_nil line, result_comment unbroken.2.2, result_comment_end]
  simp [Nat.add_assoc, Nat.add_comm 2]

theorem exists_name {c : UInt8} {text : Bytes} (kind : isWordStart c = true ∨ isOperator c = true)
    (noComment : startsComment (c :: text) = false) :
    ∃ name after, c :: text = name ++ after ∧ IsName name after := by
  rcases kind with word | operator
  · obtain ⟨run, after, same, longest⟩ := Longest.exists (startsWith isWordPart) rfl (c :: text)
    refine ⟨run, after, same, .inl ⟨?_, longest⟩⟩
    cases run with
    | nil =>
      have stops := longest.stops
      rw [← List.nil_append after, ← same, startsWith, (wordStart_kind c word).1] at stops
      cases stops
    | cons d run =>
      rw [startsWith, ← (List.cons.inj same).1]
      exact word
  · obtain ⟨run, after, same, longest⟩ := Longest.exists
      (fun text => startsWith isOperator text && !startsComment text) rfl (c :: text)
    refine ⟨run, after, same, .inr ⟨?_, longest⟩⟩
    rintro rfl
    have stops := longest.stops
    rw [← List.nil_append after, ← same, startsWith, operator, noComment] at stops
    cases stops

structure Closes (top : OpenCall) (text : Bytes) (comma : Option Gap) (items : Items)
    (after : Bytes) : Prop where
  split : text = commaText comma ++ (items.text ++ after)
  gaps : ∀ g ∈ comma, GapValid g
  allowed : comma ≠ none → top.args ≠ [] ∧ top.afterComma = false
  valid : items.Valid after

/-- No comma can stand before the arguments of an invocation that has just been opened, or after
another comma. -/
theorem no_comma {comma : Option Gap}
    (allowed : comma ≠ none → top.args ≠ [] ∧ top.afterComma = false)
    (refused : top.args = [] ∨ top.afterComma = true) : comma = none := by
  cases comma with
  | none => rfl
  | some g =>
    obtain ⟨some, before⟩ := allowed (by simp)
    rcases refused with empty | comma
    · exact absurd empty some
    · rw [before] at comma
      cases comma

theorem Closes.bare {text : Bytes} {comma : Option Gap} {items : Items}
    (closes : Closes top text comma items after) (refused : top.args = [] ∨ top.afterComma = true) :
    text = items.text ++ after := by
  rw [closes.split, no_comma closes.allowed refused, commaText, List.nil_append]

theorem exists_phrase {c : UInt8} {text : Bytes} {p : Program}
    (read : result q done (top :: stack) .blank (c :: text) = .ok p)
    (noComment : startsComment (c :: text) = false)
    (kind : isWordStart c = true ∨ isOperator c = true ∨ Bytes.isDigit c = true ∨ c = ascii '"')
    (nested : ∀ (q : Nat) (inner : OpenCall) (rest : Bytes), rest.length < (c :: text).length →
      result q done (inner :: top :: stack) .blank rest = .ok p →
      ∃ comma items after, Closes inner rest comma items after) :
    ∃ (phrase : Phrase) (after : Bytes), c :: text = phrase.text ++ after ∧ phrase.Valid after := by
  have number : ∀ (negative : Bool) {d : UInt8} {rest : Bytes}, Bytes.isDigit d = true →
      c :: text = (if negative then [ascii '-'] else []) ++ d :: rest →
        ∃ (phrase : Phrase) (after : Bytes), c :: text = phrase.text ++ after ∧
          phrase.Valid after := by
    intro negative d rest digit same
    rw [same] at read ⊢
    obtain ⟨figure, after, same, valid⟩ := exists_figure digit read
    exact ⟨.number figure, after, by rw [same, Phrase.text], by rwa [Phrase.Valid]⟩
  have name : isWordStart c = true ∨ isOperator c = true →
      ∃ (phrase : Phrase) (after : Bytes), c :: text = phrase.text ++ after ∧
        phrase.Valid after := by
    intro kind
    obtain ⟨name, after, same, isName⟩ := exists_name kind noComment
    by_cases opens : startsWith (· = ascii '(') after = true
    · obtain ⟨rest, rfl⟩ := startsWith_eq opens
      have shorter : rest.length < (c :: text).length := by
        rw [same]
        simp
        omega
      rw [same, result_call isName] at read
      obtain ⟨comma, items, after, closes⟩ := nested _ _ rest shorter read
      obtain rfl := closes.bare (.inl rfl)
      exact ⟨.call name items,
        after, by simp [same, Phrase.text], by rw [Phrase.Valid]; exact ⟨isName, closes.valid⟩⟩
    · by_cases signed : name = [ascii '-'] ∧ startsWith Bytes.isDigit after = true
      · obtain ⟨rfl, digit⟩ := signed
        cases after with
        | nil => cases digit
        | cons d rest => exact number true digit same
      · refine ⟨.ident name, after, by rw [same, Phrase.text], ?_⟩
        rw [Phrase.Valid]
        exact ⟨isName, eq_false_of_ne_true opens, fun minus => eq_false_of_ne_true fun digit =>
          signed ⟨minus, digit⟩⟩
  rcases kind with word | operator | digit | rfl
  · exact name (.inl word)
  · exact name (.inr operator)
  · exact number false digit rfl
  · rw [result_quote] at read
    obtain ⟨pieces, after, rfl, valid⟩ := exists_pieces read
    exact ⟨.string pieces, after, by simp [Phrase.text], by rwa [Phrase.Valid]⟩

theorem exists_items {text : Bytes} {p : Program}
    (read : result q done (top :: stack) .blank text = .ok p) :
    ∃ comma items after, Closes top text comma items after := by
  induction length : text.length using Nat.strongRecOn generalizing q text top stack with
  | ind n ih =>
    obtain ⟨gap, rest, rfl, gapValid, settled⟩ := exists_gap text
    rw [result_gap gapValid] at read
    have within : rest.length ≤ n := by
      rw [← length]
      simp
    cases rest with
    | nil => cases read
    | cons c rest =>
      cases comment : startsComment (c :: rest) with
      | true =>
        rw [result_unfinished settled comment] at read
        cases read
      | false =>
        -- An argument, and what follows it; both are shorter than the text.
        have phrase :
            (isWordStart c = true ∨ isOperator c = true ∨ Bytes.isDigit c = true ∨ c = ascii '"') →
            ∃ comma items after, Closes top (gapText gap ++ c :: rest) comma items after := by
          intro kind
          obtain ⟨phrase, after, same, valid⟩ :=
            exists_phrase read comment kind fun _ inner rest' shorter nested =>
            ih rest'.length (Nat.lt_of_lt_of_le shorter within) nested rfl
          have shorter : after.length < n := by
            rw [same] at within
            exact Nat.lt_of_lt_of_le valid.shorter within
          rw [same, result_phrase phrase valid] at read
          obtain ⟨comma, items, last, closes⟩ := ih after.length shorter read rfl
          obtain rfl := closes.split
          refine ⟨none, .item gap phrase comma items, last, ⟨?_, by simp, by simp, ?_⟩⟩
          · simp [commaText, Items.text, same]
          · rw [Items.Valid]
            exact ⟨gapValid, valid, closes.gaps, closes.valid⟩
        rcases starts_inside read settled with starts | word | operator | digit | rfl | rfl | quote
        · rw [comment] at starts
          cases starts
        · exact phrase (.inl word)
        · exact phrase (.inr (.inl operator))
        · exact phrase (.inr (.inr (.inl digit)))
        · refine ⟨none, .close gap, rest, ⟨?_, by simp, by simp, ?_⟩⟩
          · simp [commaText, Items.text]
          · rwa [Items.Valid]
        · rw [result_comma] at read
          split at read
          · cases read
          · rename_i allowed
            simp only [Bool.or_eq_true, List.isEmpty_iff, not_or, Bool.not_eq_true] at allowed
            obtain ⟨comma, items, after, closes⟩ := ih rest.length within read rfl
            -- Another comma would be rejected, so this is the only one before the argument.
            obtain rfl := closes.bare (.inr rfl)
            refine ⟨some gap, items, after,
              ⟨by simp [commaText], ?_, fun _ => allowed, closes.valid⟩⟩
            intro g member
            cases member
            exact gapValid
        · exact phrase (.inr (.inr (.inr quote)))

theorem exists_derivation {text : Bytes} {p : Program}
    (read : result q done [] .blank text = .ok p) : ∃ d : Derivation, d.Valid ∧ d.text = text := by
  induction length : text.length using Nat.strongRecOn generalizing q text done with
  | ind n ih =>
    obtain ⟨gap, rest, rfl, gapValid, settled⟩ := exists_gap text
    rw [result_gap gapValid] at read
    cases rest with
    | nil => exact ⟨.finish gap none, ⟨gapValid, by simp⟩, by simp [Derivation.text]⟩
    | cons c rest =>
      cases comment : startsComment (c :: rest) with
      | true =>
        have unbroken := settled.2 comment
        obtain ⟨line, same⟩ := startsComment_eq comment
        rw [same] at unbroken ⊢
        simp only [List.mem_cons, not_or] at unbroken
        refine ⟨.finish gap (some line), ⟨gapValid, ?_⟩, rfl⟩
        intro text member
        cases member
        exact unbroken.2.2
      | false =>
        have kind : isWordStart c = true ∨ isOperator c = true := by
          rcases starts_outside read settled with starts | kind
          · rw [comment] at starts
            cases starts
          · exact kind
        obtain ⟨name, after, same, isName⟩ := exists_name kind comment
        rw [same] at read
        have opens : startsWith (· = ascii '(') after = true := by
          refine eq_true_of_ne_false fun plain => ?_
          rw [result_ident isName plain fun _ => .inr rfl] at read
          exact resultIdent_outside read
        obtain ⟨inside, rfl⟩ := startsWith_eq opens
        rw [result_call isName] at read
        obtain ⟨comma, items, after, closes⟩ := exists_items read
        obtain rfl := closes.bare (.inl rfl)
        rw [result_items items closes.valid] at read
        have shorter : after.length < n := by
          rw [← length, same]
          simp
          omega
        obtain ⟨d, valid, rfl⟩ := ih after.length shorter read rfl
        refine ⟨.statement ⟨gap, name, items⟩ d, ⟨⟨gapValid, isName, closes.valid⟩, valid⟩, ?_⟩
        simp [Derivation.text, Statement.text, same]

end Reader

theorem parse_eq_ok_iff (text : Bytes) (p : Program) :
    Program.parse text = .ok p ↔ Reader.result 0 [] [] .blank text = .ok p := by
  show (Program.ofText text).mapError _ = _ ↔ Program.ofText text = .ok p
  cases Program.ofText text with
  | error e => simp [Except.mapError]
  | ok q => simp [Except.mapError]

theorem parse_eq_iff (text : Bytes) (p : Program) : Program.parse text = .ok p ↔
    ∃ d : Grammar.Derivation, d.Valid ∧ d.text = text ∧ d.program = p := by
  rw [parse_eq_ok_iff]
  constructor
  · intro read
    obtain ⟨d, valid, rfl⟩ := Reader.exists_derivation read
    rw [Reader.result_derivation d valid] at read
    exact ⟨d, valid, rfl, by simpa using read⟩
  · rintro ⟨d, valid, rfl, rfl⟩
    exact Reader.result_derivation d valid

/-- A text is accepted exactly if it has a derivation, the program is that of the derivation, and
there is never more than one. -/
theorem parse_iff_derived :
    (∀ (text : Bytes) (p : Program), Program.parse text = .ok p ↔
      ∃ d : Grammar.Derivation, d.Valid ∧ d.text = text ∧ d.program = p) ∧
    Set.InjOn Grammar.Derivation.text { d | d.Valid } := by
  refine ⟨parse_eq_iff, ?_⟩
  intro d valid e valid' same
  exact Grammar.Derivation.unique d e valid valid' same

end CallScript
