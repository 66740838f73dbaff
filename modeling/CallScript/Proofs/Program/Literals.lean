import CallScript.Proofs.Program.Reading

/- Where numbers and strings end, and what the reader makes of them. -/
namespace CallScript

namespace Grammar

open Lexical

structure Figure.Broken (n : Figure) (c : UInt8) (rest : Bytes) : Prop where
  whole : n.whole ≠ []
  fraction : n.fraction ≠ some []
  digits : ∀ d ∈ n.digits, Bytes.isDigit d = true
  ends : Bytes.isDigit c = false
  bad : isWordPart c = true ∨ c = ascii '.'
  point : n.fraction = none → c = ascii '.' → startsWith Bytes.isDigit rest = false

theorem Figure.valid_or_broken (negative : Bool) {c : UInt8} (digit : Bytes.isDigit c = true)
    (text : Bytes) :
    (∃ (n : Figure) (after : Bytes), (if negative then [ascii '-'] else []) ++ c :: text =
      n.text ++ after ∧ n.Valid after) ∨
    ∃ (n : Figure) (d : UInt8) (rest : Bytes),
      (if negative then [ascii '-'] else []) ++ c :: text = n.text ++ d :: rest ∧
        n.Broken d rest := by
  -- What follows the digits decides, once it is known that they do not go on.
  have decided : ∀ {n : Figure} {after : Bytes},
      (if negative then [ascii '-'] else []) ++ c :: text = n.text ++ after → n.whole ≠ [] →
      n.fraction ≠ some [] →
      (∀ d ∈ n.digits, Bytes.isDigit d = true) → startsWith Bytes.isDigit after = false →
      (∀ rest, n.fraction = none → after = ascii '.' :: rest →
        startsWith Bytes.isDigit rest = false) →
      (∃ (n : Figure) (after : Bytes), (if negative then [ascii '-'] else []) ++ c :: text =
        n.text ++ after ∧ n.Valid after) ∨
      ∃ (n : Figure) (d : UInt8) (rest : Bytes),
        (if negative then [ascii '-'] else []) ++ c :: text = n.text ++ d :: rest ∧
          n.Broken d rest := by
    intro n after same whole fraction digits ends point
    cases stops : startsWith (fun c => isWordPart c || c = ascii '.') after with
    | false => exact .inl ⟨n, after, same, whole, fraction, digits, stops⟩
    | true =>
      cases after with
      | nil => cases stops
      | cons d rest =>
        simp only [startsWith, Bool.or_eq_true, decide_eq_true_eq] at stops
        refine .inr ⟨n, d, rest, same, whole, fraction, digits, ends, stops, ?_⟩
        rintro none rfl
        exact point rest none rfl
  obtain ⟨whole, rest, rfl, longest⟩ := Longest.exists (startsWith Bytes.isDigit) rfl text
  have wholeDigits : ∀ d ∈ c :: whole, Bytes.isDigit d = true := by
    intro d member
    rcases List.mem_cons.mp member with rfl | member
    · exact digit
    · exact longest.all d member
  by_cases point : ∃ d more, rest = ascii '.' :: d :: more ∧ Bytes.isDigit d = true
  · obtain ⟨d, more, rfl, first⟩ := point
    obtain ⟨others, after, rfl, longest'⟩ := Longest.exists (startsWith Bytes.isDigit) rfl more
    refine @decided ⟨negative, c :: whole, some (d :: others)⟩ after
      (by simp [Figure.text, Figure.tail]) (by simp) (by simp) ?_ longest'.stops (by simp)
    intro e member
    simp only [Figure.digits, Option.getD_some, List.mem_append] at member
    rcases member with member | member
    · exact wholeDigits e member
    · rcases List.mem_cons.mp member with rfl | member
      · exact first
      · exact longest'.all e member
  · refine @decided ⟨negative, c :: whole, none⟩ rest (by simp [Figure.text, Figure.tail])
      (by simp) (by simp) (by simpa [Figure.digits] using wholeDigits) longest.stops ?_
    rintro more - rfl
    cases more with
    | nil => rfl
    | cons d more => exact eq_false_of_ne_true fun first => point ⟨d, more, rfl, first⟩

/-- Every text is pieces of a string, up to a quote, the end of the text or a backslash at the end
of the text. -/
theorem StringPart.exists_pieces (text : Bytes) :
    ∃ (pieces : List StringPart) (rest : Bytes), text = pieces.flatMap StringPart.text ++ rest ∧
      (∀ x ∈ pieces, x.Valid) ∧
        ((∃ after, rest = ascii '"' :: after) ∨ rest = [] ∨ rest = [ascii '\\']) := by
  induction length : text.length using Nat.strongRecOn generalizing text with
  | ind n ih =>
    -- One more piece leaves a shorter text.
    have more : ∀ {x : StringPart} {rest : Bytes}, x.Valid → text = x.text ++ rest →
        ∃ (pieces : List StringPart) (rest : Bytes), text = pieces.flatMap StringPart.text ++ rest ∧
          (∀ x ∈ pieces, x.Valid) ∧
            ((∃ after, rest = ascii '"' :: after) ∨ rest = [] ∨ rest = [ascii '\\']) := by
      intro x rest valid same
      have shorter : rest.length < n := by
        rw [← length, same]
        cases x with
        | plain d => simp [StringPart.text]
        | escaped d =>
          simp only [StringPart.text, List.length_append, List.length_cons, List.length_nil]
          omega
      obtain ⟨pieces, last, rfl, valids, ends⟩ := ih _ shorter rest rfl
      refine ⟨x :: pieces, last, by simp [same], ?_, ends⟩
      intro y member
      rcases List.mem_cons.mp member with rfl | member
      · exact valid
      · exact valids y member
    cases text with
    | nil => exact ⟨[], [], rfl, by simp, .inr (.inl rfl)⟩
    | cons c rest =>
      by_cases quote : c = ascii '"'
      · exact ⟨[], c :: rest, rfl, by simp, .inl ⟨rest, by rw [quote]⟩⟩
      · by_cases escape : c = ascii '\\'
        · subst escape
          cases rest with
          | nil => exact ⟨[], [ascii '\\'], rfl, by simp, .inr (.inr rfl)⟩
          | cons d rest => exact @more (.escaped d) rest trivial rfl
        · exact @more (.plain c) rest ⟨quote, escape⟩ rfl

end Grammar

namespace Reader

open Grammar Lexical

variable {p : Nat} {done : List Invocation} {stack : List OpenCall} {c : UInt8} {text : Bytes}

section Numbers

variable {start : Nat} {top : OpenCall} {number : Bytes} {fraction : Bool}

theorem result_digits {digits : Bytes} (all : ∀ c ∈ digits, Bytes.isDigit c = true) :
    result p done stack (.number start number fraction) (digits ++ text) =
      result (p + digits.length) done stack
        (.number start (digits.reverse ++ number) fraction) text := by
  induction digits generalizing p number with
  | nil => rfl
  | cons c digits ih =>
    have step : (⟨p, done, stack, .number start number fraction⟩ : Reader).advance c =
        .ok ⟨p, done, stack, .number start (c :: number) fraction⟩ := by
      simp [advance, stepNumber, all c List.mem_cons_self]
    rw [List.cons_append, result_ok step, ih fun d member => all d (List.mem_cons_of_mem c member),
      List.length_cons, Nat.add_assoc, Nat.add_comm 1]
    simp

theorem advance_point :
    (⟨p, done, stack, .number start number false⟩ : Reader).advance (ascii '.') =
    .ok ⟨p, done, stack, .point start number⟩ := by
  simp [advance, stepNumber, show Bytes.isDigit (ascii '.') = false by decide]

theorem result_point {d : UInt8} :
    result p done stack (.number start number false) (ascii '.' :: d :: text) =
    if Bytes.isDigit d then result (p + 2) done stack
      (.number start (d :: ascii '.' :: number) true) text
    else reject start (.invalidNumber (ascii '.' :: number).reverse) := by
  rw [result_ok advance_point]
  split
  · rename_i digit
    exact result_ok (by simp [advance, digit])
  · rename_i other
    exact result_error (by simp [advance, other, reject])

theorem result_point_end : result p done stack (.number start number false) [ascii '.'] =
    reject start (.invalidNumber (ascii '.' :: number).reverse) := by
  rw [result_ok advance_point]
  rfl

/-- Neither a letter nor a second point may follow the digits of a number. -/
theorem result_number_bad (notDigit : Bytes.isDigit c = false)
    (bad : isWordPart c = true ∨ (c = ascii '.' ∧ fraction = true)) :
    result p done stack (.number start number fraction) (c :: text) =
      reject start (.invalidNumber (c :: number).reverse) := by
  rcases bad with part | ⟨rfl, rfl⟩
  · have ne : c ≠ ascii '.' := by
      rintro rfl
      exact absurd part (by decide)
    exact result_error (by simp [advance, stepNumber, notDigit, part, ne, reject])
  · exact result_error (by simp [advance, stepNumber, notDigit, reject])

theorem result_number_end {after : Bytes}
    (stops : startsWith (fun c => isWordPart c || c = ascii '.') after = false) :
    result p done (top :: stack) (.number start number fraction) after =
      (Number.parse? number.reverse).elim (reject start (.invalidNumber number.reverse))
        fun value =>
        result p done (given (.literal (.number value)) top :: stack) .blank after := by
  cases after with
  | nil =>
    show (endNumber ⟨p, done, top :: stack, .number start number fraction⟩ start number.reverse >>=
        endBlank) = _
    rw [endNumber]
    cases Number.parse? number.reverse with
    | none => rfl
    | some value => rfl
  | cons c rest =>
    simp only [startsWith, Bool.or_eq_false_iff, decide_eq_false_iff_not] at stops
    have digit := not_digit stops.1
    cases read : Number.parse? number.reverse with
    | none =>
      apply result_error
      simp [advance, stepNumber, digit, stops, endNumber, read, reject, bind, Except.bind]
    | some value =>
      apply result_same
      simp [advance, stepNumber, digit, stops, endNumber, read, bind, Except.bind,
        addArgument, given]

theorem result_number_start {negative : Bool} (digit : Bytes.isDigit c = true) :
    result p done (top :: stack) .blank ((if negative then [ascii '-'] else []) ++ c :: text) =
      result (p + ((if negative then [ascii '-'] else []).length + 1)) done (top :: stack)
        (.number p ([c] ++ if negative then [ascii '-'] else []) false) text := by
  obtain ⟨_, word, space, operator, mark, _⟩ := digit_kind c digit
  have slash : c ≠ ascii '/' := by
    rintro rfl
    exact absurd digit (by decide)
  have notMark : ∀ d ∈ marks, c ≠ d := fun d member same => mark (same ▸ member)
  cases negative with
  | true =>
    have minus : (⟨p, done, top :: stack, .blank⟩ : Reader).advance (ascii '-') =
        .ok ⟨p, done, top :: stack, .operator p [ascii '-']⟩ := by
      simp [advance, stepBlank, show isSpace (ascii '-') = false by decide,
        show ascii '-' ≠ ascii '/' by decide,
        show isWordStart (ascii '-') = false by decide, show isOperator (ascii '-') = true by
          decide]
    have step : (⟨p + 1, done, top :: stack, .operator p [ascii '-']⟩ : Reader).advance c =
        .ok ⟨p + 1, done, top :: stack, .number p [c, ascii '-'] false⟩ := by
      simp [advance, stepOperator, slash, operator, notMark (ascii '(') (by decide), digit]
    simp only [if_true, List.singleton_append]
    rw [result_ok minus, result_ok step]
    rfl
  | false =>
    have step : (⟨p, done, top :: stack, .blank⟩ : Reader).advance c =
        .ok ⟨p, done, top :: stack, .number p [c] false⟩ := by
      simp [advance, stepBlank, space, slash, word, operator, digit,
        notMark (ascii ')') (by decide),
        notMark (ascii ',') (by decide), notMark (ascii '"') (by decide)]
    simpa using result_ok step

theorem result_number {n : Figure} (some : n.whole ≠ []) (someFraction : n.fraction ≠ .some [])
    (all : ∀ c ∈ n.digits, Bytes.isDigit c = true) (after : Bytes) :
    result p done (top :: stack) .blank (n.text ++ after) =
      result (p + n.text.length) done (top :: stack)
        (.number p n.text.reverse n.fraction.isSome) after := by
  obtain ⟨negative, whole, fraction⟩ := n
  cases whole with
  | nil => exact absurd rfl some
  | cons c whole =>
    have digit : Bytes.isDigit c = true := all c (by simp [Figure.digits])
    have wholeDigits : ∀ d ∈ whole, Bytes.isDigit d = true := fun d member =>
      all d (by simp [Figure.digits, member])
    have palindrome : (if negative then [ascii '-'] else []).reverse = if negative then [ascii '-']
        else [] := by
      cases negative with
      | true => rfl
      | false => rfl
    simp only [Figure.text, List.append_assoc, List.cons_append]
    rw [result_number_start digit, result_digits wholeDigits]
    generalize (if negative then [ascii '-'] else []) = sign at palindrome ⊢
    cases fraction with
    | none =>
      have place : p + (sign.length + 1) + whole.length = p + (sign ++ c :: whole).length := by
        simp only [List.length_append, List.length_cons]
        omega
      rw [Figure.tail, List.nil_append, List.append_nil, place]
      simp [palindrome]
    | some digits =>
      cases digits with
      | nil => exact absurd rfl someFraction
      | cons d digits =>
        have first : Bytes.isDigit d = true := all d (by simp [Figure.digits])
        have others : ∀ e ∈ digits, Bytes.isDigit e = true :=
          fun e member => all e (by simp [Figure.digits, member])
        have place : p + (sign.length + 1) + whole.length + 2 + digits.length =
            p + (sign ++ c :: (whole ++ ascii '.' :: d :: digits)).length := by
          simp only [List.length_append, List.length_cons]
          omega
        simp only [Figure.tail, List.cons_append]
        rw [result_point, if_pos first, result_digits others, place]
        simp [palindrome]

theorem result_figure {n : Figure} {after : Bytes} (valid : n.Valid after) :
    result p done (top :: stack) .blank (n.text ++ after) =
      (Number.parse? n.text).elim (reject p (.invalidNumber n.text)) fun value =>
        result (p + n.text.length) done (given (.literal (.number value)) top :: stack)
          .blank after := by
  obtain ⟨some, someFraction, all, stops⟩ := valid
  rw [result_number some someFraction all, result_number_end stops, List.reverse_reverse]

theorem result_broken {n : Figure} {rest : Bytes} (broken : n.Broken c rest) :
    result p done (top :: stack) .blank (n.text ++ c :: rest) =
      reject p (.invalidNumber (n.text ++ [c])) := by
  rw [result_number broken.whole broken.fraction broken.digits]
  have text : n.text ++ [c] = (c :: n.text.reverse).reverse := by simp
  rw [text]
  rcases broken.bad with part | rfl
  · exact result_number_bad broken.ends (.inl part)
  · cases fraction : n.fraction with
    | some digits => exact result_number_bad broken.ends (.inr ⟨rfl, rfl⟩)
    | none =>
      have undigit := broken.point fraction rfl
      cases rest with
      | nil => exact result_point_end
      | cons d rest =>
        have other : ¬ Bytes.isDigit d = true := by simpa [startsWith] using undigit
        rw [Option.isSome_none, result_point, if_neg other]

theorem exists_figure {program : Program} {negative : Bool} (digit : Bytes.isDigit c = true)
    (read : result p done (top :: stack) .blank
      ((if negative then [ascii '-'] else []) ++ c :: text) = .ok program) :
    ∃ (n : Figure) (after : Bytes), (if negative then [ascii '-'] else []) ++ c :: text =
      n.text ++ after ∧ n.Valid after := by
  rcases Figure.valid_or_broken negative digit text with valid | ⟨n, d, rest, same, broken⟩
  · exact valid
  · rw [same, result_broken broken] at read
    cases read

end Numbers

section Strings

variable {start : Nat} {top : OpenCall} {string : Bytes}

theorem result_quote : result p done (top :: stack) .blank (ascii '"' :: text) =
    result (p + 1) done (top :: stack) (.string p []) text :=
  result_ok (by
    simp [advance, stepBlank, show isSpace (ascii '"') = false by decide,
      show ascii '"' ≠ ascii '/' by decide,
      show isWordStart (ascii '"') = false by decide, show isOperator (ascii '"') = false by decide,
      show ascii '"' ≠ ascii ')' by decide, show ascii '"' ≠ ascii ',' by decide])

theorem result_plain (notQuote : c ≠ ascii '"') (notEscape : c ≠ ascii '\\') :
    result p done stack (.string start string) (c :: text) =
      result (p + 1) done stack (.string start (c :: string)) text :=
  result_ok (by simp [advance, notQuote, notEscape])

theorem unescape_eq : ∀ c, unescape c = (StringPart.escaped c).byte :=
  forall_byte (by decide +kernel)

theorem advance_escape : (⟨p, done, stack, .string start string⟩ : Reader).advance (ascii '\\') =
    .ok ⟨p, done, stack, .escape start string⟩ := by
  simp [advance, show ascii '\\' ≠ ascii '"' by decide]

theorem result_escaped : result p done stack (.string start string) (ascii '\\' :: c :: text) =
    result (p + 2) done stack (.string start ((StringPart.escaped c).byte :: string)) text := by
  have second : (⟨p + 1, done, stack, .escape start string⟩ : Reader).advance c =
      .ok ⟨p + 1, done, stack, .string start ((StringPart.escaped c).byte :: string)⟩ := by
    simp [advance, unescape_eq]
  rw [result_ok advance_escape, result_ok second]

theorem result_string_end :
    result p done stack (.string start string) [] = lacking start .unclosedString := rfl

theorem result_escape_end :
    result p done stack (.string start string) [ascii '\\'] = lacking start .unclosedString := by
  rw [result_ok advance_escape]
  rfl

theorem result_string_close :
    result p done (top :: stack) (.string start string) (ascii '"' :: text) =
    result (p + 1) done (given (.literal (.string string.reverse)) top :: stack) .blank text :=
  result_ok (by simp [advance, addArgument, given])

theorem result_pieces {pieces : List StringPart} (valid : ∀ p ∈ pieces, p.Valid) :
    result p done stack (.string start string) (pieces.flatMap StringPart.text ++ text) =
      result (p + (pieces.flatMap StringPart.text).length) done stack
        (.string start ((pieces.map StringPart.byte).reverse ++ string)) text := by
  induction pieces generalizing p string with
  | nil => rfl
  | cons x pieces ih =>
    have here := valid x List.mem_cons_self
    have there := fun q member => valid q (List.mem_cons_of_mem x member)
    rw [List.flatMap_cons, List.append_assoc, List.length_append, ← Nat.add_assoc]
    cases x with
    | plain c =>
      rw [StringPart.text, List.singleton_append, result_plain here.1 here.2, ih there]
      simp [StringPart.byte]
    | escaped c =>
      simp only [StringPart.text, List.cons_append, List.nil_append]
      rw [result_escaped, ih there]
      simp

theorem exists_pieces {program : Program}
    (read : result p done stack (.string start string) text = .ok program) :
    ∃ (pieces : List StringPart) (after : Bytes),
      text = pieces.flatMap StringPart.text ++ ascii '"' :: after ∧ ∀ x ∈ pieces, x.Valid := by
  obtain ⟨pieces, rest, rfl, valid, ends⟩ := StringPart.exists_pieces text
  rw [result_pieces valid] at read
  rcases ends with ⟨after, rfl⟩ | rfl | rfl
  · exact ⟨pieces, after, rfl, valid⟩
  · cases read
  · rw [result_escape_end] at read
    cases read

end Strings

end Reader
end CallScript
