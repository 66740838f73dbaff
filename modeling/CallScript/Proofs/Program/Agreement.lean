import CallScript.Proofs.Program.Descent

/- Reading by descent comes to the same as reading byte by byte. Each function of the descent ends,
   without leaving the text, in one of two ways: past a part of a derivation, which the byte reader
   passes too; or with the rejection that comes of the byte reader from there, whatever it has read
   before. If the rejection is for want of more text, what is left of the text is a part of an
   unfinished derivation. -/
namespace CallScript.Descent

open Grammar Lexical Reader

variable {text rest : Bytes} {p fuel : Nat}

/-- An argument is read past a phrase, or rejected. -/
inductive ReadsArgument (text rest : Bytes) (p : Nat) : Except Halt (Passed Argument) → Prop where
  | phrase {phrase : Phrase} {after : Bytes} (split : rest = phrase.text ++ after)
      (valid : phrase.Valid after) :
    ReadsArgument text rest p (.ok ⟨phrase.tree, p + phrase.text.length⟩)
  | rejected {e : Rejection}
      (same : ∀ done top stack, result p done (top :: stack) .blank rest = .error e)
    (unfinished : e.incomplete = true → ∃ u : OpenPhrase, u.Valid ∧ u.text = rest) :
    ReadsArgument text rest p (.error (.rejected (e.locate text)))

inductive ReadsCall (text : Bytes) (p : Nat) (name inside : Bytes) :
    Except Halt (Passed Invocation) → Prop where
  | closed {items : Items} {after : Bytes} (split : inside = items.text ++ after)
      (valid : items.Valid after) :
    ReadsCall text p name inside
      (.ok ⟨⟨name, items.trees⟩, p + (name ++ ascii '(' :: items.text).length⟩)
  | rejected {e : Rejection}
    (same : ∀ done stack, result p done stack .blank (name ++ ascii '(' :: inside) = .error e)
    (unfinished : e.incomplete = true → ∃ items : OpenItems, items.Valid ∧ items.text = inside) :
    ReadsCall text p name inside (.error (.rejected (e.locate text)))

/-- The text ends in arguments of the open invocation, after at most one comma. -/
structure Stays (top : OpenCall) (text : Bytes) (comma : Option Gap) (items : OpenItems) :
    Prop where
  split : text = commaText comma ++ items.text
  gaps : ∀ g ∈ comma, GapValid g
  allowed : comma ≠ none → top.args ≠ [] ∧ top.afterComma = false
  valid : items.Valid

/-- What is left of an open invocation is read past its closing parenthesis, or rejected. -/
inductive ReadsItems (text rest : Bytes) (p : Nat) (top : OpenCall) :
    Except Halt (Passed Invocation) → Prop where
  | closed {comma : Option Gap} {items : Items} {after : Bytes}
      (closes : Closes top rest comma items after) :
    ReadsItems text rest p top
      (.ok ⟨⟨top.name, top.args.reverse ++ items.trees⟩,
        p + (commaText comma ++ items.text).length⟩)
  | rejected {e : Rejection}
      (same : ∀ done stack, result p done (top :: stack) .blank rest = .error e)
    (unfinished : e.incomplete = true → ∃ comma items, Stays top rest comma items) :
    ReadsItems text rest p top (.error (.rejected (e.locate text)))

section Arguments

variable {c : UInt8} {more : Bytes} {invocation : Nat → Except Halt (Passed Invocation)}

theorem reads_string (stands : Stands text p (ascii '"' :: more))
    (enough : (ascii '"' :: more).length < fuel) :
    ReadsArgument text (ascii '"' :: more) p (argument text invocation fuel p) := by
  have start : argument text invocation fuel p = (stringRest text p fuel (p + 1) []).map
      fun string =>
      ⟨.literal (.string string.value), string.after⟩ := by
    rw [argument, peek_eq stands]
    rfl
  obtain ⟨pieces, rest, rfl, valid, ends⟩ := StringPart.exists_pieces more
  -- A string that is not closed, and may end in a backslash.
  have unclosed : ∀ backslash : Bool, rest = (if backslash then [ascii '\\'] else []) →
      ReadsArgument text (ascii '"' :: (pieces.flatMap StringPart.text ++ rest)) p
        (argument text invocation fuel p) := by
    rintro backslash rfl
    have same :
        ascii '"' :: (pieces.flatMap StringPart.text ++ if backslash then [ascii '\\'] else []) =
        (OpenPhrase.string pieces backslash).text := by rw [OpenPhrase.text]
    rw [same] at stands enough ⊢
    rw [start, stringRest_open valid stands (Nat.le_of_lt enough)]
    exact .rejected (fun done top stack => result_open_string valid backslash)
      fun _ => ⟨_, by rwa [OpenPhrase.Valid], rfl⟩
  rcases ends with ⟨after, rfl⟩ | rfl | rfl
  · have same : ascii '"' :: (pieces.flatMap StringPart.text ++ ascii '"' :: after) =
        (Phrase.string pieces).text ++ after := by simp [Phrase.text]
    rw [same] at stands enough
    rw [List.length_append] at enough
    rw [start, stringRest_closed valid stands (by omega)]
    exact .phrase same (by rwa [Phrase.Valid])
  · exact unclosed false rfl
  · exact unclosed true rfl

theorem argument_number (stands : Stands text p (c :: more))
    (starts : (Bytes.isDigit c || (c = ascii '-' && startsWith Bytes.isDigit more)) = true) :
    argument text invocation fuel p = (number text fuel p).map fun number =>
      ⟨.literal (.number number.value), number.after⟩ := by
  have quote : c ≠ ascii '"' := by
    rintro rfl
    simp [show Bytes.isDigit (ascii '"') = false by decide,
      show ascii '"' ≠ ascii '-' by decide] at starts
  rw [argument, peek_eq stands]
  show (if c = ascii '"' then _ else _) = _
  rw [if_neg quote, numberAt_eq stands, starts]
  rfl

theorem reads_number {negative : Bool} (digit : Bytes.isDigit c = true)
    (stands : Stands text p ((if negative then [ascii '-'] else []) ++ c :: more))
    (enough : ((if negative then [ascii '-'] else []) ++ c :: more).length < fuel) :
    ReadsArgument text ((if negative then [ascii '-'] else []) ++ c :: more) p
      (argument text invocation fuel p) := by
  have start : argument text invocation fuel p = (number text fuel p).map fun number =>
      ⟨.literal (.number number.value), number.after⟩ := by
    cases negative with
    | true => exact argument_number stands (by simp [startsWith, digit])
    | false => exact argument_number stands (by simp [digit])
  rw [start]
  rcases Figure.valid_or_broken negative digit more with
    ⟨n, after, same, valid⟩ | ⟨n, d, after, same, broken⟩
  · rw [same] at stands enough
    rw [List.length_append] at enough
    rw [number_figure valid stands (by omega)]
    exact @ReadsArgument.phrase _ _ p (.number n) after (by rw [same, Phrase.text])
      (by rwa [Phrase.Valid])
  · rw [same] at stands enough
    rw [List.length_append] at enough
    rw [number_broken broken stands (by omega)]
    refine .rejected (fun done top stack => ?_) nofun
    rw [same]
    exact result_broken broken

theorem argument_name {name after : Bytes} (first : c :: more = name ++ after)
    (isName : IsName name after) (stands : Stands text p (c :: more))
    (enough : (c :: more).length < fuel) (quote : c ≠ ascii '"')
    (unsigned : (Bytes.isDigit c || (c = ascii '-' && startsWith Bytes.isDigit more)) = false) :
    argument text invocation fuel p =
      if startsWith (· = ascii '(') after then
        (invocation p).map fun call => ⟨.call call.value.name call.value.args, call.after⟩
      else .ok ⟨.ident name, p + name.length⟩ := by
  have nonempty : name.isEmpty = false := List.isEmpty_eq_false_iff.mpr isName.nonempty
  have found : Stands text p (name ++ after) := first ▸ stands
  have short : name.length < fuel := by
    rw [first, List.length_append] at enough
    omega
  have opens := startsAt_eq found.past (· = ascii '(')
  simp only [argument, peek_eq stands, if_neg quote, numberAt_eq stands, unsigned,
    name_eq isName found short, nonempty, opens, bind, Except.bind, Bool.false_eq_true, if_false]
  cases startsWith (· = ascii '(') after with
  | true => rfl
  | false => rfl

theorem reads_name {name after : Bytes} (first : c :: more = name ++ after)
    (isName : IsName name after) (stands : Stands text p (c :: more))
    (enough : (c :: more).length < fuel) (quote : c ≠ ascii '"')
    (unsigned : (Bytes.isDigit c || (c = ascii '-' && startsWith Bytes.isDigit more)) = false)
    (reads : ∀ inside, after = ascii '(' :: inside → ReadsCall text p name inside (invocation p)) :
    ReadsArgument text (c :: more) p (argument text invocation fuel p) := by
  rw [argument_name first isName stands enough quote unsigned, first]
  cases opens : startsWith (· = ascii '(') after with
  | false =>
    refine @ReadsArgument.phrase _ _ p (.ident name) after (by rw [Phrase.text]) ?_
    rw [Phrase.Valid]
    refine ⟨isName, opens, ?_⟩
    rintro rfl
    obtain ⟨rfl, rfl⟩ := List.cons.inj first
    simpa using (Bool.or_eq_false_iff.mp unsigned).2
  | true =>
    obtain ⟨inside, rfl⟩ := startsWith_eq opens
    have call := reads inside rfl
    generalize invocation p = found at call ⊢
    cases call with
    | @closed items after split valid =>
      subst split
      refine @ReadsArgument.phrase _ _ p (.call name items) after (by simp [Phrase.text]) ?_
      rw [Phrase.Valid]
      exact ⟨isName, valid⟩
    | rejected same unfinished =>
      refine .rejected (fun done top stack => same done (top :: stack)) fun incomplete => ?_
      obtain ⟨items, valid, rfl⟩ := unfinished incomplete
      exact ⟨.call name items, by rw [OpenPhrase.Valid]; exact ⟨isName,
        valid⟩, by rw [OpenPhrase.text]⟩

structure AtArgument (text : Bytes) (p : Nat) (c : UInt8) (more : Bytes) : Prop where
  stands : Stands text p (c :: more)
  space : isSpace c = false
  token : startsComment (c :: more) = false
  close : c ≠ ascii ')'
  comma : c ≠ ascii ','

theorem reads_argument (before : AtArgument text p c more) (enough : (c :: more).length < fuel)
    (reads : ∀ name inside, c :: more = name ++ ascii '(' :: inside →
      IsName name (ascii '(' :: inside) → ReadsCall text p name inside (invocation p)) :
    ReadsArgument text (c :: more) p (argument text invocation fuel p) := by
  obtain ⟨stands, space, token, close, comma⟩ := before
  by_cases quote : c = ascii '"'
  · subst quote
    exact reads_string stands enough
  cases number : Bytes.isDigit c || (c = ascii '-' && startsWith Bytes.isDigit more) with
  | true =>
    rw [Bool.or_eq_true, Bool.and_eq_true, decide_eq_true_iff] at number
    rcases number with digit | ⟨rfl, digit⟩
    · exact @reads_number _ _ _ _ _ _ false digit stands enough
    · cases more with
      | nil => cases digit
      | cons d more => exact @reads_number _ _ _ _ _ _ true digit stands enough
  | false =>
    by_cases kind : isWordStart c = true ∨ isOperator c = true
    · obtain ⟨name, after, first, isName⟩ := exists_name kind token
      refine reads_name first isName stands enough quote number fun inside opens => ?_
      subst opens
      exact reads name inside first isName
    · simp only [not_or, Bool.not_eq_true] at kind
      have digit : Bytes.isDigit c = false := (Bool.or_eq_false_iff.mp number).1
      simp only [argument, peek_eq stands, if_neg quote, numberAt_eq stands, number,
        name_none stands kind.1 kind.2,
        bind, Except.bind, List.isEmpty_nil, if_true, Bool.false_eq_true, if_false]
      rw [fail_eq]
      exact .rejected
        (fun done top stack => result_inside space kind.1 kind.2 digit close comma quote) nofun

end Arguments

section Items

variable {top : OpenCall} {gap : Gap} {after more : Bytes} {found : Except Halt (Passed Invocation)}

theorem Stays.bare {comma : Option Gap} {items : OpenItems} (stays : Stays top rest comma items)
    (refused : top.args = [] ∨ top.afterComma = true) : rest = items.text := by
  rw [stays.split, no_comma stays.allowed refused, commaText, List.nil_append]

theorem reads_end {comment : Option Bytes} (gapValid : GapValid gap)
    (unbroken : ∀ line ∈ comment, Bytes.newline ∉ line) :
    ReadsItems text (gapText gap ++ commentText comment) p top
      (.error
        (.rejected (Rejection.locate text ⟨top.start, .unclosedInvocation top.name, true⟩))) := by
  refine .rejected (fun done stack => ?_) fun _ => ⟨none, .finish gap comment, ?_⟩
  · rw [result_gap gapValid, result_last unbroken, result_end]
    rfl
  · refine ⟨by rw [commaText, OpenItems.text, List.nil_append], by simp, by simp, ?_⟩
    rw [OpenItems.Valid]
    exact ⟨gapValid, unbroken⟩

theorem reads_close (gapValid : GapValid gap) :
    ReadsItems text (gapText gap ++ ascii ')' :: more) p top
    (.ok ⟨⟨top.name, top.args.reverse⟩, p + (gapText gap).length + 1⟩) := by
  have closes : Closes top (gapText gap ++ ascii ')' :: more) none (.close gap) more :=
    ⟨by simp [commaText, Items.text], by simp, by simp, by rwa [Items.Valid]⟩
  have reads := @ReadsItems.closed text _ p _ _ _ _ closes
  simpa [commaText, Items.text, Items.trees, Nat.add_assoc] using reads

theorem reads_refused (gapValid : GapValid gap)
    (refused : (top.args.isEmpty || top.afterComma) = true) :
    ReadsItems text (gapText gap ++ ascii ',' :: more) p top
      (.error
        (.rejected
          (Rejection.locate text ⟨p + (gapText gap).length, .unexpectedComma, false⟩))) := by
  refine .rejected (fun done stack => ?_) nofun
  rw [result_gap gapValid, result_comma, if_pos refused]
  rfl

theorem ReadsItems.after_comma (gapValid : GapValid gap)
    (allowed : (top.args.isEmpty || top.afterComma) = false)
    (reads : ReadsItems text more (p + (gapText gap).length + 1)
      { top with afterComma := true } found) :
    ReadsItems text (gapText gap ++ ascii ',' :: more) p top found := by
  have may : top.args ≠ [] ∧ top.afterComma = false := by simpa using allowed
  have gaps : ∀ g ∈ some gap, GapValid g := by
    rintro g ⟨⟩
    exact gapValid
  cases reads with
  | @closed comma items after closes =>
    obtain rfl := no_comma closes.allowed (.inr rfl)
    have whole : Closes top (gapText gap ++ ascii ',' :: more) (some gap) items after :=
      ⟨by simp [closes.split, commaText], gaps, fun _ => may, closes.valid⟩
    have reads := @ReadsItems.closed text _ p _ _ _ _ whole
    have place : p + (commaText (some gap) ++ items.text).length =
        p + (gapText gap).length + 1 + (commaText none ++ items.text).length := by
      simp only [commaText, List.length_append, List.length_singleton, List.length_nil]
      omega
    rwa [place] at reads
  | rejected same unfinished =>
    refine .rejected (fun done stack => ?_) fun incomplete => ?_
    · rw [result_gap gapValid, result_comma, if_neg (by simp [allowed]), same]
    · obtain ⟨comma, items, stays⟩ := unfinished incomplete
      obtain rfl := stays.bare (.inr rfl)
      exact ⟨some gap, items, by simp [commaText], gaps, fun _ => may, stays.valid⟩

theorem ReadsItems.after_phrase {phrase : Phrase} (gapValid : GapValid gap)
    (valid : phrase.Valid after)
    (reads : ReadsItems text after (p + (gapText gap).length + phrase.text.length)
      (given phrase.tree top) found) :
    ReadsItems text (gapText gap ++ (phrase.text ++ after)) p top found := by
  cases reads with
  | @closed comma items last closes =>
    have whole : Closes top (gapText gap ++ (phrase.text ++ after)) none
        (.item gap phrase comma items) last := by
      refine ⟨by simp [closes.split, commaText, Items.text], by simp, by simp, ?_⟩
      rw [Items.Valid, ← closes.split]
      exact ⟨gapValid, valid, closes.gaps, closes.valid⟩
    have reads := @ReadsItems.closed text _ p _ _ _ _ whole
    simpa [commaText, Items.text, Items.trees, given, Nat.add_assoc] using reads
  | rejected same unfinished =>
    refine .rejected (fun done stack => ?_) fun incomplete => ?_
    · rw [result_gap gapValid, result_phrase phrase valid, same]
    · obtain ⟨comma, items, stays⟩ := unfinished incomplete
      refine ⟨none, .item gap phrase comma items, ?_, by simp, by simp, ?_⟩
      · rw [commaText, OpenItems.text, ← stays.split, List.nil_append]
      · rw [OpenItems.Valid, ← stays.split]
        exact ⟨gapValid, valid, stays.gaps, stays.valid⟩

theorem reads_within (gapValid : GapValid gap) {e : Rejection}
    (same : ∀ done top stack, result (p + (gapText gap).length) done (top :: stack) .blank after =
      .error e)
    (unfinished : e.incomplete = true → ∃ u : OpenPhrase, u.Valid ∧ u.text = after) :
    ReadsItems text (gapText gap ++ after) p top (.error (.rejected (e.locate text))) := by
  refine .rejected (fun done stack => ?_) fun incomplete => ?_
  · rw [result_gap gapValid, same]
  · obtain ⟨u, valid, rfl⟩ := unfinished incomplete
    refine ⟨none,
      .within gap u, by rw [commaText, OpenItems.text, List.nil_append], by simp, by simp, ?_⟩
    rw [OpenItems.Valid]
    exact ⟨gapValid, valid⟩

theorem reads_items {argument : Nat → Except Halt (Passed Argument)} {bound : Nat}
    (reads : ∀ {p c more}, AtArgument text p c more → (c :: more).length ≤ bound →
      ReadsArgument text (c :: more) p (argument p))
    (stands : Stands text p rest) (within : rest.length ≤ bound) (enough : rest.length + 2 < fuel) :
    ReadsItems text rest p top (arguments text argument fuel p top) := by
  induction fuel generalizing p rest top with
  | zero => exact absurd enough (Nat.not_lt_zero _)
  | succ fuel ih =>
    -- A round after which the loop goes on has passed a byte at least, so the fuel lasts.
    have skip := skips_space stands (show rest.length + 1 < fuel by omega)
    rw [arguments]
    generalize skipSpace text fuel p = found at skip ⊢
    cases skip with
    | ended split gapValid unbroken last =>
      simp only [if_pos last.ended, bind, Except.bind]
      rw [fail_eq, split]
      exact reads_end gapValid unbroken
    | @token gap c more split gapValid here space token =>
      subst split
      rw [List.length_append, List.length_cons] at within enough
      simp only [if_neg here.not_ended, peek_eq here, bind, Except.bind]
      by_cases close : c = ascii ')'
      · subst close
        exact reads_close gapValid
      by_cases comma : c = ascii ','
      · subst comma
        rw [if_neg close, if_pos rfl]
        cases refused : top.args.isEmpty || top.afterComma with
        | true =>
          rw [if_pos rfl, fail_eq]
          exact reads_refused gapValid refused
        | false => exact .after_comma gapValid refused (ih here.next (by omega) (by omega))
      · have item := reads ⟨here, space, token, close, comma⟩ (by rw [List.length_cons]; omega)
        rw [if_neg close, if_neg comma]
        generalize argument (p + (gapText gap).length) = found at item ⊢
        cases item with
        | rejected same unfinished => exact reads_within gapValid same unfinished
        | phrase split valid =>
          have shorter := valid.shorter
          rw [← split, List.length_cons] at shorter
          rw [split] at here ⊢
          exact .after_phrase gapValid valid (ih here.past (by omega) (by omega))

end Items

theorem reads_call {name inside : Bytes} (isName : IsName name (ascii '(' :: inside))
    (stands : Stands text p (name ++ ascii '(' :: inside))
    (enough : (name ++ ascii '(' :: inside).length + 1 < fuel) :
    ReadsCall text p name inside (invocation text fuel p) := by
  induction fuel generalizing p name inside with
  | zero => exact absurd enough (Nat.not_lt_zero _)
  | succ fuel ih =>
    have length : (name ++ ascii '(' :: inside).length = name.length + inside.length + 1 := by
      rw [List.length_append, List.length_cons, Nat.add_assoc]
    have positive := List.length_pos_iff.mpr isName.nonempty
    have paren := stands.past
    have start : invocation text (fuel + 1) p =
        arguments text (argument text (invocation text fuel) fuel) fuel
        (p + name.length + 1) ⟨name, p, [], false⟩ := by
      have nonempty : name.isEmpty = false := List.isEmpty_eq_false_iff.mpr isName.nonempty
      simp only [invocation, name_eq isName stands (show name.length < fuel by omega), nonempty,
        if_neg paren.not_ended,
        peek_eq paren, bind, Except.bind, if_true, Bool.false_eq_true, if_false]
    -- An invocation among the arguments is shorter, and is read with the fuel that is left.
    have reads : ReadsItems text inside (p + name.length + 1) ⟨name, p, [], false⟩
        (invocation text (fuel + 1) p) := by
      rw [start]
      refine reads_items (fun before within => ?_) paren.next (Nat.le_refl _) (by omega)
      refine reads_argument before (by omega) fun _ _ split isName =>
        ih isName (split ▸ before.stands) ?_
      rw [← split]
      omega
    generalize invocation text (fuel + 1) p = found at reads ⊢
    cases reads with
    | @closed comma items after closes =>
      obtain rfl := no_comma closes.allowed (.inl rfl)
      have reads := @ReadsCall.closed text p name inside items after closes.split closes.valid
      simpa [commaText, Nat.add_assoc, Nat.add_comm 1] using reads
    | rejected same unfinished =>
      refine .rejected (fun done stack => ?_) fun incomplete => ?_
      · rw [result_call isName, same]
      · obtain ⟨comma, items, stays⟩ := unfinished incomplete
        exact ⟨items, stays.valid, (stays.bare (.inl rfl)).symm⟩

section Programs

variable {done : List Invocation} {gap : Gap} {name after more : Bytes} {c : UInt8}

inductive ReadsProgram (text rest : Bytes) (p : Nat) (done : List Invocation) :
    Except Halt Program → Prop where
  | accepted {program : Program} (same : result p done [] .blank rest = .ok program) :
    ReadsProgram text rest p done (.ok program)
  | rejected {e : Rejection} (same : result p done [] .blank rest = .error e)
    (unfinished : e.incomplete = true → ∃ u : Unfinished, u.Valid ∧ u.text = rest) :
    ReadsProgram text rest p done (.error (.rejected (e.locate text)))

theorem ReadsProgram.after_statement {s : Statement} {found : Except Halt Program}
    (valid : s.Valid after)
    (reads : ReadsProgram text after (p + s.text.length) (s.tree :: done) found) :
    ReadsProgram text (s.text ++ after) p done found := by
  cases reads with
  | accepted same => exact .accepted ((result_statement valid).trans same)
  | rejected same unfinished =>
    refine .rejected ((result_statement valid).trans same) fun incomplete => ?_
    obtain ⟨u, rest, rfl⟩ := unfinished incomplete
    exact ⟨.statement s u, ⟨valid, rest⟩, rfl⟩

inductive ReadsStatement (text rest : Bytes) (p : Nat) :
    Except Halt (Passed Invocation) → Prop where
  | closed {name after : Bytes} {items : Items}
      (split : rest = name ++ ascii '(' :: (items.text ++ after))
    (isName : IsName name (ascii '(' :: (items.text ++ after))) (valid : items.Valid after) :
    ReadsStatement text rest p
      (.ok ⟨⟨name, items.trees⟩, p + (name ++ ascii '(' :: items.text).length⟩)
  | rejected {e : Rejection} (same : ∀ done, result p done [] .blank rest = .error e)
    (unfinished : e.incomplete = true → IsName rest [] ∨ ∃ name items,
      (OpenPhrase.call name items).Valid ∧ (OpenPhrase.call name items).text = rest) :
    ReadsStatement text rest p (.error (.rejected (e.locate text)))

theorem reads_unnamed (stands : Stands text p (c :: more)) (space : isSpace c = false)
    (word : isWordStart c = false) (operator : isOperator c = false) :
    ReadsStatement text (c :: more) p (invocation text (fuel + 1) p) := by
  simp only [invocation, name_none stands word operator, peek_eq stands, bind, Except.bind,
    List.isEmpty_nil, if_true]
  rw [fail_eq]
  exact .rejected (fun done => result_outside space word operator) nofun

theorem reads_unopened (isName : IsName name after) (stands : Stands text p (name ++ after))
    (enough : name.length < fuel) (plain : startsWith (· = ascii '(') after = false) :
    ReadsStatement text (name ++ after) p (invocation text (fuel + 1) p) := by
  have nonempty : name.isEmpty = false := List.isEmpty_eq_false_iff.mpr isName.nonempty
  have same := fun done => @result_ident p done [] name after isName plain fun _ => .inr rfl
  simp only [invocation, name_eq isName stands enough, nonempty, bind, Except.bind,
    Bool.false_eq_true, if_false]
  cases after with
  | nil =>
    rw [if_pos stands.past.ended, fail_eq]
    refine .rejected same fun _ => .inl ?_
    rwa [List.append_nil]
  | cons c rest =>
    have other : c ≠ ascii '(' := by simpa [startsWith] using plain
    simp only [if_neg stands.past.not_ended, peek_eq stands.past, if_neg other]
    rw [fail_eq]
    exact .rejected same nofun

theorem reads_statement (stands : Stands text p (c :: more)) (space : isSpace c = false)
    (token : startsComment (c :: more) = false) (enough : (c :: more).length + 1 < fuel) :
    ReadsStatement text (c :: more) p (invocation text fuel p) := by
  obtain ⟨fuel, rfl⟩ := Nat.exists_eq_add_one_of_ne_zero (Nat.ne_of_gt (Nat.zero_lt_of_lt enough))
  by_cases kind : isWordStart c = true ∨ isOperator c = true
  · obtain ⟨name, after, split, isName⟩ := exists_name kind token
    rw [split] at stands enough ⊢
    cases opens : startsWith (· = ascii '(') after with
    | false =>
      rw [List.length_append] at enough
      exact reads_unopened isName stands (by omega) opens
    | true =>
      obtain ⟨inside, rfl⟩ := startsWith_eq opens
      have call := reads_call isName stands enough
      generalize invocation text (fuel + 1) p = found at call ⊢
      cases call with
      | closed split valid =>
        subst split
        exact .closed rfl isName valid
      | rejected same unfinished =>
        refine .rejected (fun done => same done []) fun incomplete => .inr ?_
        obtain ⟨items, valid, rfl⟩ := unfinished incomplete
        exact ⟨name,
          items, by rw [OpenPhrase.Valid]; exact ⟨isName, valid⟩, by rw [OpenPhrase.text]⟩
  · simp only [not_or, Bool.not_eq_true] at kind
    exact reads_unnamed stands space kind.1 kind.2

theorem reads_program (stands : Stands text p rest) (enough : rest.length + 2 < fuel) :
    ReadsProgram text rest p done (program text fuel p done) := by
  induction fuel generalizing p rest done with
  | zero => exact absurd enough (Nat.not_lt_zero _)
  | succ fuel ih =>
    have skip := skips_space stands (show rest.length + 1 < fuel by omega)
    rw [program]
    generalize skipSpace text fuel p = found at skip ⊢
    cases skip with
    | ended split gapValid unbroken last =>
      simp only [if_pos last.ended, bind, Except.bind]
      refine .accepted ?_
      rw [split, result_gap gapValid, result_last unbroken]
      rfl
    | @token gap c more split gapValid here space token =>
      subst split
      rw [List.length_append, List.length_cons] at enough
      have statement :=
        @reads_statement text _ fuel _ _ here space token (by rw [List.length_cons]; omega)
      simp only [if_neg here.not_ended, bind, Except.bind]
      generalize invocation text fuel (p + (gapText gap).length) = found at statement ⊢
      cases statement with
      | @closed name after items split isName valid =>
        have total := congrArg List.length split
        simp only [List.length_append, List.length_cons] at total
        have assoc : gapText gap ++ c :: more = (Statement.mk gap name items).text ++ after := by
          simp [split, Statement.text]
        -- The descent counts from the name, the derivation from the gap before it.
        have place : p + (gapText gap).length + (name ++ ascii '(' :: items.text).length =
            p + (Statement.mk gap name items).text.length := by
          rw [Nat.add_assoc, ← List.length_append]
          rfl
        rw [assoc] at stands ⊢
        rw [place]
        exact .after_statement ⟨gapValid, isName, valid⟩ (ih stands.past (by omega))
      | rejected same unfinished =>
        refine .rejected ((result_gap gapValid).trans (same done)) fun incomplete => ?_
        rcases unfinished incomplete with isName | ⟨name, items, valid, text⟩
        · exact ⟨.named gap (c :: more), ⟨gapValid, isName⟩, rfl⟩
        · exact ⟨.call gap name items, ⟨gapValid, valid⟩, by rw [Unfinished.text, text]⟩

end Programs

/-- The two ways of reading a text come to the same. The descent ends, and never leaves the text. -/
theorem parse_eq (text : Bytes) {fuel : Nat} (enough : text.length + 2 < fuel) :
    parse text fuel = (Program.parse text).mapError .rejected := by
  have reads := @reads_program text text 0 fuel [] (stands_start text) enough
  show program text fuel 0 [] =
      ((result 0 [] [] .blank text).mapError (·.locate text)).mapError .rejected
  generalize program text fuel 0 [] = found at reads ⊢
  cases reads with
  | accepted same =>
    rw [same]
    rfl
  | rejected same unfinished =>
    rw [same]
    rfl

/-- A text that is rejected for want of more has a derivation up to its end. -/
theorem exists_unfinished {e : Rejection} (rejected : Program.ofText text = .error e)
    (incomplete : e.incomplete = true) : ∃ u : Unfinished, u.Valid ∧ u.text = text := by
  have known : result 0 [] [] .blank text = .error e := rejected
  have reads :=
    @reads_program text text 0 (text.length + 3) [] (stands_start text) (Nat.lt_succ_self _)
  generalize program text (text.length + 3) 0 [] = found at reads
  cases reads with
  | accepted same =>
    rw [known] at same
    cases same
  | rejected same unfinished =>
    rw [known] at same
    cases same
    exact unfinished incomplete

end CallScript.Descent
