import CallScript.Proofs.Program.Joining
import CallScript.Proofs.Program.Unfinished

/- The same texts read by recursive descent. A cursor moves over the text; there is a function for
   each kind of token and one for invocations, which calls itself for those among the arguments.
   Bytes and slices of the text are only taken through `byte` and `slice`, which crash where the
   text has none, and every loop counts down its fuel. On each token the functions come to what the
   grammar says of it. -/
namespace CallScript

/-- Why a reading by descent gives nothing: the text is wrong, or it was left, or the fuel was used
up. -/
inductive Halt where
  | rejected (error : ParseError)
  | crashed
  | outOfFuel
  deriving DecidableEq, Repr

structure Passed (α : Type) where
  value : α
  after : Nat
  deriving DecidableEq, Repr

namespace Descent

open Grammar Lexical

section Definitions

variable (text : Bytes)

def byte (i : Nat) : Except Halt UInt8 :=
  match text[i]? with
  | some c => .ok c
  | none => .error .crashed

def slice (first last : Nat) : Except Halt Bytes :=
  if first ≤ last ∧ last ≤ text.length then .ok ((text.take last).drop first) else .error .crashed

def peek (i : Nat) : Except Halt UInt8 := if text.length ≤ i then .ok 0 else byte text i

def count : Nat → Nat → Nat × Nat → Except Halt (Nat × Nat)
  | 0, _, place => .ok place
  | bytes + 1, i, place =>
    if text.length ≤ i then .ok place
    else do
      let c ← byte text i
      count bytes (i + 1) (if c = Bytes.newline then (place.1 + 1, 1) else (place.1, place.2 + 1))

def fail (e : Rejection) : Except Halt α := do
  let place ← count text e.position 0 (1, 1)
  .error (.rejected { e with line := place.1, column := place.2 })

def startsAt (test : UInt8 → Bool) (p : Nat) : Except Halt Bool :=
  if text.length ≤ p then .ok false
  else do
    let c ← peek text p
    return test c

def commentAt (p : Nat) : Except Halt Bool := do
  let rest ← slice text p text.length
  return startsComment rest

def operatorAt (p : Nat) : Except Halt Bool := do
  if ← startsAt text isOperator p then
    let comment ← commentAt text p
    return !comment
  else return false

def pointAt (p : Nat) : Except Halt Bool := do
  if ← startsAt text (· = ascii '.') p then
    let c ← peek text (p + 1)
    return Bytes.isDigit c
  else return false

def numberAt (p : Nat) : Except Halt Bool := do
  let c ← peek text p
  if Bytes.isDigit c then return true
  else if c = ascii '-' then
    let d ← peek text (p + 1)
    return Bytes.isDigit d
  else return false

def skipWhile (goesOn : Nat → Except Halt Bool) : Nat → Nat → Except Halt Nat
  | 0, _ => .error .outOfFuel
  | fuel + 1, p => do
    if ← goesOn p then skipWhile goesOn fuel (p + 1) else return p

def skipSpace : Nat → Nat → Except Halt Nat
  | 0, _ => .error .outOfFuel
  | fuel + 1, p =>
    if text.length ≤ p then .ok p
    else do
      if ← commentAt text p then
        let q ← skipWhile (startsAt text (· ≠ Bytes.newline)) fuel p
        skipSpace fuel q
      else
        let c ← peek text p
        if isSpace c then skipSpace fuel (p + 1) else return p

def nameEnd (c : UInt8) (fuel p : Nat) : Except Halt Nat :=
  if isWordStart c then skipWhile (startsAt text isWordPart) fuel p
  else if isOperator c then skipWhile (operatorAt text) fuel p
  else .ok p

def name (fuel p : Nat) : Except Halt (Passed Name) :=
  if text.length ≤ p then .ok ⟨[], p⟩
  else do
    let c ← peek text p
    let last ← nameEnd text c fuel p
    let found ← slice text p last
    return ⟨found, last⟩

def numberEnd (fuel p : Nat) : Except Halt Nat := do
  let c ← peek text p
  let whole ← skipWhile (startsAt text Bytes.isDigit) fuel (if c = ascii '-' then p + 1 else p)
  if ← pointAt text whole then skipWhile (startsAt text Bytes.isDigit) fuel (whole + 1)
  else return whole

def number (fuel p : Nat) : Except Halt (Passed Number) := do
  let last ← numberEnd text fuel p
  if ← startsAt text (fun c => isWordPart c || c = ascii '.') last then
    let bad ← slice text p (last + 1)
    fail text ⟨p, .invalidNumber bad, false⟩
  else
    let digits ← slice text p last
    match Number.parse? digits with
    | some value => return ⟨value, last⟩
    | none => fail text ⟨p, .invalidNumber digits, false⟩

def stringRest (start : Nat) : Nat → Nat → Bytes → Except Halt (Passed Bytes)
  | 0, _, _ => .error .outOfFuel
  | fuel + 1, p, read =>
    if text.length ≤ p then fail text ⟨start, .unclosedString, true⟩
    else do
      let c ← peek text p
      if c = ascii '"' then return ⟨read.reverse, p + 1⟩
      else if c = ascii '\\' then
        if text.length ≤ p + 1 then fail text ⟨start, .unclosedString, true⟩
        else
          let d ← byte text (p + 1)
          stringRest start fuel (p + 2) (unescape d :: read)
      else stringRest start fuel (p + 1) (c :: read)

/-- An argument. A name is read once more if it turns out to be that of an invocation. -/
def argument (invocation : Nat → Except Halt (Passed Invocation)) (fuel p : Nat) :
    Except Halt (Passed Argument) := do
  let c ← peek text p
  if c = ascii '"' then
    let string ← stringRest text p fuel (p + 1) []
    return ⟨.literal (.string string.value), string.after⟩
  else if ← numberAt text p then
    let number ← number text fuel p
    return ⟨.literal (.number number.value), number.after⟩
  else
    let name ← name text fuel p
    if name.value.isEmpty then fail text ⟨p, .unexpected c, false⟩
    else if ← startsAt text (· = ascii '(') name.after then
      let call ← invocation p
      return ⟨.call call.value.name call.value.args, call.after⟩
    else return ⟨.ident name.value, name.after⟩

def arguments (argument : Nat → Except Halt (Passed Argument)) :
    Nat → Nat → OpenCall → Except Halt (Passed Invocation)
  | 0, _, _ => .error .outOfFuel
  | fuel + 1, p, top => do
    let p ← skipSpace text fuel p
    if text.length ≤ p then fail text ⟨top.start, .unclosedInvocation top.name, true⟩
    else
      let c ← peek text p
      if c = ascii ')' then return ⟨⟨top.name, top.args.reverse⟩, p + 1⟩
      else if c = ascii ',' then
        if top.args.isEmpty || top.afterComma then fail text ⟨p, .unexpectedComma, false⟩
        else arguments argument fuel (p + 1) { top with afterComma := true }
      else
        let arg ← argument p
        arguments argument fuel arg.after
          { top with args := arg.value :: top.args, afterComma := false }

def invocation : Nat → Nat → Except Halt (Passed Invocation)
  | 0, _ => .error .outOfFuel
  | fuel + 1, p => do
    let name ← name text fuel p
    if name.value.isEmpty then
      let c ← peek text p
      fail text ⟨p, .nameExpected c, false⟩
    else if text.length ≤ name.after then fail text ⟨p, .parenthesisExpected name.value, true⟩
    else
      let c ← peek text name.after
      if c = ascii '(' then
        arguments text (argument text (invocation fuel) fuel) fuel (name.after + 1)
          ⟨name.value, p, [], false⟩
      else fail text ⟨name.after, .parenthesisExpected name.value, false⟩

def program : Nat → Nat → List Invocation → Except Halt Program
  | 0, _, _ => .error .outOfFuel
  | fuel + 1, p, done => do
    let p ← skipSpace text fuel p
    if text.length ≤ p then return done.reverse
    else
      let inv ← invocation text fuel p
      program fuel inv.after (inv.value :: done)

def parse (fuel : Nat) : Except Halt Program := program text fuel 0 []

end Definitions

structure Stands (text : Bytes) (p : Nat) (rest : Bytes) : Prop where
  inside : p ≤ text.length
  left : text.drop p = rest

section Positions

variable {text rest run after : Bytes} {p : Nat} {c : UInt8}

theorem stands_start (text : Bytes) : Stands text 0 text := ⟨Nat.zero_le _, rfl⟩

theorem Stands.length (stands : Stands text p rest) : p + rest.length = text.length := by
  have inside := stands.inside
  rw [← stands.left, List.length_drop]
  omega

theorem Stands.past (stands : Stands text p (run ++ after)) :
    Stands text (p + run.length) after := by
  have total := stands.length
  rw [List.length_append] at total
  refine ⟨by omega, ?_⟩
  rw [← List.drop_drop, stands.left, List.drop_left]

theorem Stands.next (stands : Stands text p (c :: rest)) : Stands text (p + 1) rest := by
  have total := stands.length
  rw [List.length_cons] at total
  refine ⟨by omega, ?_⟩
  rw [← List.drop_drop, stands.left]
  rfl

theorem Stands.ended (stands : Stands text p []) : text.length ≤ p :=
  Nat.le_of_eq stands.length.symm

theorem Stands.not_ended (stands : Stands text p (c :: rest)) : ¬ text.length ≤ p := by
  have total := stands.length
  rw [List.length_cons] at total
  omega

theorem byte_eq (stands : Stands text p (c :: rest)) : byte text p = .ok c := by
  have found : text[p]? = some c := by
    have first := congrArg (·[0]?) stands.left
    simpa [List.getElem?_drop] using first
  rw [byte, found]

theorem peek_eq (stands : Stands text p (c :: rest)) : peek text p = .ok c := by
  rw [peek, if_neg stands.not_ended, byte_eq stands]

theorem slice_eq (stands : Stands text p (run ++ after)) :
    slice text p (p + run.length) = .ok run := by
  have inside := stands.past.inside
  rw [slice, if_pos ⟨Nat.le_add_right _ _, inside⟩, List.drop_take, stands.left]
  simp

theorem count_eq {before rest : Bytes} {text : Bytes} (split : text = before ++ rest)
    (bytes : Nat) :
    count text bytes before.length (lineColumn before) =
      .ok (lineColumn (before ++ rest.take bytes)) := by
  induction bytes generalizing before rest with
  | zero => simp [count]
  | succ bytes ih =>
    have stands : Stands text before.length rest := ⟨by simp [split], by simp [split]⟩
    rw [count]
    cases rest with
    | nil => rw [if_pos stands.ended, List.take_nil, List.append_nil]
    | cons c rest =>
      have later := ih (show text = (before ++ [c]) ++ rest by simp [split])
      rw [lineColumn_snoc, List.length_append, List.length_singleton, List.append_assoc,
        List.singleton_append] at later
      rw [if_neg stands.not_ended, byte_eq stands, List.take_succ_cons]
      exact later

theorem fail_eq {α : Type} (text : Bytes) (e : Rejection) :
    (fail text e : Except Halt α) = .error (.rejected (e.locate text)) := by
  have place := count_eq (show text = [] ++ text from rfl) e.position
  rw [fail, show (1, 1) = lineColumn [] from rfl, show 0 = ([] : Bytes).length from rfl, place]
  rfl

theorem startsAt_eq (stands : Stands text p rest) (test : UInt8 → Bool) :
    startsAt text test p = .ok (startsWith test rest) := by
  rw [startsAt]
  cases rest with
  | nil => rw [if_pos stands.ended, startsWith]
  | cons c rest =>
    rw [if_neg stands.not_ended, peek_eq stands]
    rfl

theorem commentAt_eq (stands : Stands text p rest) :
    commentAt text p = .ok (startsComment rest) := by
  have whole : slice text p text.length = .ok rest := by
    have all := @slice_eq text rest [] p (by simpa using stands)
    rwa [stands.length] at all
  rw [commentAt, whole]
  rfl

theorem operatorAt_eq (stands : Stands text p rest) :
    operatorAt text p = .ok (startsWith isOperator rest && !startsComment rest) := by
  rw [operatorAt, startsAt_eq stands, commentAt_eq stands]
  cases startsWith isOperator rest with
  | true => rfl
  | false => rfl

theorem peek_digit (stands : Stands text p rest) :
    (peek text p).map Bytes.isDigit = .ok (startsWith Bytes.isDigit rest) := by
  cases rest with
  | nil =>
    rw [peek, if_pos stands.ended]
    rfl
  | cons c rest =>
    rw [peek_eq stands]
    rfl

theorem skipWhile_eq {goesOn : Nat → Except Halt Bool} {test : Bytes → Bool}
    (known : ∀ {p rest}, Stands text p rest → goesOn p = .ok (test rest)) {fuel : Nat}
    (stands : Stands text p (run ++ after)) (longest : Longest test run after)
    (enough : run.length < fuel) :
    skipWhile goesOn fuel p = .ok (p + run.length) := by
  induction run generalizing p fuel with
  | nil =>
    obtain ⟨fuel, rfl⟩ := Nat.exists_eq_add_one_of_ne_zero (Nat.ne_of_gt (Nat.zero_lt_of_lt enough))
    rw [skipWhile, known stands, show test ([] ++ after) = false from longest]
    rfl
  | cons c run ih =>
    obtain ⟨fuel, rfl⟩ := Nat.exists_eq_add_one_of_ne_zero (Nat.ne_of_gt (Nat.zero_lt_of_lt enough))
    rw [skipWhile, known stands, show test (c :: run ++ after) = true from longest.1]
    show skipWhile goesOn fuel (p + 1) = _
    rw [ih stands.next longest.2 (by simpa using enough), List.length_cons, Nat.add_assoc,
      Nat.add_comm 1]

end Positions

structure Skipped (gap : Gap) (comment : Option Bytes) (after : Bytes) : Prop where
  gap : GapValid gap
  unbroken : ∀ line ∈ comment, Bytes.newline ∉ line
  last : comment ≠ none → after = []
  space : startsWith isSpace after = false
  token : startsComment after = false

theorem exists_skipped (text : Bytes) :
    ∃ gap comment after, text = gapText gap ++ (commentText comment ++ after) ∧
      Skipped gap comment after := by
  obtain ⟨gap, rest, rfl, valid, settled⟩ := exists_gap text
  by_cases comment : startsComment rest = true
  · have unbroken := settled.2 comment
    obtain ⟨line, rfl⟩ := startsComment_eq comment
    simp only [List.mem_cons, not_or] at unbroken
    refine ⟨gap, some line, [], by simp [commentText], valid, ?_, fun _ => rfl, rfl, rfl⟩
    rintro _ ⟨⟩
    exact unbroken.2.2
  · exact ⟨gap, none, rest, rfl, valid, by simp, by simp, settled.1, eq_false_of_ne_true comment⟩

section Tokens

variable {text run after : Bytes} {p fuel : Nat} {c : UInt8}

theorem skipSpace_end (stands : Stands text p []) (enough : 0 < fuel) :
    skipSpace text fuel p = .ok p := by
  obtain ⟨fuel, rfl⟩ := Nat.exists_eq_add_one_of_ne_zero (Nat.ne_of_gt enough)
  rw [skipSpace, if_pos stands.ended]

theorem skipSpace_blank {rest : Bytes} (stands : Stands text p (c :: rest))
    (space : isSpace c = true) :
    skipSpace text (fuel + 1) p = skipSpace text fuel (p + 1) := by
  have plain : startsComment (c :: rest) = false := not_comment (by
    revert space
    exact forall_byte (p := fun c => isSpace c = true → isOperator c = false) (by decide +kernel) c)
      rest
  rw [skipSpace, if_neg stands.not_ended, commentAt_eq stands, plain, peek_eq stands]
  show (if isSpace c = true then _ else _) = _
  rw [if_pos space]

theorem skipSpace_comment {line : Bytes}
    (stands : Stands text p (ascii '/' :: ascii '/' :: (line ++ after)))
    (unbroken : Bytes.newline ∉ line) (ends : startsWith (· ≠ Bytes.newline) after = false)
    (enough : line.length + 2 < fuel) :
    skipSpace text (fuel + 1) p = skipSpace text fuel (p + (line.length + 2)) := by
  have longest :
      Longest (startsWith (· ≠ Bytes.newline)) (ascii '/' :: ascii '/' :: line) after := by
    refine longest_of_all ?_ ends
    intro c member
    simp only [List.mem_cons] at member
    rcases member with rfl | rfl | member
    · decide
    · decide
    · rw [decide_eq_true_iff]
      rintro rfl
      exact unbroken member
  have line : Stands text p ((ascii '/' :: ascii '/' :: line) ++ after) := stands
  have skipped := skipWhile_eq (fun stands => startsAt_eq stands _) line longest enough
  rw [skipSpace, if_neg stands.not_ended, commentAt_eq stands]
  show (skipWhile (startsAt text (· ≠ Bytes.newline)) fuel p >>= skipSpace text fuel) = _
  rw [skipped]
  rfl

theorem skipSpace_eq {gap : Gap} {comment : Option Bytes} (skipped : Skipped gap comment after)
    (stands : Stands text p (gapText gap ++ (commentText comment ++ after)))
    (enough : (gapText gap ++ commentText comment).length + 1 < fuel) :
    skipSpace text fuel p = .ok (p + (gapText gap ++ commentText comment).length) := by
  induction gap generalizing p fuel with
  | nil =>
    cases comment with
    | none =>
      cases after with
      | nil => exact skipSpace_end stands (Nat.zero_lt_of_lt enough)
      | cons c rest =>
        obtain ⟨fuel, rfl⟩ :=
          Nat.exists_eq_add_one_of_ne_zero (Nat.ne_of_gt (Nat.zero_lt_of_lt enough))
        have stands : Stands text p (c :: rest) := stands
        have space : ¬ isSpace c = true := by simpa [startsWith] using skipped.space
        rw [skipSpace, if_neg stands.not_ended, commentAt_eq stands, skipped.token, peek_eq stands]
        show (if isSpace c = true then _ else _) = _
        rw [if_neg space]
        rfl
    | some line =>
      obtain rfl := skipped.last (by simp)
      simp only [gapText_nil, commentText, List.nil_append, List.length_cons] at enough ⊢
      obtain ⟨fuel, rfl⟩ :=
        Nat.exists_eq_add_one_of_ne_zero (Nat.ne_of_gt (Nat.zero_lt_of_lt enough))
      rw [skipSpace_comment stands (skipped.unbroken line rfl) rfl (by omega)]
      rw [skipSpace_end (by simpa [commentText] using stands.past.past) (by omega)]
  | cons f gap ih =>
    have later : Skipped gap comment after :=
      ⟨skipped.gap.tail, skipped.unbroken, skipped.last, skipped.space, skipped.token⟩
    have here : f.Valid := skipped.gap f List.mem_cons_self
    simp only [gapText_cons, List.append_assoc] at stands
    rw [gapText_cons, List.append_assoc, List.length_append] at enough ⊢
    obtain ⟨fuel, rfl⟩ := Nat.exists_eq_add_one_of_ne_zero (Nat.ne_of_gt (Nat.zero_lt_of_lt enough))
    cases f with
    | blank c =>
      have one : (Filler.blank c).text.length = 1 := rfl
      rw [skipSpace_blank stands here, ih later stands.next (by omega), one, Nat.add_assoc]
    | comment line =>
      have length : (Filler.comment line).text.length = line.length + 3 := by simp [Filler.text]
      rw [length] at enough ⊢
      obtain ⟨fuel, rfl⟩ := Nat.exists_eq_add_one_of_ne_zero (show fuel ≠ 0 by omega)
      simp only [Filler.text, List.cons_append, List.append_assoc, List.nil_append] at stands
      have newline : Stands text (p + (line.length + 2))
          (Bytes.newline :: (gapText gap ++ (commentText comment ++ after))) :=
        (show Stands text p ((ascii '/' :: ascii '/' :: line) ++ _) from stands).past
      -- A comment takes two units of fuel, one for itself and one for the end of its line.
      rw [skipSpace_comment stands here rfl (by omega), skipSpace_blank newline rfl,
        ih later newline.next (by omega)]
      exact congrArg Except.ok (by omega)

/-- Blanks and comments are skipped to the end of the text, or up to a token. -/
inductive Skips (text rest : Bytes) (p : Nat) : Except Halt Nat → Prop where
  | ended {gap : Gap} {comment : Option Bytes} (split : rest = gapText gap ++ commentText comment)
    (gapValid : GapValid gap) (unbroken : ∀ line ∈ comment, Bytes.newline ∉ line)
    (stands : Stands text (p + rest.length) []) : Skips text rest p (.ok (p + rest.length))
  | token {gap : Gap} {c : UInt8} {more : Bytes} (split : rest = gapText gap ++ c :: more)
      (gapValid : GapValid gap)
    (stands : Stands text (p + (gapText gap).length) (c :: more)) (space : isSpace c = false)
    (token : startsComment (c :: more) = false) : Skips text rest p (.ok (p + (gapText gap).length))

theorem skips_space {rest : Bytes} (stands : Stands text p rest) (enough : rest.length + 1 < fuel) :
    Skips text rest p (skipSpace text fuel p) := by
  obtain ⟨gap, comment, after, rfl, skipped⟩ := exists_skipped rest
  have short : (gapText gap ++ commentText comment).length + 1 < fuel := by
    simp only [List.length_append] at enough ⊢
    omega
  rw [skipSpace_eq skipped stands short]
  have past : Stands text (p + (gapText gap ++ commentText comment).length) after := by
    rw [← List.append_assoc] at stands
    exact stands.past
  cases after with
  | nil =>
    rw [List.append_nil]
    exact .ended rfl skipped.gap skipped.unbroken past
  | cons c more =>
    obtain rfl : comment = none := Option.not_isSome_iff_eq_none.mp fun some => by
      cases skipped.last (Option.isSome_iff_ne_none.mp some)
    rw [commentText, List.append_nil] at past ⊢
    exact .token rfl skipped.gap past (by simpa [startsWith] using skipped.space) skipped.token

theorem name_eq (isName : IsName run after) (stands : Stands text p (run ++ after))
    (enough : run.length < fuel) :
    name text fuel p = .ok ⟨run, p + run.length⟩ := by
  obtain ⟨c, rest, first, -⟩ := isName.first
  have here : Stands text p (c :: (rest ++ after)) := by simpa [first] using stands
  have skipped : nameEnd text c fuel p = .ok (p + run.length) := by
    rw [nameEnd]
    rcases isName with ⟨starts, longest⟩ | ⟨-, longest⟩
    · have word : isWordStart c = true := by simpa [first, startsWith] using starts
      rw [if_pos word]
      exact skipWhile_eq (fun stands => startsAt_eq stands _) stands longest enough
    · have operator : isOperator c = true := by
        rw [first] at longest
        have goesOn := longest.1
        simp only [startsWith, Bool.and_eq_true] at goesOn
        exact goesOn.1
      rw [if_neg (by simp [(operator_kind c operator).2.1]), if_pos operator]
      exact skipWhile_eq operatorAt_eq stands longest enough
  simp only [name, if_neg here.not_ended, peek_eq here, skipped, slice_eq stands, bind, Except.bind]
  rfl

theorem name_none {rest : Bytes} (stands : Stands text p (c :: rest)) (word : isWordStart c = false)
    (operator : isOperator c = false) : name text fuel p = .ok ⟨[], p⟩ := by
  have empty : slice text p p = .ok [] := @slice_eq text [] (c :: rest) p stands
  have none : nameEnd text c fuel p = .ok p := by simp [nameEnd, word, operator]
  simp only [name, if_neg stands.not_ended, peek_eq stands, none, empty, bind, Except.bind]
  rfl

theorem pointAt_eq {rest : Bytes} (stands : Stands text p rest) :
    pointAt text p =
      .ok (startsWith (· = ascii '.') rest && startsWith Bytes.isDigit rest.tail) := by
  rw [pointAt, startsAt_eq stands]
  cases rest with
  | nil => rfl
  | cons c rest =>
    show (if startsWith (· = ascii '.') (c :: rest) = true then _ else _) = _
    cases startsWith (· = ascii '.') (c :: rest) with
    | false => rfl
    | true =>
      have digit := peek_digit stands.next
      show (peek text (p + 1)).map Bytes.isDigit = _
      rw [digit]
      rfl

theorem numberAt_eq {rest : Bytes} (stands : Stands text p (c :: rest)) :
    numberAt text p =
      .ok (Bytes.isDigit c || (c = ascii '-' && startsWith Bytes.isDigit rest)) := by
  rw [numberAt, peek_eq stands]
  show (if Bytes.isDigit c = true then _ else _) = _
  cases Bytes.isDigit c with
  | true => rfl
  | false =>
    by_cases minus : c = ascii '-'
    · have digit := peek_digit stands.next
      show (if c = ascii '-' then (peek text (p + 1)).map Bytes.isDigit else _) = _
      rw [if_pos minus, digit]
      simp [minus]
    · show (if c = ascii '-' then _ else _) = _
      rw [if_neg minus]
      simp [minus]
      rfl

theorem sign_eq {whole : Bytes} {negative : Bool} (some : whole ≠ [])
    (all : ∀ c ∈ whole, Bytes.isDigit c = true)
    (stands : Stands text p ((if negative then [ascii '-'] else []) ++ (whole ++ after))) :
    ∃ c, peek text p = .ok c ∧
      (if c = ascii '-' then p + 1 else p) = p + (if negative then [ascii '-'] else []).length := by
  cases negative with
  | true => exact ⟨ascii '-', peek_eq stands, rfl⟩
  | false =>
    cases whole with
    | nil => exact absurd rfl some
    | cons c more =>
      refine ⟨c, peek_eq stands, if_neg ?_⟩
      rintro rfl
      exact absurd (all (ascii '-') List.mem_cons_self) (by decide)

theorem skipDigits_eq (all : ∀ c ∈ run, Bytes.isDigit c = true)
    (ends : startsWith Bytes.isDigit after = false)
    (stands : Stands text p (run ++ after)) (enough : run.length < fuel) :
    skipWhile (startsAt text Bytes.isDigit) fuel p = .ok (p + run.length) :=
  skipWhile_eq (fun stands => startsAt_eq stands _) stands (longest_of_all all ends) enough

theorem numberEnd_eq {n : Figure} (some : n.whole ≠ []) (someFraction : n.fraction ≠ .some [])
    (all : ∀ c ∈ n.digits, Bytes.isDigit c = true) (ends : startsWith Bytes.isDigit after = false)
    (point : n.fraction = none →
      (startsWith (· = ascii '.') after && startsWith Bytes.isDigit after.tail) = false)
    (stands : Stands text p (n.text ++ after)) (enough : n.text.length < fuel) :
    numberEnd text fuel p = .ok (p + n.text.length) := by
  have length : n.text.length =
      (if n.negative then [ascii '-'] else []).length + (n.whole.length + n.tail.length) := by
    rw [Figure.text, List.length_append, List.length_append]
  rw [Figure.text_append] at stands
  have wholeDigits : ∀ c ∈ n.whole, Bytes.isDigit c = true :=
    fun c member => all c (List.mem_append_left _ member)
  obtain ⟨c, first, signed⟩ := sign_eq some wholeDigits stands
  have whole := stands.past
  generalize (if n.negative then [ascii '-'] else []).length = sign at length signed whole
  cases fraction : n.fraction with
  | none =>
    have none : n.tail = [] := by rw [Figure.tail, fraction]
    rw [none, List.nil_append] at whole
    rw [none, List.length_nil, Nat.add_zero] at length
    have skipped := skipDigits_eq wholeDigits ends whole (show n.whole.length < fuel by omega)
    simp only [numberEnd, first, signed, skipped, pointAt_eq whole.past, point fraction,
      bind, Except.bind]
    rw [length, ← Nat.add_assoc]
    rfl
  | some digits =>
    obtain ⟨d, more, rfl⟩ := List.exists_cons_of_ne_nil fun empty => someFraction (empty ▸ fraction)
    have dot : n.tail = ascii '.' :: (d :: more) := by rw [Figure.tail, fraction]
    have fractionDigits : ∀ c ∈ d :: more, Bytes.isDigit c = true := fun c member =>
      all c (List.mem_append_right _ (by simpa [fraction] using member))
    rw [dot] at whole
    rw [dot, List.length_cons] at length
    have skipped := skipDigits_eq wholeDigits rfl whole (show n.whole.length < fuel by omega)
    have goesOn : (startsWith (· = ascii '.') (ascii '.' :: (d :: more) ++ after) &&
        startsWith Bytes.isDigit (ascii '.' :: (d :: more) ++ after).tail) = true := by
      simp [startsWith, fractionDigits d List.mem_cons_self]
    have last :=
      skipDigits_eq fractionDigits ends whole.past.next (show (d :: more).length < fuel by omega)
    simp only [numberEnd, first, signed, skipped, pointAt_eq whole.past, goesOn, last, bind,
      Except.bind, if_true]
    exact congrArg Except.ok (by omega)

theorem number_figure {n : Figure} (valid : n.Valid after)
    (stands : Stands text p (n.text ++ after)) (enough : n.text.length < fuel) :
    number text fuel p = .ok ⟨n.value, p + n.text.length⟩ := by
  have last := numberEnd_eq valid.1 valid.2.1 valid.2.2.1 valid.stops (fun _ => ?_) stands enough
  · simp only [number, last, startsAt_eq stands.past, valid.2.2.2, slice_eq stands, valid.parse,
      bind, Except.bind]
    rfl
  · cases after with
    | nil => rfl
    | cons c rest =>
      have stops := valid.2.2.2
      simp only [startsWith, Bool.or_eq_false_iff] at stops
      simp [startsWith, stops.2]

theorem number_broken {n : Figure} {rest : Bytes} (broken : n.Broken c rest)
    (stands : Stands text p (n.text ++ c :: rest)) (enough : n.text.length < fuel) :
    number text fuel p =
      .error (.rejected (Rejection.locate text ⟨p, .invalidNumber (n.text ++ [c]), false⟩)) := by
  have last := numberEnd_eq broken.whole broken.fraction broken.digits
    (show startsWith Bytes.isDigit (c :: rest) = false from broken.ends) (fun none => ?_)
      stands enough
  · have bad : startsWith (fun c => isWordPart c || c = ascii '.') (c :: rest) = true := by
      simpa [startsWith] using broken.bad
    have taken := @slice_eq text (n.text ++ [c]) rest p (by simpa using stands)
    rw [List.length_append, List.length_singleton, ← Nat.add_assoc] at taken
    simp only [number, last, startsAt_eq stands.past, bad, taken, bind, Except.bind]
    exact fail_eq text _
  · by_cases point : c = ascii '.'
    · rw [List.tail_cons, broken.point none point, Bool.and_false]
    · simp [startsWith, point]

theorem stringRest_pieces {pieces : List StringPart} {start : Nat} {read : Bytes}
    (valid : ∀ x ∈ pieces, x.Valid)
    (stands : Stands text p (pieces.flatMap StringPart.text ++ after)) :
    stringRest text start (pieces.length + fuel) p read =
      stringRest text start fuel (p + (pieces.flatMap StringPart.text).length)
        ((pieces.map StringPart.byte).reverse ++ read) := by
  induction pieces generalizing p read with
  | nil => simp
  | cons x pieces ih =>
    have here := valid x List.mem_cons_self
    have there := fun y member => valid y (List.mem_cons_of_mem x member)
    rw [List.flatMap_cons, List.append_assoc] at stands
    have later := @ih _ (x.byte :: read) there stands.past
    rw [List.length_cons, Nat.add_right_comm, stringRest, List.flatMap_cons,
      List.length_append, ← Nat.add_assoc,
      List.map_cons, List.reverse_cons, List.append_assoc, List.singleton_append, ← later]
    cases x with
    | plain c =>
      simp only [if_neg stands.not_ended, peek_eq stands, if_neg here.1, if_neg here.2,
        bind, Except.bind]
      rfl
    | escaped c =>
      simp only [if_neg stands.not_ended, peek_eq stands,
        if_neg (show ascii '\\' ≠ ascii '"' by decide), if_true,
        if_neg stands.next.not_ended, byte_eq stands.next, Reader.unescape_eq, bind, Except.bind]
      rfl

theorem pieces_length_le (pieces : List StringPart) :
    pieces.length ≤ (pieces.flatMap StringPart.text).length := by
  induction pieces with
  | nil => exact Nat.le_refl 0
  | cons x pieces ih =>
    rw [List.flatMap_cons, List.length_append, List.length_cons, Nat.add_comm]
    exact Nat.add_le_add (by cases x <;> simp [StringPart.text]) ih

theorem stringRest_closed {pieces : List StringPart} (valid : ∀ x ∈ pieces, x.Valid)
    (stands : Stands text p ((Phrase.string pieces).text ++ after))
    (enough : (Phrase.string pieces).text.length ≤ fuel) :
    stringRest text p fuel (p + 1)
      [] = .ok ⟨pieces.map StringPart.byte, p + (Phrase.string pieces).text.length⟩ := by
  have bound := pieces_length_le pieces
  simp only [Phrase.text, List.length_cons, List.length_append, List.length_nil, List.cons_append,
    List.append_assoc, List.nil_append] at stands enough ⊢
  obtain ⟨fuel, rfl⟩ := Nat.exists_eq_add_of_le (show pieces.length + 1 ≤ fuel by omega)
  have quote := stands.next.past
  rw [Nat.add_assoc, stringRest_pieces valid stands.next, Nat.add_comm 1, stringRest]
  simp only [if_neg quote.not_ended, peek_eq quote, if_true, bind, Except.bind, List.append_nil,
    List.reverse_reverse]
  exact congrArg (fun q => Except.ok (Passed.mk _ q)) (by omega)

theorem stringRest_open {pieces : List StringPart} {backslash : Bool}
    (valid : ∀ x ∈ pieces, x.Valid)
    (stands : Stands text p (OpenPhrase.string pieces backslash).text)
    (enough : (OpenPhrase.string pieces backslash).text.length ≤ fuel) :
    stringRest text p fuel (p + 1)
      [] = .error (.rejected (Rejection.locate text ⟨p, .unclosedString, true⟩)) := by
  have bound := pieces_length_le pieces
  simp only [OpenPhrase.text, List.length_cons, List.length_append] at stands enough
  obtain ⟨fuel, rfl⟩ := Nat.exists_eq_add_of_le (show pieces.length + 1 ≤ fuel by omega)
  have last := stands.next.past
  rw [Nat.add_assoc, stringRest_pieces valid stands.next, Nat.add_comm 1, stringRest]
  cases backslash with
  | false => rw [if_pos last.ended, fail_eq]
  | true =>
    simp only [if_neg last.not_ended, peek_eq last, if_neg (show ascii '\\' ≠ ascii '"' by decide),
      if_true, if_pos last.next.ended, bind, Except.bind]
    exact fail_eq text _

end Tokens

end Descent
end CallScript
