import CallScript.Proofs.Program.Lexemes

/- A text has at most one derivation. Two derivations of one text are compared from the left: the
   first byte after a gap tells which kind of part stands there, the part ends where its bytes no
   longer go on, and so what follows it is the same text again. -/
namespace CallScript

namespace Grammar

open Lexical

section Kinds

variable {n : Figure} {name a b text : Bytes}

theorem string_ne_number (valid : n.Valid a) : ascii '"' :: text ≠ n.text ++ a := by
  obtain ⟨c, rest, digit, same⟩ := valid.first
  intro quoted
  rw [same] at quoted
  split at quoted
  · exact absurd (List.cons.inj quoted).1 (by decide)
  · rw [← (List.cons.inj quoted).1] at digit
    exact absurd digit (by decide)

theorem string_ne_name (isName : IsName name b) : ascii '"' :: text ≠ name ++ b := by
  obtain ⟨c, rest, rfl, mark, _⟩ := isName.not_mark
  intro quoted
  rw [← (List.cons.inj quoted).1] at mark
  exact absurd mark (by decide)

/-- A minus sign is the name of an operator only where no digit follows. -/
theorem number_ne_name (valid : n.Valid a) (isName : IsName name b)
    (unsigned : name = [ascii '-'] → startsWith Bytes.isDigit b = false) :
    n.text ++ a ≠ name ++ b := by
  obtain ⟨c, rest, digit, text⟩ := valid.first
  intro same
  rw [text] at same
  split at same
  · have minus : IsName [ascii '-'] (c :: rest) := by
      refine .inr ⟨by simp, ?_, ?_⟩
      · simp [startsWith, startsComment, show isOperator (ascii '-') = true by decide,
          show ascii '-' ≠ ascii '/' by decide]
      · simp [Longest, startsWith, (digit_kind c digit).2.2.2.1]
    obtain ⟨rfl, rfl⟩ := minus.unique isName same
    rw [show startsWith Bytes.isDigit (c :: rest) = Bytes.isDigit c from rfl, digit] at unsigned
    exact absurd (unsigned rfl) (by decide)
  · obtain ⟨d, rest', rfl, _, notDigit⟩ := isName.not_mark
    rw [← (List.cons.inj same).1, digit] at notDigit
    cases notDigit

theorem ident_ne_call (isName : IsName name a) (plain : startsWith (· = ascii '(') a = false)
    {other : Bytes} (isName' : IsName other (ascii '(' :: b)) :
    name ++ a ≠ other ++ ascii '(' :: b := by
  intro same
  obtain ⟨rfl, rfl⟩ := isName.unique isName' same
  simp [startsWith] at plain

end Kinds

/-- What an argument can start with: a gap has ended, and no parenthesis is closed and no comma
read. -/
def Opens (text : Bytes) : Prop :=
  Settled text ∧ startsWith (fun c => c = ascii ')' || c = ascii ',') text = false

theorem opens_of_name {name after : Bytes} (isName : IsName name after) :
    Opens (name ++ after) := by
  refine ⟨isName.settled, ?_⟩
  obtain ⟨c, rest, rfl, mark, _⟩ := isName.not_mark
  have close : c ≠ ascii ')' := fun same => mark (by rw [same]; decide)
  have comma : c ≠ ascii ',' := fun same => mark (by rw [same]; decide)
  simp [startsWith, close, comma]

theorem opens_of_byte {c : UInt8} (rest : Bytes) (kind : c = ascii '"' ∨ Bytes.isDigit c = true) :
    Opens (c :: rest) := by
  rcases kind with rfl | digit
  · exact ⟨settled_of_plain (by decide) (by decide) rest, rfl⟩
  · obtain ⟨_, _, space, operator, mark, _⟩ := digit_kind c digit
    have close : c ≠ ascii ')' := fun same => mark (by rw [same]; decide)
    have comma : c ≠ ascii ',' := fun same => mark (by rw [same]; decide)
    exact ⟨settled_of_plain space operator rest, by simp [startsWith, close, comma]⟩

theorem Figure.Valid.opens {n : Figure} {after : Bytes} (valid : n.Valid after) :
    Opens (n.text ++ after) := by
  obtain ⟨c, rest, digit, same⟩ := valid.first
  rw [same]
  split
  · refine ⟨⟨rfl, fun starts => ?_⟩, rfl⟩
    simp [startsComment, show ascii '-' ≠ ascii '/' by decide] at starts
  · exact opens_of_byte rest (.inr digit)

theorem Phrase.Valid.opens {p : Phrase} {after : Bytes} (valid : p.Valid after) :
    Opens (p.text ++ after) := by
  cases p with
  | string pieces =>
    rw [Phrase.text]
    exact opens_of_byte _ (.inl rfl)
  | number figure =>
    rw [Phrase.Valid] at valid
    rw [Phrase.text]
    exact valid.opens
  | ident name =>
    rw [Phrase.Valid] at valid
    rw [Phrase.text]
    exact opens_of_name valid.1
  | call name items =>
    rw [Phrase.Valid] at valid
    rw [Phrase.text, List.append_assoc, List.cons_append]
    exact opens_of_name valid.1

theorem Figure.Valid.nonempty {n : Figure} {after : Bytes} (valid : n.Valid after) :
    n.text ≠ [] := by
  simp [Figure.text, valid.1]

theorem IsName.nonempty {name after : Bytes} (isName : IsName name after) : name ≠ [] := by
  obtain ⟨c, rest, rfl, _⟩ := isName.first
  simp

theorem Phrase.Valid.nonempty {p : Phrase} {after : Bytes} (valid : p.Valid after) :
    p.text ≠ [] := by
  cases p with
  | string pieces => simp [Phrase.text]
  | number figure =>
    rw [Phrase.Valid] at valid
    rw [Phrase.text]
    exact valid.nonempty
  | ident name =>
    rw [Phrase.Valid] at valid
    rw [Phrase.text]
    exact valid.1.nonempty
  | call name items => simp [Phrase.text]

theorem Phrase.Valid.shorter {p : Phrase} {after : Bytes} (valid : p.Valid after) :
    after.length < (p.text ++ after).length := by
  have positive := List.length_pos_iff.mpr valid.nonempty
  rw [List.length_append]
  omega

theorem Items.Valid.first {items : Items} {after : Bytes} (valid : items.Valid after) :
    ∃ gap rest, items.text ++ after = gapText gap ++ rest ∧ GapValid gap ∧ Settled rest ∧
      startsWith (· = ascii ',') rest = false := by
  cases items with
  | close gap =>
    rw [Items.Valid] at valid
    exact ⟨gap, ascii ')' :: after, by simp [Items.text], valid,
      settled_of_plain (by decide) (by decide) _, rfl⟩
  | item gap phrase comma rest =>
    rw [Items.Valid] at valid
    obtain ⟨settled, opens⟩ := valid.2.1.opens
    refine ⟨gap, phrase.text ++ (commaText comma ++ (rest.text ++ after)), by simp [Items.text],
      valid.1, settled, ?_⟩
    generalize phrase.text ++ (commaText comma ++ (rest.text ++ after)) = text at opens
    cases text with
    | nil => rfl
    | cons c _ =>
      simp only [startsWith, Bool.or_eq_false_iff] at opens ⊢
      exact opens.2

theorem settled_close (rest : Bytes) : Settled (ascii ')' :: rest) :=
  settled_of_plain (by decide) (by decide) rest

theorem settled_comma (rest : Bytes) : Settled (ascii ',' :: rest) :=
  settled_of_plain (by decide) (by decide) rest

theorem items_ne_comma {items : Items} {after : Bytes} (valid : items.Valid after) {gap : Gap}
    (valid' : GapValid gap) {b : Bytes} : items.text ++ after ≠ gapText gap ++ ascii ',' :: b := by
  obtain ⟨gap', rest, text, gapValid, settled, noComma⟩ := valid.first
  intro same
  rw [text] at same
  obtain ⟨_, rfl⟩ := gap_unique gapValid valid' settled (settled_comma b) same
  simp [startsWith] at noComma

mutual

theorem Phrase.unique :
    ∀ (p q : Phrase) {a b : Bytes}, p.Valid a → q.Valid b → p.text ++ a = q.text ++ b →
    p = q ∧ a = b
  | .string pieces, q, a, b, valid, valid', same => by
    rw [Phrase.Valid] at valid
    cases q with
    | string pieces' =>
      rw [Phrase.Valid] at valid'
      simp only [Phrase.text, List.cons_append, List.append_assoc, List.nil_append, List.cons.injEq,
        true_and] at same
      obtain ⟨rfl, rest⟩ := pieces_unique valid valid' same
      exact ⟨rfl, rest⟩
    | number figure =>
      rw [Phrase.Valid] at valid'
      rw [Phrase.text, Phrase.text] at same
      exact absurd same (string_ne_number valid')
    | ident name =>
      rw [Phrase.Valid] at valid'
      rw [Phrase.text, Phrase.text] at same
      exact absurd same (string_ne_name valid'.1)
    | call name items =>
      rw [Phrase.Valid] at valid'
      rw [Phrase.text, Phrase.text, List.append_assoc name] at same
      exact absurd same (string_ne_name valid'.1)
  | .number figure, q, a, b, valid, valid', same => by
    rw [Phrase.Valid] at valid
    rw [Phrase.text] at same
    cases q with
    | string pieces' =>
      rw [Phrase.text] at same
      exact absurd same.symm (string_ne_number valid)
    | number figure' =>
      rw [Phrase.Valid] at valid'
      rw [Phrase.text] at same
      obtain ⟨rfl, rest⟩ := valid.unique valid' same
      exact ⟨rfl, rest⟩
    | ident name =>
      rw [Phrase.Valid] at valid'
      rw [Phrase.text] at same
      exact absurd same (number_ne_name valid valid'.1 valid'.2.2)
    | call name items =>
      rw [Phrase.Valid] at valid'
      rw [Phrase.text, List.append_assoc] at same
      exact absurd same (number_ne_name valid valid'.1 fun _ => rfl)
  | .ident name, q, a, b, valid, valid', same => by
    rw [Phrase.Valid] at valid
    rw [Phrase.text] at same
    cases q with
    | string pieces' =>
      rw [Phrase.text] at same
      exact absurd same.symm (string_ne_name valid.1)
    | number figure' =>
      rw [Phrase.Valid] at valid'
      rw [Phrase.text] at same
      exact absurd same.symm (number_ne_name valid' valid.1 valid.2.2)
    | ident name' =>
      rw [Phrase.Valid] at valid'
      rw [Phrase.text] at same
      obtain ⟨rfl, rest⟩ := valid.1.unique valid'.1 same
      exact ⟨rfl, rest⟩
    | call name' items =>
      rw [Phrase.Valid] at valid'
      rw [Phrase.text, List.append_assoc] at same
      exact absurd same (ident_ne_call valid.1 valid.2.1 valid'.1)
  | .call name items, q, a, b, valid, valid', same => by
    rw [Phrase.Valid] at valid
    rw [Phrase.text, List.append_assoc] at same
    cases q with
    | string pieces' =>
      rw [Phrase.text] at same
      exact absurd same.symm (string_ne_name valid.1)
    | number figure' =>
      rw [Phrase.Valid] at valid'
      rw [Phrase.text] at same
      exact absurd same.symm (number_ne_name valid' valid.1 fun _ => rfl)
    | ident name' =>
      rw [Phrase.Valid] at valid'
      rw [Phrase.text] at same
      exact absurd same.symm (ident_ne_call valid'.1 valid'.2.1 valid.1)
    | call name' items' =>
      rw [Phrase.Valid] at valid'
      rw [Phrase.text, List.append_assoc] at same
      -- The names end at the same place, so what follows the two parentheses is the same.
      obtain ⟨rfl, opened⟩ := valid.1.unique valid'.1 same
      obtain ⟨rfl, rest⟩ := Items.unique items items' valid.2 valid'.2 (List.cons.inj opened).2
      exact ⟨rfl, rest⟩

theorem Items.unique :
    ∀ (x y : Items) {a b : Bytes}, x.Valid a → y.Valid b → x.text ++ a = y.text ++ b → x = y ∧ a = b
  | .close gap, y, a, b, valid, valid', same => by
    rw [Items.Valid] at valid
    rw [Items.text, List.append_assoc] at same
    cases y with
    | close gap' =>
      rw [Items.Valid] at valid'
      rw [Items.text, List.append_assoc] at same
      obtain ⟨rfl, rest⟩ := gap_unique valid valid' (settled_close a) (settled_close b) same
      exact ⟨rfl, (List.cons.inj rest).2⟩
    | item gap' phrase comma rest =>
      rw [Items.Valid] at valid'
      simp only [Items.text, List.append_assoc] at same
      obtain ⟨settled, opens⟩ := valid'.2.1.opens
      obtain ⟨_, closed⟩ := gap_unique valid valid'.1 (settled_close a) settled same
      rw [← closed] at opens
      simp [startsWith] at opens
  | .item gap phrase comma rest, y, a, b, valid, valid', same => by
    rw [Items.Valid] at valid
    simp only [Items.text, List.append_assoc] at same
    obtain ⟨settled, opens⟩ := valid.2.1.opens
    cases y with
    | close gap' =>
      rw [Items.Valid] at valid'
      rw [Items.text, List.append_assoc] at same
      obtain ⟨_, closed⟩ := gap_unique valid.1 valid' settled (settled_close b) same
      rw [closed] at opens
      simp [startsWith] at opens
    | item gap' phrase' comma' rest' =>
      rw [Items.Valid] at valid'
      simp only [Items.text, List.append_assoc] at same
      obtain ⟨rfl, phrases⟩ := gap_unique valid.1 valid'.1 settled valid'.2.1.opens.1 same
      obtain ⟨rfl, commas⟩ := Phrase.unique phrase phrase' valid.2.1 valid'.2.1 phrases
      cases comma with
      | none =>
        cases comma' with
        | none =>
          obtain ⟨rfl, after⟩ := Items.unique rest rest' valid.2.2.2 valid'.2.2.2 commas
          exact ⟨rfl, after⟩
        | some g =>
          rw [commaText, commaText, List.append_assoc] at commas
          exact absurd commas (items_ne_comma valid.2.2.2 (valid'.2.2.1 g rfl))
      | some g =>
        cases comma' with
        | none =>
          rw [commaText, commaText, List.append_assoc] at commas
          exact absurd commas.symm (items_ne_comma valid'.2.2.2 (valid.2.2.1 g rfl))
        | some g' =>
          rw [commaText, commaText, List.append_assoc, List.append_assoc] at commas
          obtain ⟨rfl, items⟩ :=
            gap_unique (valid.2.2.1 g rfl) (valid'.2.2.1 g' rfl) (settled_comma _)
            (settled_comma _) commas
          obtain ⟨rfl, after⟩ :=
            Items.unique rest rest' valid.2.2.2 valid'.2.2.2 (List.cons.inj items).2
          exact ⟨rfl, after⟩

end

namespace Derivation

theorem finish_rest (gap : Gap) (comment : Option Bytes) (valid : (finish gap comment).Valid) :
    ∃ rest, (finish gap comment).text = gapText gap ++ rest ∧ Settled rest ∧
      (rest = [] ∨ startsComment rest = true) ∧ rest = comment.elim []
        (ascii '/' :: ascii '/' :: ·) := by
  cases comment with
  | none => exact ⟨[], by simp [text], ⟨rfl, by simp [startsComment]⟩, .inl rfl, rfl⟩
  | some line =>
    refine ⟨_, rfl, ⟨rfl, fun _ => ?_⟩, .inr rfl, rfl⟩
    have unbroken := valid.2 line rfl
    simpa [show Bytes.newline ≠ ascii '/' by decide] using unbroken

theorem finish_ne_statement {gap : Gap} {comment : Option Bytes} {first : Statement}
    {rest : Derivation} (valid : (finish gap comment).Valid)
    (valid' : (statement first rest).Valid) :
    (finish gap comment).text ≠ (statement first rest).text := by
  obtain ⟨text, split, settled, ends, _⟩ := finish_rest gap comment valid
  obtain ⟨⟨gapValid, isName, _⟩, _⟩ := valid'
  intro same
  rw [split] at same
  simp only [Derivation.text, Statement.text, List.append_assoc, List.cons_append] at same
  obtain ⟨_, rfl⟩ := gap_unique valid.1 gapValid settled isName.settled same
  obtain ⟨c, name, whole, noComment, _⟩ := isName.first
  rcases ends with empty | starts
  · simp at empty
  · rw [noComment] at starts
    cases starts

theorem unique : ∀ (d e : Derivation), d.Valid → e.Valid → d.text = e.text → d = e
  | .finish gap comment, e, valid, valid', same => by
    cases e with
    | finish gap' comment' =>
      obtain ⟨rest, text, settled, _, ends⟩ := finish_rest gap comment valid
      obtain ⟨rest', text', settled', _, ends'⟩ := finish_rest gap' comment' valid'
      rw [text, text'] at same
      obtain ⟨rfl, tails⟩ := gap_unique valid.1 valid'.1 settled settled' same
      rw [ends, ends'] at tails
      cases comment with
      | none =>
        cases comment' with
        | none => rfl
        | some line => cases tails
      | some line =>
        cases comment' with
        | none => cases tails
        | some line' =>
          cases tails
          rfl
    | statement first rest => exact absurd same (finish_ne_statement valid valid')
  | .statement first rest, e, valid, valid', same => by
    cases e with
    | finish gap comment => exact absurd same.symm (finish_ne_statement valid' valid)
    | statement first' rest' =>
      obtain ⟨gap, name, items⟩ := first
      obtain ⟨gap', name', items'⟩ := first'
      obtain ⟨⟨gapValid, isName, itemsValid⟩, restValid⟩ := valid
      obtain ⟨⟨gapValid', isName', itemsValid'⟩, restValid'⟩ := valid'
      simp only [Derivation.text, Statement.text, List.append_assoc, List.cons_append] at same
      obtain ⟨rfl, names⟩ := gap_unique gapValid gapValid' isName.settled isName'.settled same
      obtain ⟨rfl, opened⟩ := isName.unique isName' names
      obtain ⟨rfl, after⟩ :=
        Items.unique items items' itemsValid itemsValid' (List.cons.inj opened).2
      rw [unique rest rest' restValid restValid' after]

end Derivation

end Grammar
end CallScript
