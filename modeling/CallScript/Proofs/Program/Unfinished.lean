import CallScript.Proofs.Program.Parsing

/- Texts that end too early. Such a text is derived as a program is, up to an invocation that is not
   closed, or to a name outside of all invocations; and an invocation that is not closed may end in
   a string or in another invocation that is not closed. All that is open at the end of a text goes
   on to its end, so the innermost part of it is a tail of the text. It is rejected where that tail
   starts. -/
namespace CallScript

namespace Grammar

def commentText : Option Bytes → Bytes
  | none => []
  | some line => ascii '/' :: ascii '/' :: line

mutual

inductive OpenPhrase where
  | string (pieces : List StringPart) (backslash : Bool)
  | call (name : Bytes) (items : OpenItems)

inductive OpenItems where
  | finish (gap : Gap) (comment : Option Bytes)
  | item (gap : Gap) (phrase : Phrase) (comma : Option Gap) (rest : OpenItems)
  | within (gap : Gap) (phrase : OpenPhrase)

end

mutual

def OpenPhrase.text : OpenPhrase → Bytes
  | .string pieces backslash =>
    ascii '"' :: (pieces.flatMap StringPart.text ++ if backslash then [ascii '\\'] else [])
  | .call name items => name ++ ascii '(' :: items.text

def OpenItems.text : OpenItems → Bytes
  | .finish gap comment => gapText gap ++ commentText comment
  | .item gap phrase comma rest => gapText gap ++ (phrase.text ++ (commaText comma ++ rest.text))
  | .within gap phrase => gapText gap ++ phrase.text

end

mutual

def OpenPhrase.Valid : OpenPhrase → Prop
  | .string pieces _ => ∀ p ∈ pieces, p.Valid
  | .call name items => IsName name (ascii '(' :: items.text) ∧ items.Valid

def OpenItems.Valid : OpenItems → Prop
  | .finish gap comment => GapValid gap ∧ ∀ line ∈ comment, Bytes.newline ∉ line
  | .item gap phrase comma rest => GapValid gap ∧ phrase.Valid (commaText comma ++ rest.text) ∧
      (∀ g ∈ comma, GapValid g) ∧ rest.Valid
  | .within gap phrase => GapValid gap ∧ phrase.Valid

end

mutual

def OpenPhrase.innermost : OpenPhrase → Bytes
  | .string pieces backslash => (OpenPhrase.string pieces backslash).text
  | .call name items => items.innermost.getD (OpenPhrase.call name items).text

def OpenItems.innermost : OpenItems → Option Bytes
  | .finish _ _ => none
  | .item _ _ _ rest => rest.innermost
  | .within _ phrase => some phrase.innermost

end

inductive Unfinished where
  | named (gap : Gap) (name : Bytes)
  | call (gap : Gap) (name : Bytes) (items : OpenItems)
  | statement (first : Statement) (rest : Unfinished)

namespace Unfinished

def text : Unfinished → Bytes
  | .named gap name => gapText gap ++ name
  | .call gap name items => gapText gap ++ (OpenPhrase.call name items).text
  | .statement first rest => first.text ++ rest.text

def Valid : Unfinished → Prop
  | .named gap name => GapValid gap ∧ IsName name []
  | .call gap name items => GapValid gap ∧ (OpenPhrase.call name items).Valid
  | .statement first rest => first.Valid rest.text ∧ rest.Valid

/-- The innermost string, invocation or name of an invocation that is still open, from its first
byte on. -/
def innermost : Unfinished → Bytes
  | .named _ name => name
  | .call _ name items => (OpenPhrase.call name items).innermost
  | .statement _ rest => rest.innermost

end Unfinished

mutual

theorem OpenPhrase.innermost_nonempty : ∀ p : OpenPhrase, p.innermost ≠ []
  | .string pieces backslash => by
    rw [OpenPhrase.innermost, OpenPhrase.text]
    exact List.cons_ne_nil _ _
  | .call name items => by
    rw [OpenPhrase.innermost]
    cases held : items.innermost with
    | none => simp [OpenPhrase.text]
    | some inner => exact items.innermost_nonempty inner held

theorem OpenItems.innermost_nonempty :
    ∀ (items : OpenItems) (inner : Bytes), items.innermost = some inner → inner ≠ []
  | .finish _ _, inner, held => by
    rw [OpenItems.innermost] at held
    cases held
  | .item _ _ _ rest, inner, held => by
    rw [OpenItems.innermost] at held
    exact rest.innermost_nonempty inner held
  | .within _ phrase, inner, held => by
    rw [OpenItems.innermost] at held
    cases held
    exact phrase.innermost_nonempty

end

theorem Unfinished.innermost_nonempty {u : Unfinished} (valid : u.Valid) : u.innermost ≠ [] := by
  induction u with
  | named gap name => exact valid.2.nonempty
  | call gap name items => exact (OpenPhrase.call name items).innermost_nonempty
  | statement first rest ih => exact ih valid.2

end Grammar

namespace Reader

open Grammar

variable {q : Nat} {done : List Invocation} {stack : List OpenCall} {top : OpenCall}

theorem result_end :
    result q done (top :: stack) .blank [] = lacking top.start (.unclosedInvocation top.name) := rfl

theorem result_last {comment : Option Bytes} (unbroken : ∀ line ∈ comment, Bytes.newline ∉ line) :
    result q done stack .blank (commentText comment) =
      result (q + (commentText comment).length) done stack .blank [] := by
  cases comment with
  | none => rfl
  | some line =>
    rw [commentText, result_slashes, ← List.append_nil line, result_comment (unbroken line rfl),
      result_comment_end]
    simp [Nat.add_assoc, Nat.add_comm 2]

theorem result_open_string {pieces : List StringPart} (valid : ∀ x ∈ pieces, x.Valid)
    (backslash : Bool) :
    result q done (top :: stack) .blank (OpenPhrase.string pieces backslash).text =
      lacking q .unclosedString := by
  rw [OpenPhrase.text, result_quote, result_pieces valid]
  cases backslash with
  | true => exact result_escape_end
  | false => exact result_string_end

/-- The rest of a text is rejected as incomplete, where its tail `inner` starts. -/
def Lacks (q : Nat) (done : List Invocation) (stack : List OpenCall) (text inner : Bytes) : Prop :=
  ∃ before fault, text = before ++ inner ∧
    result q done stack .blank text = lacking (q + before.length) fault

theorem Lacks.past {done' : List Invocation} {stack' : List OpenCall} {run text inner : Bytes}
    (lacks : Lacks (q + run.length) done' stack' text inner)
    (past : result q done stack .blank (run ++ text) =
      result (q + run.length) done' stack' .blank text) :
    Lacks q done stack (run ++ text) inner := by
  obtain ⟨before, fault, split, rejected⟩ := lacks
  refine ⟨run ++ before, fault, by rw [split, List.append_assoc], ?_⟩
  rw [past, rejected, List.length_append, Nat.add_assoc]

theorem result_entry {gap : Gap} {phrase : Phrase} {comma : Option Gap} {after : Bytes}
    (gapValid : GapValid gap) (valid : phrase.Valid (commaText comma ++ after))
    (commaValid : ∀ g ∈ comma, GapValid g) :
    result q done (top :: stack) .blank
      (gapText gap ++ (phrase.text ++ (commaText comma ++ after))) =
      result (q + (gapText gap ++ (phrase.text ++ commaText comma)).length) done
        ({ given phrase.tree top with afterComma := comma.isSome } :: stack) .blank after := by
  rw [result_gap gapValid, result_phrase phrase valid]
  simp only [List.length_append, ← Nat.add_assoc]
  cases comma with
  | none => rfl
  | some g =>
    rw [commaText, List.append_assoc, result_gap (commaValid g rfl), List.singleton_append,
      result_comma]
    simp [given, Nat.add_assoc]

/-- What is left of an open invocation is rejected where an argument of it is open, or else where it
starts. -/
def ItemsLack (q : Nat) (done : List Invocation) (stack : List OpenCall) (top : OpenCall)
    (items : OpenItems) : Prop :=
  (items.innermost = none →
    result q done (top :: stack) .blank items.text =
      lacking top.start (.unclosedInvocation top.name)) ∧
  ∀ inner ∈ items.innermost, Lacks q done (top :: stack) items.text inner

theorem lacks_call {name : Bytes} {items : OpenItems}
    (isName : IsName name (ascii '(' :: items.text))
    (inside : ItemsLack (q + name.length + 1) done stack ⟨name, q, [], false⟩ items) :
    Lacks q done stack (OpenPhrase.call name items).text
      (OpenPhrase.call name items).innermost := by
  obtain ⟨none, some⟩ := inside
  rw [OpenPhrase.innermost, OpenPhrase.text]
  cases held : items.innermost with
  | none => exact ⟨[], _, rfl, (result_call isName).trans (none held)⟩
  | some inner =>
    have place : q + name.length + 1 = q + (name ++ [ascii '(']).length := by simp [Nat.add_assoc]
    have past := @result_call q done stack items.text name isName
    have assoc : name ++ ascii '(' :: items.text = name ++ [ascii '('] ++ items.text := by simp
    have lacks := some inner held
    rw [place] at past lacks
    rw [assoc] at past ⊢
    exact lacks.past past

mutual

theorem lacks_openPhrase :
    ∀ (p : OpenPhrase) (q : Nat) (done : List Invocation) (stack : List OpenCall)
    (top : OpenCall), p.Valid → Lacks q done (top :: stack) p.text p.innermost
  | .string pieces backslash, q, done, stack, top, valid => by
    rw [OpenPhrase.Valid] at valid
    rw [OpenPhrase.innermost]
    exact ⟨[], .unclosedString, rfl, result_open_string valid backslash⟩
  | .call name items, q, done, stack, top, valid => by
    rw [OpenPhrase.Valid] at valid
    exact lacks_call valid.1 (lacks_openItems items _ done (top :: stack) _ valid.2)

theorem lacks_openItems :
    ∀ (items : OpenItems) (q : Nat) (done : List Invocation) (stack : List OpenCall)
    (top : OpenCall), items.Valid → ItemsLack q done stack top items
  | .finish gap comment, q, done, stack, top, valid => by
    rw [OpenItems.Valid] at valid
    rw [ItemsLack, OpenItems.innermost, OpenItems.text]
    refine ⟨fun _ => ?_, by simp⟩
    rw [result_gap valid.1, result_last valid.2, result_end]
  | .item gap phrase comma rest, q, done, stack, top, valid => by
    rw [OpenItems.Valid] at valid
    obtain ⟨gapValid, phraseValid, commaValid, restValid⟩ := valid
    rw [ItemsLack, OpenItems.innermost, OpenItems.text]
    have past := @result_entry q done stack top _ _ _ _ gapValid phraseValid commaValid
    obtain ⟨none, some⟩ := lacks_openItems rest _ done stack
      { given phrase.tree top with afterComma := comma.isSome } restValid
    refine ⟨fun absent => past.trans (none absent), fun inner held => ?_⟩
    have assoc : gapText gap ++ (phrase.text ++ (commaText comma ++ rest.text)) =
        gapText gap ++ (phrase.text ++ commaText comma) ++ rest.text := by simp
    rw [assoc] at past ⊢
    exact (some inner held).past past
  | .within gap phrase, q, done, stack, top, valid => by
    rw [OpenItems.Valid] at valid
    rw [ItemsLack, OpenItems.innermost, OpenItems.text]
    refine ⟨nofun, ?_⟩
    rintro inner ⟨⟩
    exact (lacks_openPhrase phrase _ done stack top valid.2).past (result_gap valid.1)

end

/-- A text that ends too early is rejected as incomplete, where the innermost part that is still
open starts. -/
theorem lacks_unfinished (u : Unfinished) (q : Nat) (done : List Invocation) (valid : u.Valid) :
    Lacks q done [] u.text u.innermost := by
  induction u generalizing q done with
  | named gap name =>
    have ended := @result_ident (q + (gapText gap).length) done [] name [] valid.2 rfl fun _ =>
      .inr rfl
    rw [List.append_nil] at ended
    exact Lacks.past ⟨[], .parenthesisExpected name, rfl, ended⟩ (result_gap valid.1)
  | call gap name items =>
    obtain ⟨gapValid, callValid⟩ := valid
    rw [OpenPhrase.Valid] at callValid
    exact (lacks_call callValid.1 (lacks_openItems items _ done [] _ callValid.2)).past
      (result_gap gapValid)
  | statement first rest ih =>
    exact (ih _ (first.tree :: done) valid.2).past (result_statement valid.1)

end Reader
end CallScript
