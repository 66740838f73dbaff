import CallScript.Program.Reader

/- The grammar of programs. A derivation is kept as data, with every blank and comment of the text
   in its place: it has a text and a program, and it is valid when its parts are what the lexical
   rules ask for. How far a token goes depends on what follows it, so validity is always said of a
   part together with the text after it. -/
namespace CallScript.Grammar

open Lexical

/-- A run that goes on as far as it can. `goesOn` holds of the text that starts at each of its
bytes, and not of the text after it. -/
def Longest (goesOn : Bytes → Bool) : Bytes → Bytes → Prop
  | [], after => goesOn after = false
  | c :: run, after => goesOn (c :: (run ++ after)) = true ∧ Longest goesOn run after

def startsWith (test : UInt8 → Bool) : Bytes → Bool
  | [] => false
  | c :: _ => test c

def startsComment : Bytes → Bool
  | a :: b :: _ => a = ascii '/' && b = ascii '/'
  | _ => false

/-- What may stand between two tokens: a blank, or a comment, which takes the rest of its line. -/
inductive Filler where
  | blank (c : UInt8)
  | comment (text : Bytes)

namespace Filler

def text : Filler → Bytes
  | .blank c => [c]
  | .comment text => ascii '/' :: ascii '/' :: (text ++ [Bytes.newline])

def Valid : Filler → Prop
  | .blank c => isSpace c = true
  | .comment text => Bytes.newline ∉ text

end Filler

abbrev Gap := List Filler

def gapText (gap : Gap) : Bytes := gap.flatMap Filler.text

def GapValid (gap : Gap) : Prop := ∀ f ∈ gap, f.Valid

/-- A longest word, or a longest run of operator bytes that stops where a comment begins. -/
def IsName (name after : Bytes) : Prop :=
  (startsWith isWordStart name = true ∧ Longest (startsWith isWordPart) name after) ∨
    (name ≠ [] ∧ Longest (fun text => startsWith isOperator text && !startsComment text) name after)

/-- What stands between the quotes of a string, one byte of the string at a time. -/
inductive StringPart where
  | plain (c : UInt8)
  | escaped (c : UInt8)

namespace StringPart

def text : StringPart → Bytes
  | .plain c => [c]
  | .escaped c => [ascii '\\', c]

def byte : StringPart → UInt8
  | .plain c => c
  | .escaped c => ([(ascii 'n', 10), (ascii 't', 9), (ascii 'r', 13)].lookup c).getD c

def Valid : StringPart → Prop
  | .plain c => c ≠ ascii '"' ∧ c ≠ ascii '\\'
  | .escaped _ => True

end StringPart

structure Figure where
  negative : Bool
  whole : Bytes
  fraction : Option Bytes

namespace Figure

def digits (n : Figure) : Bytes := n.whole ++ n.fraction.getD []

def tail (n : Figure) : Bytes :=
  match n.fraction with
  | none => []
  | some digits => ascii '.' :: digits

def text (n : Figure) : Bytes := (if n.negative then [ascii '-'] else []) ++ (n.whole ++ n.tail)

def value (n : Figure) : Number :=
  .ofRatio n.negative (Bytes.natValue n.digits) (Nat.pow 10 (n.fraction.getD []).length)

def Valid (n : Figure) (after : Bytes) : Prop :=
  n.whole ≠ [] ∧ n.fraction ≠ some [] ∧ (∀ c ∈ n.digits, Bytes.isDigit c = true) ∧
    startsWith (fun c => isWordPart c || c = ascii '.') after = false

end Figure

mutual

inductive Phrase where
  | string (pieces : List StringPart)
  | number (figure : Figure)
  | ident (name : Bytes)
  | call (name : Bytes) (items : Items)

/-- What follows an opening parenthesis. A comma belongs to the argument before it. -/
inductive Items where
  | close (gap : Gap)
  | item (gap : Gap) (phrase : Phrase) (comma : Option Gap) (rest : Items)

end

def commaText : Option Gap → Bytes
  | none => []
  | some gap => gapText gap ++ [ascii ',']

mutual

def Phrase.text : Phrase → Bytes
  | .string pieces => ascii '"' :: (pieces.flatMap StringPart.text ++ [ascii '"'])
  | .number figure => figure.text
  | .ident name => name
  | .call name items => name ++ ascii '(' :: items.text

def Items.text : Items → Bytes
  | .close gap => gapText gap ++ [ascii ')']
  | .item gap phrase comma rest => gapText gap ++ (phrase.text ++ (commaText comma ++ rest.text))

end

mutual

def Phrase.tree : Phrase → Argument
  | .string pieces => .literal (.string (pieces.map StringPart.byte))
  | .number figure => .literal (.number figure.value)
  | .ident name => .ident name
  | .call name items => .call name items.trees

def Items.trees : Items → List Argument
  | .close _ => []
  | .item _ phrase _ rest => phrase.tree :: rest.trees

end

mutual

/-- What starts with a digit, or with a minus sign and a digit, is a number, and a name before a
parenthesis is that of a call. -/
def Phrase.Valid : Phrase → Bytes → Prop
  | .string pieces, _ => ∀ p ∈ pieces, p.Valid
  | .number figure, after => figure.Valid after
  | .ident name, after => IsName name after ∧ startsWith (· = ascii '(') after = false ∧
      (name = [ascii '-'] → startsWith Bytes.isDigit after = false)
  | .call name items, after => IsName name (ascii '(' :: (items.text ++ after)) ∧ items.Valid after

def Items.Valid : Items → Bytes → Prop
  | .close gap, _ => GapValid gap
  | .item gap phrase comma rest, after =>
    GapValid gap ∧ phrase.Valid (commaText comma ++ (rest.text ++ after)) ∧
      (∀ g ∈ comma, GapValid g) ∧ rest.Valid after

end

structure Statement where
  gap : Gap
  name : Bytes
  items : Items

namespace Statement

def text (s : Statement) : Bytes := gapText s.gap ++ (s.name ++ ascii '(' :: s.items.text)

def tree (s : Statement) : Invocation := ⟨s.name, s.items.trees⟩

def Valid (s : Statement) (after : Bytes) : Prop :=
  GapValid s.gap ∧ IsName s.name (ascii '(' :: (s.items.text ++ after)) ∧ s.items.Valid after

end Statement

inductive Derivation where
  | finish (gap : Gap) (comment : Option Bytes)
  | statement (first : Statement) (rest : Derivation)

namespace Derivation

def text : Derivation → Bytes
  | .finish gap none => gapText gap
  | .finish gap (some comment) => gapText gap ++ ascii '/' :: ascii '/' :: comment
  | .statement first rest => first.text ++ rest.text

def program : Derivation → Program
  | .finish _ _ => []
  | .statement first rest => first.tree :: rest.program

def Valid : Derivation → Prop
  | .finish gap comment => GapValid gap ∧ ∀ text ∈ comment, Bytes.newline ∉ text
  | .statement first rest => first.Valid rest.text ∧ rest.Valid

end Derivation

theorem Longest.exists (goesOn : Bytes → Bool) (empty : goesOn [] = false) (text : Bytes) :
    ∃ run after, text = run ++ after ∧ Longest goesOn run after := by
  induction text with
  | nil => exact ⟨[], [], rfl, empty⟩
  | cons c rest ih =>
    by_cases here : goesOn (c :: rest) = true
    · obtain ⟨run, after, rfl, longest⟩ := ih
      exact ⟨c :: run, after, rfl, here, longest⟩
    · exact ⟨[], c :: rest, rfl, eq_false_of_ne_true here⟩

theorem Longest.stops {goesOn : Bytes → Bool} {run after : Bytes}
    (longest : Longest goesOn run after) :
    goesOn after = false := by
  induction run with
  | nil => exact longest
  | cons c run ih => exact ih longest.2

theorem Longest.all {test : UInt8 → Bool} {run after : Bytes}
    (longest : Longest (startsWith test) run after) :
    ∀ c ∈ run, test c = true := by
  induction run with
  | nil => simp
  | cons c run ih =>
    intro d member
    rcases List.mem_cons.mp member with rfl | member
    · exact longest.1
    · exact ih longest.2 d member

theorem Longest.unique {goesOn : Bytes → Bool} {run run' after after' : Bytes}
    (longest : Longest goesOn run after) (longest' : Longest goesOn run' after')
    (same : run ++ after = run' ++ after') :
    run = run' ∧ after = after' := by
  induction run generalizing run' with
  | nil =>
    cases run' with
    | nil => exact ⟨rfl, same⟩
    | cons c' rest' =>
      have stops : goesOn after = false := longest
      rw [show after = c' :: (rest' ++ after') from same, longest'.1] at stops
      cases stops
  | cons c rest ih =>
    cases run' with
    | nil =>
      have stops : goesOn after' = false := longest'
      rw [← show c :: (rest ++ after) = after' from same, longest.1] at stops
      cases stops
    | cons c' rest' =>
      obtain ⟨rfl, tails⟩ := List.cons.inj same
      obtain ⟨rfl, rfl⟩ := ih longest.2 longest'.2 tails
      exact ⟨rfl, rfl⟩

@[simp] theorem gapText_nil : gapText [] = [] := rfl

@[simp] theorem gapText_cons (f : Filler) (gap : Gap) :
    gapText (f :: gap) = f.text ++ gapText gap := rfl

/-- A gap ends here: no blank follows, and no comment whose line ends. -/
def Settled (text : Bytes) : Prop :=
  startsWith isSpace text = false ∧ (startsComment text = true → Bytes.newline ∉ text)

theorem Settled.filler {f : Filler} {rest : Bytes} (valid : f.Valid) :
    ¬ Settled (f.text ++ rest) := by
  rintro ⟨blank, comment⟩
  cases f with
  | blank c =>
    rw [show startsWith isSpace ((Filler.blank c).text ++ rest) = isSpace c from rfl,
      valid] at blank
    cases blank
  | comment text => exact comment rfl (by simp [Filler.text])

theorem exists_line {text : Bytes} (ends : Bytes.newline ∈ text) :
    ∃ line rest, text = line ++ Bytes.newline :: rest ∧ Bytes.newline ∉ line := by
  induction text with
  | nil => simp at ends
  | cons c rest ih =>
    by_cases here : c = Bytes.newline
    · subst here
      exact ⟨[], rest, rfl, by simp⟩
    · obtain ⟨line, after, rfl, unbroken⟩ := ih (by simpa [Ne.symm here] using ends)
      exact ⟨c :: line, after, rfl, by simp [Ne.symm here, unbroken]⟩

theorem startsComment_eq {text : Bytes} (starts : startsComment text = true) :
    ∃ rest, text = ascii '/' :: ascii '/' :: rest := by
  unfold startsComment at starts
  split at starts
  · rename_i a b rest
    simp only [Bool.and_eq_true, decide_eq_true_eq] at starts
    obtain ⟨rfl, rfl⟩ := starts
    exact ⟨rest, rfl⟩
  · cases starts

theorem startsWith_eq {c : UInt8} {text : Bytes} (starts : startsWith (· = c) text = true) :
    ∃ rest, text = c :: rest := by
  cases text with
  | nil => cases starts
  | cons d rest =>
    obtain rfl : d = c := by simpa [startsWith] using starts
    exact ⟨rest, rfl⟩

theorem exists_gap (text : Bytes) :
    ∃ gap rest, text = gapText gap ++ rest ∧ GapValid gap ∧ Settled rest := by
  induction length : text.length using Nat.strongRecOn generalizing text with
  | ind n ih =>
    by_cases settled : Settled text
    · exact ⟨[], text, rfl, by simp [GapValid], settled⟩
    · have filler : ∃ (f : Filler) (rest : Bytes), text = f.text ++ rest ∧ f.Valid := by
        by_cases blank : startsWith isSpace text = true
        · cases text with
          | nil => cases blank
          | cons c rest => exact ⟨.blank c, rest, rfl, blank⟩
        · have comment : startsComment text = true ∧ Bytes.newline ∈ text := by
            simpa [Settled, blank] using settled
          obtain ⟨inside, rfl⟩ := startsComment_eq comment.1
          have ends : Bytes.newline ∈ inside := by
            simpa [show Bytes.newline ≠ ascii '/' by decide] using comment.2
          obtain ⟨line, rest, rfl, unbroken⟩ := exists_line ends
          exact ⟨.comment line, rest, by simp [Filler.text], unbroken⟩
      obtain ⟨f, rest, rfl, valid⟩ := filler
      have shorter : rest.length < n := by
        cases f with
        | blank c => simp [Filler.text] at length; omega
        | comment text => simp [Filler.text] at length; omega
      obtain ⟨gap, after, rfl, valids, settled⟩ := ih _ shorter rest rfl
      refine ⟨f :: gap, after, by simp, ?_, settled⟩
      intro g member
      rcases List.mem_cons.mp member with rfl | member
      · exact valid
      · exact valids g member

end CallScript.Grammar
