import CallScript.Proofs.Program.Grammar

/- The tokens of a text and where they end. The kinds of bytes are apart, so the first byte of a
   token tells its kind, and two tokens of one kind that start a text are the same token and leave
   the same text. -/
namespace CallScript

theorem forall_byte {p : UInt8 → Prop} (all : ∀ n : Fin 256, p (UInt8.ofNat n)) (c : UInt8) :
    p c := by
  have this := all ⟨c.toNat, c.toNat_lt⟩
  rwa [UInt8.ofNat_toNat] at this

namespace Grammar

open Lexical

/-- The bytes with a meaning of their own outside of strings. -/
def marks : Bytes := utf8 "(),\""

theorem wordStart_kind : ∀ c, isWordStart c = true → isWordPart c = true ∧ isSpace c = false ∧
    isOperator c = false ∧ Bytes.isDigit c = false ∧ c ∉ marks :=
  forall_byte (by decide +kernel)

theorem operator_kind : ∀ c, isOperator c = true → isWordPart c = false ∧ isWordStart c = false ∧
    isSpace c = false ∧ Bytes.isDigit c = false ∧ c ∉ marks ∧ c ≠ ascii '.' :=
  forall_byte (by decide +kernel)

theorem digit_kind : ∀ c, Bytes.isDigit c = true → isWordPart c = true ∧ isWordStart c = false ∧
    isSpace c = false ∧ isOperator c = false ∧ c ∉ marks ∧ c ≠ ascii '.' :=
  forall_byte (by decide +kernel)

theorem not_digit {c : UInt8} (part : isWordPart c = false) : Bytes.isDigit c = false := by
  cases digit : Bytes.isDigit c with
  | false => rfl
  | true =>
    rw [(digit_kind c digit).1] at part
    cases part

theorem not_comment {c : UInt8} (plain : isOperator c = false) (rest : Bytes) :
    startsComment (c :: rest) = false := by
  cases rest with
  | nil => rfl
  | cons d rest =>
    have ne : c ≠ ascii '/' := by
      rintro rfl
      exact absurd plain (by decide)
    simp [startsComment, ne]

theorem settled_of_plain {c : UInt8} (space : isSpace c = false) (plain : isOperator c = false)
    (rest : Bytes) :
    Settled (c :: rest) :=
  ⟨space, fun starts => by rw [not_comment plain] at starts; cases starts⟩

theorem GapValid.tail {f : Filler} {gap : Gap} (valid : GapValid (f :: gap)) : GapValid gap :=
  fun g member => valid g (List.mem_cons_of_mem f member)

theorem filler_unique {f g : Filler} {a b : Bytes} (valid : f.Valid) (valid' : g.Valid)
    (same : f.text ++ a = g.text ++ b) : f = g ∧ a = b := by
  cases f with
  | blank c =>
    cases g with
    | blank d =>
      obtain ⟨rfl, tails⟩ := List.cons.inj same
      exact ⟨rfl, tails⟩
    | comment text =>
      obtain ⟨rfl, _⟩ := List.cons.inj same
      exact absurd valid (by simp [Filler.Valid]; decide)
  | comment text =>
    cases g with
    | blank d =>
      obtain ⟨rfl, _⟩ := List.cons.inj same
      exact absurd valid' (by simp [Filler.Valid]; decide)
    | comment other =>
      simp only [Filler.text, List.cons_append, List.append_assoc, List.nil_append, List.cons.injEq,
        true_and] at same
      -- The line of a comment ends with the first newline.
      have line : ∀ {text : Bytes} {rest : Bytes}, Bytes.newline ∉ text →
          Longest (startsWith (· ≠ Bytes.newline)) text (Bytes.newline :: rest) := by
        intro text rest unbroken
        induction text with
        | nil => simp [Longest, startsWith]
        | cons c text ih =>
          simp only [List.mem_cons, not_or] at unbroken
          exact ⟨by simpa [startsWith] using Ne.symm unbroken.1, ih unbroken.2⟩
      obtain ⟨rfl, tails⟩ := (line valid).unique (line valid') same
      exact ⟨rfl, (List.cons.inj tails).2⟩

theorem gap_unique {gap gap' : Gap} {a b : Bytes} (valid : GapValid gap) (valid' : GapValid gap')
    (settled : Settled a) (settled' : Settled b) (same : gapText gap ++ a = gapText gap' ++ b) :
    gap = gap' ∧ a = b := by
  induction gap generalizing gap' with
  | nil =>
    cases gap' with
    | nil => exact ⟨rfl, same⟩
    | cons g gap' =>
      simp only [gapText_nil, List.nil_append, gapText_cons, List.append_assoc] at same
      rw [same] at settled
      exact absurd settled (Settled.filler (valid' g List.mem_cons_self))
  | cons f gap ih =>
    cases gap' with
    | nil =>
      simp only [gapText_nil, List.nil_append, gapText_cons, List.append_assoc] at same
      rw [← same] at settled'
      exact absurd settled' (Settled.filler (valid f List.mem_cons_self))
    | cons g gap' =>
      simp only [gapText_cons, List.append_assoc] at same
      obtain ⟨rfl, tails⟩ :=
        filler_unique (valid f List.mem_cons_self) (valid' g List.mem_cons_self) same
      obtain ⟨rfl, rest⟩ := ih valid.tail valid'.tail tails
      exact ⟨rfl, rest⟩

theorem IsName.first {name after : Bytes} (isName : IsName name after) :
    ∃ c rest, name = c :: rest ∧ startsComment (name ++ after) = false ∧
      (isWordStart c = true ∨ isOperator c = true) := by
  rcases isName with ⟨starts, _⟩ | ⟨some, longest⟩
  · cases name with
    | nil => cases starts
    | cons c rest =>
      exact ⟨c, rest, rfl, not_comment (wordStart_kind c starts).2.2.1 _, .inl starts⟩
  · cases name with
    | nil => exact absurd rfl some
    | cons c rest =>
      have goesOn : isOperator c = true ∧ startsComment (c :: (rest ++ after)) = false := by
        simpa [startsWith] using longest.1
      exact ⟨c, rest, rfl, goesOn.2, .inr goesOn.1⟩

theorem IsName.settled {name after : Bytes} (isName : IsName name after) :
    Settled (name ++ after) := by
  obtain ⟨c, rest, rfl, noComment, kind⟩ := isName.first
  refine ⟨?_, fun starts => by rw [noComment] at starts; cases starts⟩
  rcases kind with word | operator
  · exact (wordStart_kind c word).2.1
  · exact (operator_kind c operator).2.2.1

theorem IsName.not_mark {name after : Bytes} (isName : IsName name after) :
    ∃ c rest, name = c :: rest ∧ c ∉ marks ∧ Bytes.isDigit c = false := by
  obtain ⟨c, rest, same, _, kind⟩ := isName.first
  refine ⟨c, rest, same, ?_⟩
  rcases kind with word | operator
  · exact ⟨(wordStart_kind c word).2.2.2.2, (wordStart_kind c word).2.2.2.1⟩
  · exact ⟨(operator_kind c operator).2.2.2.2.1, (operator_kind c operator).2.2.2.1⟩

theorem IsName.unique {name name' a b : Bytes} (isName : IsName name a) (isName' : IsName name' b)
    (same : name ++ a = name' ++ b) : name = name' ∧ a = b := by
  -- A word and an operator differ in their first bytes.
  have apart : ∀ {word operator a b : Bytes}, startsWith isWordStart word = true → operator ≠ [] →
      Longest (fun text => startsWith isOperator text && !startsComment text) operator b →
        word ++ a ≠ operator ++ b := by
    intro word operator a b starts some longest same
    cases word with
    | nil => cases starts
    | cons c word =>
      cases operator with
      | nil => exact some rfl
      | cons d operator =>
        obtain ⟨rfl, _⟩ := List.cons.inj same
        have isOp : isOperator c = true := by
          have := longest.1
          simp only [startsWith, Bool.and_eq_true] at this
          exact this.1
        rw [(wordStart_kind c starts).2.2.1] at isOp
        cases isOp
  rcases isName with ⟨starts, longest⟩ | ⟨some, longest⟩
  · rcases isName' with ⟨_, longest'⟩ | ⟨some', longest'⟩
    · exact longest.unique longest' same
    · exact absurd same (apart starts some' longest')
  · rcases isName' with ⟨starts', _⟩ | ⟨_, longest'⟩
    · exact absurd same.symm (apart starts' some longest)
    · exact longest.unique longest' same

theorem longest_of_all {test : UInt8 → Bool} {run after : Bytes} (all : ∀ c ∈ run, test c = true)
    (stops : startsWith test after = false) : Longest (startsWith test) run after := by
  induction run with
  | nil => exact stops
  | cons c rest ih =>
    exact ⟨all c List.mem_cons_self, ih fun d member => all d (List.mem_cons_of_mem c member)⟩

namespace Figure

variable {n m : Figure} {a b : Bytes}

theorem Valid.stops (valid : n.Valid a) : startsWith Bytes.isDigit a = false := by
  obtain ⟨_, _, _, stops⟩ := valid
  cases a with
  | nil => rfl
  | cons c rest =>
    simp only [startsWith, Bool.or_eq_false_iff] at stops
    exact not_digit stops.1

theorem Valid.whole_longest (valid : n.Valid a) :
    Longest (startsWith Bytes.isDigit) n.whole (n.tail ++ a) := by
  apply longest_of_all
  · intro c member
    exact valid.2.2.1 c (List.mem_append_left _ member)
  · unfold tail
    split
    · exact valid.stops
    · rfl

theorem unsigned_first (valid : n.Valid a) :
    ∃ c rest, n.whole ++ (n.tail ++ a) = c :: rest ∧ Bytes.isDigit c = true := by
  obtain ⟨some, _, all, _⟩ := valid
  unfold digits at all
  cases whole : n.whole with
  | nil => exact absurd whole some
  | cons c rest => exact ⟨c, _, rfl, all c (by simp [whole])⟩

theorem text_append (n : Figure) (a : Bytes) :
    n.text ++ a = (if n.negative then [ascii '-'] else []) ++ (n.whole ++ (n.tail ++ a)) := by
  simp [text]

theorem Valid.first (valid : n.Valid a) : ∃ c rest, Bytes.isDigit c = true ∧
    n.text ++ a = if n.negative then ascii '-' :: c :: rest else c :: rest := by
  obtain ⟨c, rest, same, digit⟩ := unsigned_first valid
  refine ⟨c, rest, digit, ?_⟩
  rw [text_append, same]
  split
  · rfl
  · rfl

theorem tail_unique (valid : n.Valid a) (valid' : m.Valid b) (same : n.tail ++ a = m.tail ++ b) :
    n.fraction = m.fraction ∧ a = b := by
  -- What follows a number is no point, so a point belongs to it.
  have pointless : ∀ {n : Figure} {a rest : Bytes}, n.Valid a → a ≠ ascii '.' :: rest := by
    rintro n a rest ⟨_, _, _, stops⟩ rfl
    simp [startsWith] at stops
  cases fraction : n.fraction with
  | none =>
    cases fraction' : m.fraction with
    | none =>
      simp only [tail, fraction, fraction'] at same
      exact ⟨rfl, same⟩
    | some digits =>
      simp only [tail, fraction, fraction'] at same
      exact absurd same (pointless valid)
  | some digits =>
    cases fraction' : m.fraction with
    | none =>
      simp only [tail, fraction, fraction'] at same
      exact absurd same.symm (pointless valid')
    | some digits' =>
      simp only [tail, fraction, fraction', List.cons_append, List.cons.injEq, true_and] at same
      have all : ∀ c ∈ digits, Bytes.isDigit c = true := fun c member =>
        valid.2.2.1 c (List.mem_append_right _ (by simpa [fraction] using member))
      have all' : ∀ c ∈ digits', Bytes.isDigit c = true := fun c member =>
        valid'.2.2.1 c (List.mem_append_right _ (by simpa [fraction'] using member))
      obtain ⟨rfl, rest⟩ :=
        (longest_of_all all valid.stops).unique (longest_of_all all' valid'.stops) same
      exact ⟨rfl, rest⟩

theorem Valid.unique (valid : n.Valid a) (valid' : m.Valid b) (same : n.text ++ a = m.text ++ b) :
    n = m ∧ a = b := by
  have sign : n.negative = m.negative := by
    obtain ⟨c, rest, digit, text⟩ := valid.first
    obtain ⟨d, rest', digit', text'⟩ := valid'.first
    rw [text, text'] at same
    cases negative : n.negative with
    | true =>
      cases negative' : m.negative with
      | true => rfl
      | false =>
        simp only [negative, negative', if_true, Bool.false_eq_true, if_false] at same
        obtain ⟨rfl, _⟩ := List.cons.inj same
        exact absurd digit' (by decide)
    | false =>
      cases negative' : m.negative with
      | true =>
        simp only [negative, negative', if_true, Bool.false_eq_true, if_false] at same
        obtain ⟨rfl, _⟩ := List.cons.inj same
        exact absurd digit (by decide)
      | false => rfl
  rw [text_append, text_append, sign, List.append_cancel_left_eq] at same
  obtain ⟨whole, tails⟩ := valid.whole_longest.unique valid'.whole_longest same
  obtain ⟨fraction, rest⟩ := tail_unique valid valid' tails
  obtain ⟨_, _, _⟩ := n
  obtain ⟨_, _, _⟩ := m
  simp_all

end Figure

theorem pieces_unique {pieces pieces' : List StringPart} {a b : Bytes}
    (valid : ∀ p ∈ pieces, p.Valid) (valid' : ∀ p ∈ pieces', p.Valid)
    (same : pieces.flatMap StringPart.text ++ ascii '"' :: a =
      pieces'.flatMap StringPart.text ++ ascii '"' :: b) :
    pieces = pieces' ∧ a = b := by
  -- No piece looks like the closing quote.
  have unquoted : ∀ {p : StringPart} {rest text : Bytes}, p.Valid →
      ascii '"' :: text ≠ p.text ++ rest := by
    intro p rest text valid same
    cases p with
    | plain c =>
      obtain ⟨rfl, _⟩ := List.cons.inj same
      exact valid.1 rfl
    | escaped c => exact absurd (List.cons.inj same).1 (by decide)
  induction pieces generalizing pieces' with
  | nil =>
    cases pieces' with
    | nil => exact ⟨rfl, (List.cons.inj same).2⟩
    | cons q pieces' =>
      simp only [List.flatMap_nil, List.nil_append, List.flatMap_cons, List.append_assoc] at same
      exact absurd same (unquoted (valid' q List.mem_cons_self))
  | cons p pieces ih =>
    cases pieces' with
    | nil =>
      simp only [List.flatMap_nil, List.nil_append, List.flatMap_cons, List.append_assoc] at same
      exact absurd same.symm (unquoted (valid p List.mem_cons_self))
    | cons q pieces' =>
      simp only [List.flatMap_cons, List.append_assoc] at same
      have first : p = q ∧
          pieces.flatMap StringPart.text ++ ascii '"' :: a =
            pieces'.flatMap StringPart.text ++ ascii '"' :: b := by
        have here := valid p List.mem_cons_self
        have there := valid' q List.mem_cons_self
        cases p with
        | plain c =>
          cases q with
          | plain d =>
            obtain ⟨rfl, rest⟩ := List.cons.inj same
            exact ⟨rfl, rest⟩
          | escaped d =>
            obtain ⟨rfl, _⟩ := List.cons.inj same
            exact absurd rfl here.2
        | escaped c =>
          cases q with
          | plain d =>
            obtain ⟨rfl, _⟩ := List.cons.inj same
            exact absurd rfl there.2
          | escaped d =>
            obtain ⟨rfl, rest⟩ := List.cons.inj (List.cons.inj same).2
            exact ⟨rfl, rest⟩
      obtain ⟨rfl, rest⟩ := first
      obtain ⟨rfl, after⟩ := ih (fun x member => valid x (List.mem_cons_of_mem p member))
        (fun x member => valid' x (List.mem_cons_of_mem p member)) rest
      exact ⟨rfl, after⟩

end Grammar
end CallScript
