import CallScript.Proofs.Number.Decimals
import CallScript.Proofs.Number.Shortest
import CallScript.Proofs.Program.Lexemes

/- Figures are read as the numbers they denote, and the text of a finite number is a figure that
   denotes it. -/
namespace CallScript.Grammar

open Lexical

namespace Figure

theorem digit_lower : ∀ c, Bytes.isDigit c = true → Bytes.toLower c = c :=
  forall_byte (by decide +kernel)

def unsigned (n : Figure) : Bytes := n.whole ++ n.tail

theorem mem_unsigned {n : Figure} {after : Bytes} (valid : n.Valid after) {c : UInt8}
    (held : c ∈ n.unsigned) :
    Bytes.isDigit c = true ∨ c = ascii '.' := by
  obtain ⟨-, -, digits, -⟩ := valid
  simp only [unsigned, tail, Figure.digits] at held digits
  cases fraction : n.fraction with
  | none =>
    simp only [fraction, Option.getD_none, List.append_nil] at held digits
    exact Or.inl (digits c held)
  | some after =>
    simp only [fraction, Option.getD_some, List.mem_append, List.mem_cons] at held digits
    rcases held with held | rfl | held
    · exact Or.inl (digits c (Or.inl held))
    · exact Or.inr rfl
    · exact Or.inl (digits c (Or.inr held))

theorem read_unsigned {n : Figure} {after : Bytes} (valid : n.Valid after) :
    Mantissa.read .decimal .empty n.unsigned =
      (⟨Bytes.natValue n.digits, (n.fraction.getD []).length, n.fraction.isSome, true⟩, []) := by
  obtain ⟨some, -, digits, -⟩ := valid
  have whole : ∀ c ∈ n.whole, Bytes.isDigit c = true :=
    fun c held => digits c (List.mem_append_left _ held)
  have seen : (!n.whole.isEmpty) = true := by simpa using some
  rw [unsigned, Mantissa.read_digits whole]
  cases fraction : n.fraction with
  | none => simp [tail, fraction, Mantissa.read, Mantissa.empty, Figure.digits, some]
  | some after =>
    have later : ∀ c ∈ after, Bytes.isDigit c = true := by
      intro c held
      exact digits c (List.mem_append_right _ (by simpa [fraction] using held))
    have point : ∀ m : Mantissa, m.point = false →
        Mantissa.read .decimal m (ascii '.' :: after) =
          Mantissa.read .decimal { m with point := true } (after ++ []) := by
      intro m before
      rw [List.append_nil]
      simp [Mantissa.read, before, show ascii '.' ≠ ascii '_' by decide]
    rw [tail, fraction]
    dsimp only
    rw [point _ rfl, Mantissa.read_digits later]
    simp [Mantissa.read, Mantissa.empty, Figure.digits, fraction, Bytes.natValue_append, some]

theorem unsigned_cons {n : Figure} {after : Bytes} (valid : n.Valid after) :
    ∃ c rest, n.unsigned = c :: rest ∧ Bytes.isDigit c = true := by
  obtain ⟨c, more, whole⟩ := List.exists_cons_of_ne_nil valid.1
  refine ⟨c, more ++ n.tail, by rw [unsigned, whole, List.cons_append], ?_⟩
  exact valid.2.2.1 c (by simp [digits, whole])

theorem lower_ne {n : Figure} {after : Bytes} (valid : n.Valid after) {c : UInt8}
    (letter : Bytes.isDigit c = false) (rest : Bytes) :
    n.unsigned.map Bytes.toLower ≠ c :: rest := by
  obtain ⟨d, more, first, digit⟩ := unsigned_cons valid
  rw [first, List.map_cons, digit_lower d digit]
  intro same
  rw [(List.cons.inj same).1, letter] at digit
  cases digit

theorem unsigned?_eq {n : Figure} {after : Bytes} (valid : n.Valid after) :
    Number.unsigned? n.negative n.unsigned = some n.value := by
  have numeral : Numeral.ofText? n.unsigned =
      some ⟨.decimal, Bytes.natValue n.digits, (n.fraction.getD []).length, 0⟩ := by
    rw [Numeral.ofText?_decimal, Numeral.body?, read_unsigned valid]
    · rfl
    · intro held
      exact absurd (mem_unsigned valid held) (by decide)
    · intro c held
      rcases mem_unsigned valid held with digit | rfl
      · rw [digit_lower c digit]
        rintro rfl
        cases digit
      · decide
  have noName : Number.infinityNames.contains (n.unsigned.map Bytes.toLower) = false := by
    have inf := lower_ne valid (c := ascii 'i') (by decide)
    simpa [Number.infinityNames] using ⟨inf _, inf _⟩
  rw [Number.unsigned?, noName, numeral]
  simp only [Bool.false_eq_true, if_false, Option.map_some, Numeral.magnitude,
    Numeral.decimalMagnitude_eq, value, Number.ofRatio]
  congr 3
  · simp
  · simp

theorem Valid.parse {n : Figure} {after : Bytes} (valid : n.Valid after) :
    Number.parse? n.text = some n.value := by
  have value := unsigned?_eq valid
  cases sign : n.negative with
  | true =>
    rw [sign] at value
    have text : n.text = ascii '-' :: n.unsigned := by simp [Figure.text, sign, unsigned]
    rw [text]
    simpa [Number.parse?] using value
  | false =>
    rw [sign] at value
    have text : n.text = n.unsigned := by simp [Figure.text, sign, unsigned]
    rw [text]
    obtain ⟨c, more, first, digit⟩ := unsigned_cons valid
    have unsignedFirst : c ≠ ascii '-' ∧ c ≠ ascii '+' := by
      constructor <;> rintro rfl <;> cases digit
    have noName : n.unsigned.map Bytes.toLower ≠ utf8 "nan" := lower_ne valid (by decide) _
    rw [first] at value noName ⊢
    simp only [Number.parse?, if_neg unsignedFirst.1, if_neg unsignedFirst.2, if_neg noName]
    exact value

end Figure

/-- A figure with the digits and the value of a decimal. -/
structure Figure.Writes (n : Figure) (negative : Bool) (text : Bytes) (num den : Nat) : Prop where
  text : n.text = if negative then ascii '-' :: text else text
  valid : ∀ after, startsWith (fun c => isWordPart c || c = ascii '.') after = false → n.Valid after
  value : n.value = .ofRatio negative num den

theorem Figure.writes {n : Figure} {text : Bytes} {num den : Nat} (unsigned : n.unsigned = text)
    (some : n.whole ≠ []) (fraction : n.fraction ≠ .some [])
    (digits : ∀ c ∈ n.digits, Bytes.isDigit c = true)
    (value : Bytes.natValue n.digits = num) (places : 10 ^ (n.fraction.getD []).length = den) :
    n.Writes n.negative text num den := by
  refine ⟨?_, fun after stops => ⟨some, fraction, digits, stops⟩, ?_⟩
  · rw [← unsigned, Figure.text]
    split <;> rfl
  · rw [Figure.value, value, Nat.pow_eq, places]

section Positional

variable {text : Bytes} (some : text ≠ []) (all : ∀ c ∈ text, Bytes.isDigit c = true)
  (negative : Bool)

theorem isDigit_zeros (k : Nat) : ∀ c ∈ Decimal.zeros k, Bytes.isDigit c = true := by
  intro c held
  rw [(List.mem_replicate.mp held).2]
  rfl

include some all

theorem writes_fraction (k : Nat) :
    Figure.Writes ⟨negative, [ascii '0'], .some (Decimal.zeros k ++ text)⟩ negative
      (utf8 "0." ++ Decimal.zeros k ++ text) (Bytes.natValue text) (10 ^ (k + text.length)) := by
  refine Figure.writes ?_ (by simp) (by simp [some]) ?_ ?_ ?_
  · simp [Figure.unsigned, Figure.tail, show utf8 "0." = [ascii '0', ascii '.'] by rfl]
  · intro c held
    simp only [Figure.digits, Option.getD_some, List.mem_append, List.mem_singleton] at held
    rcases held with rfl | held | held
    · rfl
    · exact isDigit_zeros _ c held
    · exact all c held
  · simp only [Figure.digits, Option.getD_some, Bytes.natValue_append, Decimal.zeros,
      Bytes.natValue_zeros]
    simp [Bytes.natValue, ascii]
  · simp [Decimal.zeros]

theorem writes_whole (k : Nat) :
    Figure.Writes ⟨negative, text ++ Decimal.zeros k, none⟩ negative (text ++ Decimal.zeros k)
      (Bytes.natValue text * 10 ^ k) 1 := by
  refine Figure.writes ?_ (by simp [some]) (by simp) ?_ ?_ rfl
  · simp [Figure.unsigned, Figure.tail]
  · intro c held
    simp only [Figure.digits, Option.getD_none, List.append_nil, List.mem_append] at held
    rcases held with held | held
    · exact all c held
    · exact isDigit_zeros _ c held
  · simp [Figure.digits, Bytes.natValue_append, Decimal.zeros, Bytes.natValue_zeros]

theorem writes_between {k : Nat} (pos : 0 < k) (less : k < text.length) :
    Figure.Writes ⟨negative, text.take k, .some (text.drop k)⟩ negative
      (text.take k ++ ascii '.' :: text.drop k) (Bytes.natValue text) (10 ^ (text.length - k)) := by
  refine Figure.writes ?_ ?_ ?_ ?_ ?_ ?_
  · simp [Figure.unsigned, Figure.tail]
  · simp only [ne_eq, List.take_eq_nil_iff, some, or_false]
    omega
  · simp only [ne_eq, Option.some.injEq, List.drop_eq_nil_iff]
    omega
  · simpa [Figure.digits] using all
  · simp [Figure.digits]
  · simp

end Positional

theorem exists_figure_decimal (negative : Bool) (d : Decimal) :
    ∃ n : Figure,
      n.Writes negative d.render ((d.stripZeros 20).digits * 10 ^ (d.stripZeros 20).exponent.toNat)
      (10 ^ (-(d.stripZeros 20).exponent).toNat) := by
  unfold Decimal.render
  generalize d.stripZeros 20 = e
  have some := Bytes.decimal_ne_nil e.digits
  have all := Bytes.isDigit_decimal e.digits
  have value := Bytes.natValue_decimal e.digits
  dsimp only
  generalize Bytes.decimal e.digits = text at *
  rw [← value]
  have positive := List.length_pos_iff.mpr some
  split
  · rename_i small
    rw [show e.exponent.toNat = 0 by omega, Nat.pow_zero, Nat.mul_one,
      show (-e.exponent).toNat = (-(text.length + e.exponent)).toNat + text.length by omega]
    exact ⟨_, writes_fraction some all negative _⟩
  · split
    · rename_i large
      rw [show e.exponent.toNat = (text.length + e.exponent).toNat - text.length by omega,
        show (-e.exponent).toNat = 0 by omega]
      exact ⟨_, writes_whole some all negative _⟩
    · rename_i large
      rw [show e.exponent.toNat = 0 by omega, Nat.pow_zero, Nat.mul_one,
        show (-e.exponent).toNat = text.length - (text.length + e.exponent).toNat by omega]
      exact ⟨_, writes_between some all negative (by omega) (by omega)⟩

/-- The text of a finite number is a figure with its value. -/
theorem exists_figure_render {x : Number} (finite : x.magnitude < Number.infiniteMagnitude) :
    ∃ n : Figure, n.text = x.render ∧ n.value = x ∧
      ∀ after, startsWith (fun c => isWordPart c || c = ascii '.') after = false →
        n.Valid after := by
  have number : x.isNaN = false := by simp [Number.isNaN]; omega
  have bounded : x.isInfinite = false := by simp [Number.isInfinite]; omega
  obtain ⟨n, num, den, writes, value⟩ : ∃ (n : Figure) (num den : Nat),
      n.Writes x.isNegative x.renderMagnitude num den ∧ Number.nearest num den = x.magnitude := by
    by_cases zero : x.magnitude = 0
    · have text : x.renderMagnitude = utf8 "0" := by
        simp [Number.renderMagnitude, bounded, Number.isZero, zero]
      rw [text, zero]
      refine ⟨⟨x.isNegative, [ascii '0'], none⟩, 0, 1,
        Figure.writes rfl (by simp) (by simp) ?_ rfl rfl, rfl⟩
      intro c held
      rw [List.mem_singleton.mp held]
      rfl
    · have text : x.renderMagnitude = x.shortest.render := by
        simp [Number.renderMagnitude, bounded, Number.isZero, zero]
      rw [text]
      obtain ⟨n, writes⟩ := exists_figure_decimal x.isNegative x.shortest
      exact ⟨n, _, _, writes, Number.nearest_shortest zero finite⟩
  refine ⟨n, ?_, ?_, writes.valid⟩
  · rw [writes.text, Number.render, number]
    rfl
  · rw [writes.value, Number.ofRatio, value, Number.ofMagnitude_magnitude]

end CallScript.Grammar
