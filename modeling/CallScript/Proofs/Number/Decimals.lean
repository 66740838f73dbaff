import CallScript.Number.Numeral
import CallScript.Proofs.Number.Nearest

/- Decimal digits and the numbers they denote. The digits of a number denote it, a run of digits is
   read as what it denotes, and a numeral far outside the range of numbers is rounded to what the
   shortcut for it gives. -/
namespace CallScript

namespace Bytes

theorem foldl_digits (digits : Bytes) (before : Nat) :
    digits.foldl (fun acc c => 10 * acc + (c.toNat - 48)) before =
      before * 10 ^ digits.length + natValue digits := by
  induction digits generalizing before with
  | nil => simp [natValue]
  | cons c rest ih =>
    have here : natValue (c :: rest) = (c.toNat - 48) * 10 ^ rest.length + natValue rest := by
      simp only [natValue, List.foldl_cons, Nat.mul_zero, Nat.zero_add]
      exact ih _
    rw [List.foldl_cons, ih, here, List.length_cons, Nat.pow_succ]
    ring

theorem natValue_cons (c : UInt8) (rest : Bytes) :
    natValue (c :: rest) = (c.toNat - 48) * 10 ^ rest.length + natValue rest := by
  rw [natValue, List.foldl_cons, Nat.mul_zero, Nat.zero_add]
  exact foldl_digits rest _

theorem natValue_append (front back : Bytes) :
    natValue (front ++ back) = natValue front * 10 ^ back.length + natValue back := by
  rw [natValue, List.foldl_append]
  exact foldl_digits back _

theorem natValue_zeros (n : Nat) : natValue (List.replicate n (ascii '0')) = 0 := by
  induction n with
  | zero => rfl
  | succ n ih =>
    rw [List.replicate_succ, natValue_cons, ih]
    show 0 * _ + 0 = 0
    omega

theorem ascii_digit {c : Char} (digit : c.isDigit = true) :
    isDigit (ascii c) = true ∧ (ascii c).toNat = c.toNat := by
  have range : 48 ≤ c.toNat ∧ c.toNat ≤ 57 := by
    simpa [Char.isDigit, UInt32.le_iff_toNat_le] using digit
  have same : (ascii c).toNat = c.toNat := by
    simp only [ascii, Nat.toUInt8, UInt8.toNat_ofNat']
    omega
  refine ⟨?_, same⟩
  rw [isDigit, Bool.and_eq_true, decide_eq_true_eq, decide_eq_true_eq, UInt8.le_iff_toNat_le,
    UInt8.le_iff_toNat_le, same]
  exact range

theorem isDigit_decimal (n : Nat) : ∀ c ∈ decimal n, isDigit c = true := by
  intro c member
  obtain ⟨d, held, rfl⟩ := List.mem_map.mp member
  exact (ascii_digit (Nat.isDigit_of_mem_toDigits (by decide) (by decide) held)).1

theorem decimal_ne_nil (n : Nat) : decimal n ≠ [] := by
  simp [decimal, Nat.toDigits_ne_nil]

theorem natValue_decimal (n : Nat) : natValue (decimal n) = n := by
  have chars : ∀ (digits : List Char) (before : Nat), (∀ c ∈ digits, c.isDigit = true) →
      (digits.map ascii).foldl (fun acc c => 10 * acc + (c.toNat - 48)) before =
        Nat.ofDigitChars 10 digits before := by
    intro digits
    induction digits with
    | nil => simp [Nat.ofDigitChars]
    | cons c rest ih =>
      intro before all
      rw [List.map_cons, List.foldl_cons, (ascii_digit (all c (by simp))).2, ih _ fun d held =>
        all d (by simp [held]), Nat.ofDigitChars_cons]
      rfl
  rw [natValue, decimal, chars _ _ fun c held => Nat.isDigit_of_mem_toDigits (by decide)
    (by decide) held, Nat.ofDigitChars_ten_toDigits]

end Bytes

namespace Mantissa

theorem read_digits {run : Bytes} (digits : ∀ c ∈ run, Bytes.isDigit c = true) (m : Mantissa)
    (rest : Bytes) :
    read .decimal m (run ++ rest) = read .decimal ⟨m.digits * 10 ^ run.length + Bytes.natValue run,
      if m.point then m.places + run.length
      else m.places, m.point, m.seen || !run.isEmpty⟩ rest := by
  induction run generalizing m with
  | nil => simp [Bytes.natValue]
  | cons c run ih =>
    have digit := digits c (by simp)
    have plain : c ≠ ascii '_' ∧ c ≠ ascii '.' := by
      constructor <;> rintro rfl <;> cases digit
    have step : read .decimal m (c :: (run ++ rest)) =
        read .decimal ⟨m.digits * 10 + (c.toNat - 48),
        if m.point then m.places + 1 else m.places, m.point, true⟩ (run ++ rest) := by
      simp [read, plain, Radix.digitValue?, digit, Radix.base]
    rw [List.cons_append, step, ih fun d held => digits d (by simp [held]), Bytes.natValue_cons,
      List.length_cons]
    congr 2
    · rw [Nat.pow_succ]
      ring
    · cases m.point <;> simp [Nat.add_comm, Nat.add_left_comm]
    · simp

end Mantissa

namespace Numeral

theorem underscoresSeparate_none (isDigit : UInt8 → Bool) {text : Bytes} (none : ascii '_' ∉ text)
    {before : Previous} (fine : before ≠ .underscore) :
    underscoresSeparate isDigit before text = true := by
  induction text generalizing before with
  | nil => simpa [underscoresSeparate] using fine
  | cons c rest ih =>
    have plain : c ≠ ascii '_' := fun same => none (by simp [same])
    have later : ascii '_' ∉ rest := fun held => none (by simp [held])
    simp only [underscoresSeparate, if_neg plain]
    split
    · exact ih later (by simp)
    · rw [ih later (by simp)]
      simp [fine]

theorem ofText?_decimal {text : Bytes} (none : ascii '_' ∉ text)
    (unmarked : ∀ c ∈ text, Bytes.toLower c ≠ ascii 'x') :
    ofText? text = body? .decimal text := by
  have separate : underscoresSeparate Bytes.isDigit .nothing text = true :=
    underscoresSeparate_none _ none (by simp)
  unfold ofText?
  split
  · rename_i zero mark first rest
    have plain := unmarked mark (by simp)
    simp [plain, separate]
  · simp [separate]

theorem two_pow_le_ten_pow {k n : Nat} (small : k ≤ 3 * n) : 2 ^ k ≤ 10 ^ n := by
  calc 2 ^ k ≤ 2 ^ (3 * n) := Nat.pow_le_pow_right (by decide) small
    _ = (2 ^ 3) ^ n := Nat.pow_mul 2 3 n
    _ ≤ 10 ^ n := Nat.pow_le_pow_left (by decide) n

/-- The shortcuts for numerals far outside the range of numbers give what rounding gives. -/
theorem decimalMagnitude_eq (digits : Nat) (exponent : Int) : decimalMagnitude digits exponent =
    Number.nearest (digits * 10 ^ exponent.toNat) (10 ^ (-exponent).toNat) := by
  have pos : 10 ^ (-exponent).toNat ≠ 0 := Nat.pos_iff_ne_zero.mp (Nat.pow_pos (by decide))
  have size := @Nat.length_toDigits_pos 10 digits
  have most : digits < 10 ^ (Nat.toDigits 10 digits).length :=
    (Nat.length_toDigits_le_iff (by decide) size).mp (Nat.le_refl _)
  have least : digits ≠ 0 → 10 ^ ((Nat.toDigits 10 digits).length - 1) ≤ digits := by
    intro some
    by_cases one : (Nat.toDigits 10 digits).length = 1
    · rw [one]
      exact Nat.pos_of_ne_zero some
    · apply Nat.le_of_not_lt
      intro less
      have := (Nat.length_toDigits_le_iff (by decide) (by omega)).mpr less
      omega
  -- The margins are kept as variables, so that no power is computed.
  obtain ⟨margin, enough⟩ : ∃ margin, margin = 400 := ⟨400, rfl⟩
  unfold decimalMagnitude
  generalize (Nat.toDigits 10 digits).length = length at size most least
  by_cases none : digits = 0
  · simp [none, Number.nearest]
  by_cases tiny : (length : Int) + exponent < -400
  · rw [Number.nearest_tiny pos]
    · simp [tiny]
    · rw [show exponent.toNat = 0 by omega, Nat.pow_zero, Nat.mul_one]
      generalize unitExponent : 1074 = unit
      calc 2 * (digits * 2 ^ unit) = digits * 2 ^ (unit + 1) := by ring
        _ ≤ 10 ^ length * 10 ^ margin :=
          Nat.mul_le_mul (Nat.le_of_lt most) (two_pow_le_ten_pow (by omega))
        _ = 10 ^ (length + margin) := (Nat.pow_add 10 length margin).symm
        _ ≤ 10 ^ (-exponent).toNat := Nat.pow_le_pow_right (by decide) (by omega)
  by_cases huge : 400 < (length : Int) + exponent
  · rw [Number.nearest_huge pos]
    · simp [none, tiny, huge]
    · generalize limitExponent : 1024 = limit
      calc 10 ^ (-exponent).toNat * 2 ^ limit ≤ 10 ^ (-exponent).toNat * 10 ^ margin :=
            Nat.mul_le_mul_left _ (two_pow_le_ten_pow (by omega))
        _ = 10 ^ ((-exponent).toNat + margin) := (Nat.pow_add 10 _ margin).symm
        _ ≤ 10 ^ (length - 1 + exponent.toNat) := Nat.pow_le_pow_right (by decide) (by omega)
        _ = 10 ^ (length - 1) * 10 ^ exponent.toNat := Nat.pow_add 10 _ _
        _ ≤ digits * 10 ^ exponent.toNat := Nat.mul_le_mul_right _ (least none)
  · simp [none, tiny, huge]

end Numeral
end CallScript
