import Mathlib.Tactic.Ring
import Mathlib.Tactic.Linarith
import CallScript.Number.Shortest
import CallScript.Number.Rounding

/- Rounding a ratio to a number. All ratios are put over the least unit, `2 ^ -1074`: the scale of a
   ratio is the least power of two for which fewer than 54 bits stand before the point, and its
   magnitude is read off the scale and the rounded quotient. A ratio in the rounding interval of a
   number is rounded to that number. -/
namespace CallScript

theorem roundDiv_mul_right (num den : Nat) {k : Nat} (pos : 0 < k) :
    roundDiv (num * k) (den * k) = roundDiv num den := by
  unfold roundDiv
  rw [Nat.mul_div_mul_right _ _ pos, Nat.mul_mod_mul_right, ← Nat.mul_assoc]
  have less : den * k < 2 * (num % den) * k ↔ den < 2 * (num % den) := Nat.mul_lt_mul_right pos
  have same : 2 * (num % den) * k = den * k ↔ 2 * (num % den) = den := Nat.mul_right_cancel_iff pos
  simp only [less, beq_eq_decide, same]

theorem roundDiv_eq {num den quotient : Nat} (pos : 0 < den)
    (low : 2 * (quotient * den) ≤ 2 * num + den) (high : 2 * num ≤ 2 * (quotient * den) + den)
    (tie : 2 * (quotient * den) = 2 * num + den ∨ 2 * num = 2 * (quotient * den) + den →
      quotient % 2 = 0) :
    roundDiv num den = quotient := by
  have split := Nat.div_add_mod num den
  have rest := Nat.mod_lt num pos
  rw [Nat.mul_comm] at split
  have lower : ¬ quotient < num / den := by
    intro less
    have := Nat.mul_le_mul_right den (Nat.succ_le_of_lt less)
    rw [Nat.succ_mul] at this
    omega
  have upper : ¬ num / den + 1 < quotient := by
    intro more
    have := Nat.mul_le_mul_right den (Nat.succ_le_of_lt more)
    rw [Nat.succ_mul, Nat.succ_mul] at this
    omega
  unfold roundDiv
  -- The quotient is the whole part of the ratio or one more.
  rcases Nat.eq_or_lt_of_le (Nat.le_of_not_lt lower) with same | more
  · rw [← same] at low high tie ⊢
    have below : ¬ den < 2 * (num % den) := by omega
    have even : 2 * (num % den) = den → num / den % 2 = 0 := fun half => tie (by omega)
    by_cases half : 2 * (num % den) = den
    · simp [half, even half]
    · simp [below, half]
  · obtain rfl : quotient = num / den + 1 := by omega
    have next : (num / den + 1) * den = num / den * den + den := Nat.succ_mul _ _
    by_cases above : den < 2 * (num % den)
    · simp [above]
    · have half : 2 * (num % den) = den := by omega
      have odd : num / den % 2 = 1 := by
        have := tie (by omega)
        omega
      simp [half, odd]

theorem div_le_roundDiv (num den : Nat) : num / den ≤ roundDiv num den := by
  unfold roundDiv
  dsimp only
  split <;> omega

theorem roundDiv_le {num den quotient : Nat} (pos : 0 < den) (le : num ≤ quotient * den) :
    roundDiv num den ≤ quotient := by
  have split := Nat.div_add_mod num den
  rw [Nat.mul_comm] at split
  have most : num / den ≤ quotient := Nat.div_le_of_le_mul (Nat.mul_comm _ _ ▸ le)
  unfold roundDiv
  rcases Nat.eq_or_lt_of_le most with same | less
  · rw [same] at split ⊢
    have exact : num % den = 0 := by omega
    simp [exact, Nat.ne_of_lt pos]
  · dsimp only
    split <;> omega

namespace Number

theorem unitsIn_eq (num den e : Nat) : unitsIn num den e = num * 2 ^ 1074 / (den * 2 ^ e) := by
  simp only [unitsIn, Nat.pow_eq]
  split
  · rename_i small
    have whole : 2 ^ 1074 = 2 ^ (1074 - e) * 2 ^ e := by
      rw [← Nat.pow_add, Nat.sub_add_cancel small]
    rw [whole, ← Nat.mul_assoc, Nat.mul_div_mul_right _ _ (Nat.two_pow_pos e)]
  · rename_i large
    have whole : 2 ^ e = 2 ^ (e - 1074) * 2 ^ 1074 := by
      rw [← Nat.pow_add, Nat.sub_add_cancel (by omega)]
    rw [whole, ← Nat.mul_assoc, Nat.mul_div_mul_right _ _ (Nat.two_pow_pos 1074)]

theorem nearest_eq {num : Nat} (some : num ≠ 0) (den : Nat) : nearest num den =
    min infiniteMagnitude (scaleOf num den * 2 ^ 52 + roundDiv (num * 2 ^ 1074)
      (den * 2 ^ scaleOf num den)) := by
  simp only [nearest, Nat.pow_eq]
  rw [if_neg some]
  generalize scaleOf num den = e
  by_cases small : e ≤ 1074
  · have whole : 2 ^ 1074 = 2 ^ (1074 - e) * 2 ^ e := by
      rw [← Nat.pow_add, Nat.sub_add_cancel small]
    simp only [if_pos small]
    rw [whole, ← Nat.mul_assoc, roundDiv_mul_right _ _ (Nat.two_pow_pos e)]
  · have whole : 2 ^ e = 2 ^ (e - 1074) * 2 ^ 1074 := by
      rw [← Nat.pow_add, Nat.sub_add_cancel (by omega)]
    simp only [if_neg small]
    rw [whole, ← Nat.mul_assoc, roundDiv_mul_right _ _ (Nat.two_pow_pos 1074)]

/-- The least scale at which a ratio, in units of `2 ^ -1074`, has fewer than 54 bits before the
point. -/
structure IsScale (units den e : Nat) : Prop where
  enough : units < 2 ^ 53 * (den * 2 ^ e)
  least : e = 0 ∨ 2 ^ 53 * (den * 2 ^ (e - 1)) ≤ units

theorem IsScale.unique {units den e e' : Nat} (scale : IsScale units den e)
    (scale' : IsScale units den e') :
    e = e' := by
  have le : ∀ {e e' : Nat}, IsScale units den e → IsScale units den e' → e' ≤ e := by
    intro e e' scale scale'
    rcases scale'.least with rfl | least
    · exact Nat.zero_le e
    · apply Nat.le_of_not_lt
      intro less
      have power : 2 ^ e ≤ 2 ^ (e' - 1) := Nat.pow_le_pow_right (by decide) (by omega)
      have := Nat.mul_le_mul_left (2 ^ 53) (Nat.mul_le_mul_left den power)
      have := scale.enough
      omega
  exact Nat.le_antisymm (le scale' scale) (le scale scale')

theorem isScale_scaleOf {num den : Nat} (some : num ≠ 0) (pos : den ≠ 0) :
    IsScale (num * 2 ^ 1074) den (scaleOf num den) := by
  have numLow := Nat.log2_self_le some
  have numHigh := @Nat.lt_log2_self num
  have denLow := Nat.log2_self_le pos
  have denHigh := @Nat.lt_log2_self den
  simp only [scaleOf, unitsIn_eq, Nat.pow_eq]
  generalize 1074 = unit
  generalize guessed : num.log2 + unit - den.log2 - 53 = guess
  -- The guess is right or one too small.
  have enough : num * 2 ^ unit < 2 ^ 54 * (den * 2 ^ guess) := by
    calc num * 2 ^ unit < 2 ^ (num.log2 + 1) * 2 ^ unit :=
      Nat.mul_lt_mul_of_pos_right numHigh (Nat.two_pow_pos unit)
      _ = 2 ^ (num.log2 + 1 + unit) := by rw [← Nat.pow_add]
      _ ≤ 2 ^ (54 + (den.log2 + guess)) := Nat.pow_le_pow_right (by decide) (by omega)
      _ = 2 ^ 54 * (2 ^ den.log2 * 2 ^ guess) := by rw [Nat.pow_add, Nat.pow_add]
      _ ≤ 2 ^ 54 * (den * 2 ^ guess) := Nat.mul_le_mul_left _ (Nat.mul_le_mul_right _ denLow)
  have least : guess = 0 ∨ 2 ^ 52 * (den * 2 ^ guess) ≤ num * 2 ^ unit := by
    by_cases zero : guess = 0
    · exact Or.inl zero
    · refine Or.inr ?_
      calc 2 ^ 52 * (den * 2 ^ guess) ≤ 2 ^ 52 * (2 ^ (den.log2 + 1) * 2 ^ guess) :=
            Nat.mul_le_mul_left _ (Nat.mul_le_mul_right _ (Nat.le_of_lt denHigh))
        _ = 2 ^ (num.log2 + unit) := by
            rw [← Nat.pow_add, ← Nat.pow_add]
            congr 1
            omega
        _ = 2 ^ num.log2 * 2 ^ unit := Nat.pow_add 2 _ _
        _ ≤ num * 2 ^ unit := Nat.mul_le_mul_right _ numLow
  have unitPos : 0 < den * 2 ^ guess := Nat.mul_pos (Nat.pos_of_ne_zero pos) (Nat.two_pow_pos _)
  split
  · rename_i fits
    refine ⟨(Nat.div_lt_iff_lt_mul unitPos).mp fits, ?_⟩
    rcases least with zero | least
    · exact Or.inl zero
    · by_cases zero : guess = 0
      · exact Or.inl zero
      · refine Or.inr ?_
        have whole : 2 ^ guess = 2 * 2 ^ (guess - 1) := by
          rw [← Nat.pow_succ']
          congr 1
          omega
        rw [whole] at least
        calc 2 ^ 53 * (den * 2 ^ (guess - 1)) = 2 ^ 52 * (den * (2 * 2 ^ (guess - 1))) := by ring
          _ ≤ num * 2 ^ unit := least
  · rename_i large
    refine ⟨?_, Or.inr ?_⟩
    · calc num * 2 ^ unit < 2 ^ 54 * (den * 2 ^ guess) := enough
        _ = 2 ^ 53 * (den * 2 ^ (guess + 1)) := by ring
    · rw [Nat.add_sub_cancel]
      exact (Nat.le_div_iff_mul_le unitPos).mp (Nat.le_of_not_lt large)

theorem scaleOf_eq {num den e : Nat} (some : num ≠ 0) (pos : den ≠ 0)
    (scale : IsScale (num * 2 ^ 1074) den e) :
    scaleOf num den = e :=
  (isScale_scaleOf some pos).unique scale

theorem nearest_tiny {num den : Nat} (pos : den ≠ 0) (tiny : 2 * (num * 2 ^ 1074) ≤ den) :
    nearest num den = 0 := by
  by_cases some : num = 0
  · simp only [nearest, if_pos some]
  · have scale : IsScale (num * 2 ^ 1074) den 0 := by
      generalize num * 2 ^ 1074 = units at tiny ⊢
      exact ⟨by omega, Or.inl rfl⟩
    have none : roundDiv (num * 2 ^ 1074) den = 0 := by
      generalize num * 2 ^ 1074 = units at tiny ⊢
      exact roundDiv_eq (Nat.pos_of_ne_zero pos) (by omega) (by omega) (fun _ => rfl)
    rw [nearest_eq some, scaleOf_eq some pos scale, Nat.pow_zero, Nat.mul_one, none]
    exact Nat.min_zero _

/-- A ratio beyond the largest number is rounded to infinity. -/
theorem nearest_huge {num den : Nat} (pos : den ≠ 0) (huge : den * 2 ^ 1024 ≤ num) :
    nearest num den = infiniteMagnitude := by
  generalize limitExponent : 1024 = limit at huge
  have some : num ≠ 0 := by
    have := Nat.mul_pos (Nat.pos_of_ne_zero pos) (Nat.two_pow_pos limit)
    omega
  have scale := isScale_scaleOf some pos
  rw [nearest_eq some]
  apply Nat.min_eq_left
  generalize scaleOf num den = e at scale ⊢
  generalize unitExponent : 1074 = unit at scale ⊢
  have unitPos : 0 < den * 2 ^ e := Nat.mul_pos (Nat.pos_of_ne_zero pos) (Nat.two_pow_pos e)
  have large : 2046 ≤ e := by
    apply Nat.le_of_not_lt
    intro less
    have : 2 ^ 53 * (den * 2 ^ e) ≤ num * 2 ^ unit := by
      calc 2 ^ 53 * (den * 2 ^ e) = den * 2 ^ (53 + e) := by rw [Nat.pow_add, Nat.mul_left_comm]
        _ ≤ den * 2 ^ (limit + unit) :=
          Nat.mul_le_mul_left _ (Nat.pow_le_pow_right (by decide) (by omega))
        _ = den * 2 ^ limit * 2 ^ unit := by rw [Nat.pow_add, Nat.mul_assoc]
        _ ≤ num * 2 ^ unit := Nat.mul_le_mul_right _ huge
    exact Nat.not_le_of_lt scale.enough this
  have quotient : 2 ^ 52 ≤ num * 2 ^ unit / (den * 2 ^ e) := by
    rw [Nat.le_div_iff_mul_le unitPos]
    rcases scale.least with zero | least
    · omega
    · obtain ⟨k, rfl⟩ : ∃ k, e = k + 1 := ⟨e - 1, by omega⟩
      calc 2 ^ 52 * (den * 2 ^ (k + 1)) = 2 ^ 53 * (den * 2 ^ k) := by ring
        _ ≤ num * 2 ^ unit := least
  have := div_le_roundDiv (num * 2 ^ unit) (den * 2 ^ e)
  simp only [infiniteMagnitude, Nat.pow_eq]
  omega

section Parts

variable (x : Number)

theorem scale_significand : x.scale * 2 ^ 52 + x.significand = x.magnitude := by
  simp only [scale, significand, Nat.pow_eq]
  split
  · omega
  · have := Nat.div_add_mod x.magnitude (2 ^ 52)
    omega

theorem significand_lt : x.significand < 2 ^ 53 := by
  simp only [significand, Nat.pow_eq]
  split
  · omega
  · have := Nat.mod_lt x.magnitude (show 0 < 2 ^ 52 by decide)
    omega

theorem significand_large : x.scale = 0 ∨ 2 ^ 52 ≤ x.significand := by
  simp only [scale, significand, Nat.pow_eq]
  split
  · exact Or.inl rfl
  · exact Or.inr (Nat.le_add_right _ _)

theorem significand_pos {x : Number} (some : x.magnitude ≠ 0) : 0 < x.significand := by
  rcases x.significand_large with zero | large
  · have := x.scale_significand
    rw [zero] at this
    omega
  · omega

theorem ofMagnitude_magnitude : ofMagnitude x.isNegative x.magnitude = x := by
  have range := x.bits.toNat_lt
  obtain ⟨bits⟩ := x
  simp only [ofMagnitude, isNegative, magnitude, Number.mk.injEq, Nat.pow_eq] at range ⊢
  apply UInt64.toNat_inj.mp
  simp only [Nat.toUInt64, UInt64.toNat_ofNat', decide_eq_true_eq]
  split <;> omega

theorem magnitude_ofMagnitude {m : Nat} (small : m < 2 ^ 63) (negative : Bool) :
    (ofMagnitude negative m).magnitude = m := by
  simp only [ofMagnitude, magnitude, Nat.pow_eq, Nat.toUInt64, UInt64.toNat_ofNat']
  split <;> omega

end Parts

theorem nearest_le (num den : Nat) : nearest num den ≤ infiniteMagnitude := by
  unfold nearest
  split
  · exact Nat.zero_le _
  · exact Nat.min_le_left _ _

theorem ofRatio_not_nan (negative : Bool) (num den : Nat) :
    (ofRatio negative num den).isNaN = false := by
  have bound := nearest_le num den
  have small : nearest num den < 2 ^ 63 := Nat.lt_of_le_of_lt bound (by decide)
  rw [isNaN, ofRatio, magnitude_ofMagnitude small]
  exact decide_eq_false (Nat.not_lt.mpr bound)

/-- A ratio, in units of `2 ^ -1074`, in the rounding interval of a number: at most a half of a unit
in the last place away, or only a quarter of one below a power of two; and not so far if the last
bit is one. -/
structure Rounds (x : Number) (units den : Nat) : Prop where
  low : (4 * x.significand - if x.significand = 2 ^ 52 ∧ 0 < x.scale then 1 else 2) *
    (den * 2 ^ x.scale) ≤ 4 * units
  high : 4 * units ≤ (4 * x.significand + 2) * (den * 2 ^ x.scale)
  odd : x.significand % 2 = 1 →
    (4 * x.significand - 2) * (den * 2 ^ x.scale) < 4 * units ∧
      4 * units < (4 * x.significand + 2) * (den * 2 ^ x.scale)

theorem unit_double (den : Nat) {e : Nat} (some : 0 < e) :
    den * 2 ^ e = 2 * (den * 2 ^ (e - 1)) := by
  obtain ⟨e, rfl⟩ : ∃ k, e = k + 1 := ⟨e - 1, by omega⟩
  rw [Nat.add_sub_cancel, Nat.pow_succ]
  ring

namespace Rounds

variable {x : Number} {units den : Nat}

/-- A ratio with the scale of the number has its significand for quotient. -/
theorem same_scale (nonzero : x.magnitude ≠ 0) (pos : den ≠ 0) (rounds : Rounds x units den)
    (normal : x.scale = 0 ∨ 2 ^ 52 * (den * 2 ^ x.scale) ≤ units) :
    IsScale units den x.scale ∧ roundDiv units (den * 2 ^ x.scale) = x.significand := by
  have bits := x.significand_lt
  have positive := significand_pos nonzero
  obtain ⟨low, high, odd⟩ := rounds
  generalize x.significand = m at *
  generalize x.scale = s at *
  have unit : 0 < den * 2 ^ s := Nat.mul_pos (Nat.pos_of_ne_zero pos) (Nat.two_pow_pos s)
  have below : (4 * m - 2) * (den * 2 ^ s) ≤ 4 * units := by
    refine Nat.le_trans (Nat.mul_le_mul_right _ ?_) low
    split <;> omega
  have product : (4 * m - 2) * (den * 2 ^ s) = 4 * (m * (den * 2 ^ s)) - 2 * (den * 2 ^ s) := by
    rw [Nat.sub_mul, Nat.mul_assoc]
  have product' : (4 * m + 2) * (den * 2 ^ s) = 4 * (m * (den * 2 ^ s)) + 2 * (den * 2 ^ s) := by
    rw [Nat.add_mul, Nat.mul_assoc]
  have most : m * (den * 2 ^ s) ≤ (2 ^ 53 - 1) * (den * 2 ^ s) := Nat.mul_le_mul_right _ (by omega)
  refine ⟨⟨by omega, ?_⟩, roundDiv_eq unit ?_ ?_ ?_⟩
  · by_cases zero : s = 0
    · exact Or.inl zero
    · have := unit_double den (Nat.pos_of_ne_zero zero)
      exact Or.inr (by omega)
  · omega
  · omega
  · intro tie
    by_contra isOdd
    have := odd (by omega)
    omega

/-- A ratio with a smaller scale is just below the number, which is a power of two: rounding carries
into the scale. -/
theorem smaller_scale (pos : den ≠ 0) (rounds : Rounds x units den) (some : 0 < x.scale)
    (less : units < 2 ^ 52 * (den * 2 ^ x.scale)) :
    x.significand = 2 ^ 52 ∧ IsScale units den (x.scale - 1) ∧
      roundDiv units (den * 2 ^ (x.scale - 1)) = 2 ^ 53 := by
  have large := x.significand_large
  obtain ⟨low, high, -⟩ := rounds
  generalize x.significand = m at *
  generalize x.scale = s at *
  have unit : 0 < den * 2 ^ (s - 1) :=
    Nat.mul_pos (Nat.pos_of_ne_zero pos) (Nat.two_pow_pos (s - 1))
  have twice := unit_double den some
  have power : m = 2 ^ 52 := by
    by_contra other
    have more : 2 ^ 54 * (den * 2 ^ s) ≤
        (4 * m - if m = 2 ^ 52 ∧ 0 < s then 1 else 2) * (den * 2 ^ s) := by
      apply Nat.mul_le_mul_right
      split <;> omega
    omega
  subst power
  simp only [some, and_self, if_true] at low
  refine ⟨rfl, ⟨by omega, ?_⟩, roundDiv_eq unit ?_ ?_ fun _ => by decide⟩
  · by_cases zero : s - 1 = 0
    · exact Or.inl zero
    · have := unit_double den (Nat.pos_of_ne_zero zero)
      exact Or.inr (by omega)
  · omega
  · omega

theorem scale (nonzero : x.magnitude ≠ 0) (pos : den ≠ 0) (rounds : Rounds x units den) :
    ∃ e, IsScale units den e ∧ e * 2 ^ 52 + roundDiv units (den * 2 ^ e) = x.magnitude := by
  have whole := x.scale_significand
  by_cases normal : x.scale = 0 ∨ 2 ^ 52 * (den * 2 ^ x.scale) ≤ units
  · obtain ⟨isScale, quotient⟩ := rounds.same_scale nonzero pos normal
    exact ⟨x.scale, isScale, by rw [quotient, whole]⟩
  · simp only [not_or, Nat.not_le] at normal
    have some := Nat.pos_of_ne_zero normal.1
    obtain ⟨power, isScale, quotient⟩ := rounds.smaller_scale pos some normal.2
    refine ⟨x.scale - 1, isScale, ?_⟩
    rw [quotient, ← whole, power]
    obtain ⟨k, same⟩ : ∃ k, x.scale = k + 1 := ⟨x.scale - 1, by omega⟩
    rw [same, Nat.add_sub_cancel, Nat.succ_mul, Nat.add_assoc, ← Nat.two_mul, ← Nat.pow_succ']

end Rounds

theorem nearest_of_rounds {x : Number} (nonzero : x.magnitude ≠ 0)
    (finite : x.magnitude < infiniteMagnitude) {num den : Nat} (some : num ≠ 0) (pos : den ≠ 0)
    (rounds : Rounds x (num * 2 ^ 1074) den) :
    nearest num den = x.magnitude := by
  obtain ⟨e, scale, same⟩ := rounds.scale nonzero pos
  rw [nearest_eq some, scaleOf_eq some pos scale, same]
  exact Nat.min_eq_right (Nat.le_of_lt finite)

theorem nearest_le_magnitude {x : Number} {num den : Nat} (pos : den ≠ 0)
    (le : num * 2 ^ 1074 ≤ x.significand * (den * 2 ^ x.scale)) :
    nearest num den ≤ x.magnitude := by
  by_cases some : num = 0
  · simp [nearest, some]
  · have bits := x.significand_lt
    have large := x.significand_large
    have scale := isScale_scaleOf some pos
    rw [nearest_eq some, ← x.scale_significand]
    refine Nat.le_trans (Nat.min_le_right _ _) ?_
    generalize scaleOf num den = e at scale ⊢
    generalize num * 2 ^ 1074 = units at le scale ⊢
    generalize x.significand = m at *
    generalize x.scale = s at *
    have unit : ∀ k, 0 < den * 2 ^ k :=
      fun k => Nat.mul_pos (Nat.pos_of_ne_zero pos) (Nat.two_pow_pos k)
    rcases Nat.lt_trichotomy e s with less | rfl | more
    · have most : roundDiv units (den * 2 ^ e) ≤ 2 ^ 53 :=
        roundDiv_le (unit e) (Nat.le_of_lt scale.enough)
      omega
    · exact Nat.add_le_add_left (roundDiv_le (unit e) le) _
    · -- With a larger scale the ratio would be larger than the number.
      have least : 2 ^ 53 * (den * 2 ^ (e - 1)) ≤ units := by
        rcases scale.least with zero | least
        · omega
        · exact least
      have power : 2 ^ s ≤ 2 ^ (e - 1) := Nat.pow_le_pow_right (by decide) (by omega)
      have : m * (den * 2 ^ s) < 2 ^ 53 * (den * 2 ^ s) := Nat.mul_lt_mul_of_pos_right bits (unit s)
      have : 2 ^ 53 * (den * 2 ^ s) ≤ 2 ^ 53 * (den * 2 ^ (e - 1)) :=
        Nat.mul_le_mul_left _ (Nat.mul_le_mul_left den power)
      omega

theorem floor_le (x : Number) : x.floor * 2 ^ 1074 ≤ x.significand * 2 ^ x.scale := by
  simp only [floor, Nat.pow_eq]
  split
  · rename_i small
    have whole : 2 ^ 1074 = 2 ^ (1074 - x.scale) * 2 ^ x.scale := by
      rw [← Nat.pow_add, Nat.sub_add_cancel small]
    rw [whole, ← Nat.mul_assoc]
    exact Nat.mul_le_mul_right _ (Nat.div_mul_le_self _ _)
  · rename_i large
    rw [Nat.mul_assoc, ← Nat.pow_add, Nat.sub_add_cancel (by omega)]

theorem rank_ofNat (n : Nat) : (ofNat n).rank = nearest n 1 := by
  have small : nearest n 1 < 2 ^ 63 := Nat.lt_of_le_of_lt (nearest_le n 1) (by decide)
  have positive : (ofNat n).isNegative = false := by
    simp only [ofNat, ofRatio, isNegative, ofMagnitude, Nat.pow_eq, Nat.toUInt64,
      UInt64.toNat_ofNat']
    generalize nearest n 1 = k at small
    simp
    omega
  simp only [rank, positive, Bool.false_eq_true, if_false]
  rw [ofNat, ofRatio, magnitude_ofMagnitude small]

theorem floor_lt {x : Number} {n : Nat} (real : x.isNaN = false)
    (positive : x.less (ofNat 0) = false) (below : (ofNat n).lessOrEqual x = false) :
    x.floor < n := by
  by_contra large
  have units : n * 2 ^ 1074 ≤ x.significand * (1 * 2 ^ x.scale) := by
    rw [Nat.one_mul]
    exact Nat.le_trans (Nat.mul_le_mul_right _ (Nat.le_of_not_lt large)) x.floor_le
  have rounded := nearest_le_magnitude (by decide) units
  have number : ∀ k, (ofNat k).isNaN = false := fun k => ofRatio_not_nan false k 1
  simp only [less, lessOrEqual, number, real, rank_ofNat, Bool.not_false, Bool.and_self,
    Bool.true_and, decide_eq_false_iff_not, Int.not_lt, Int.not_le] at positive below
  simp only [nearest, if_true, Nat.cast_zero] at positive
  cases sign : x.isNegative with
  | true =>
    simp only [rank, sign, if_true] at positive below
    omega
  | false =>
    simp only [rank, sign, Bool.false_eq_true, if_false] at below
    omega

end Number
end CallScript
