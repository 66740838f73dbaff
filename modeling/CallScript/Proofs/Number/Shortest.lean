import CallScript.Number.Printer
import CallScript.Proofs.Number.Nearest

/- The shortest decimal of a number is rounded to that number again. A candidate is taken only if it
   lies in the rounding interval, and seventeen digits always suffice: their unit is smaller than
   the interval, because the number of digits before the point is not overestimated. -/
namespace CallScript

namespace RoundingInterval

theorem contains_iff (r : RoundingInterval) (d : Decimal) : r.contains d = true ↔
    (r.low * 10 ^ (-d.exponent).toNat ≤ d.digits * 10 ^ d.exponent.toNat * r.den ∧
      d.digits * 10 ^ d.exponent.toNat * r.den ≤ r.high * 10 ^ (-d.exponent).toNat) ∧
    (r.closed = false →
      r.low * 10 ^ (-d.exponent).toNat < d.digits * 10 ^ d.exponent.toNat * r.den ∧
      d.digits * 10 ^ d.exponent.toNat * r.den < r.high * 10 ^ (-d.exponent).toNat) := by
  unfold contains powers
  cases r.closed with
  | true => simp
  | false =>
    simp only [Bool.false_eq_true, if_false, Bool.and_eq_true, decide_eq_true_eq, forall_const]
    exact ⟨fun inside => ⟨⟨Nat.le_of_lt inside.1, Nat.le_of_lt inside.2⟩, inside⟩,
      fun inside => inside.2⟩

theorem contains_of_lt {r : RoundingInterval} {d : Decimal}
    (low : r.low * 10 ^ (-d.exponent).toNat < d.digits * 10 ^ d.exponent.toNat * r.den)
    (high : d.digits * 10 ^ d.exponent.toNat * r.den < r.high * 10 ^ (-d.exponent).toNat) :
    r.contains d = true :=
  (contains_iff r d).mpr ⟨⟨Nat.le_of_lt low, Nat.le_of_lt high⟩, fun _ => ⟨low, high⟩⟩

theorem contains_strip (r : RoundingInterval) {digits : Nat} (exponent : Int)
    (zero : digits % 10 = 0) :
    r.contains ⟨digits / 10, exponent + 1⟩ = r.contains ⟨digits, exponent⟩ := by
  obtain ⟨tens, rfl⟩ : ∃ tens, digits = 10 * tens := ⟨digits / 10, by omega⟩
  rw [Nat.mul_div_cancel_left tens (by decide), Bool.eq_iff_iff, contains_iff, contains_iff]
  dsimp only
  by_cases whole : 0 ≤ exponent
  · have up : (exponent + 1).toNat = exponent.toNat + 1 := by omega
    have down : (-(exponent + 1)).toNat = (-exponent).toNat := by omega
    have same : tens * 10 ^ (exponent.toNat + 1) = 10 * tens * 10 ^ exponent.toNat := by ring
    rw [up, down, same]
  · have up : (exponent + 1).toNat = 0 ∧ exponent.toNat = 0 := by omega
    have down : (-exponent).toNat = (-(exponent + 1)).toNat + 1 := by omega
    rw [up.1, up.2, down]
    generalize (-(exponent + 1)).toNat = k
    have scaled : 10 * tens * 10 ^ 0 * r.den = tens * 10 ^ 0 * r.den * 10 := by ring
    have scale : ∀ a, a * 10 ^ (k + 1) = a * 10 ^ k * 10 := fun a => by ring
    rw [scaled, scale, scale]
    simp only [Nat.mul_le_mul_right_iff (show 0 < 10 by decide),
      Nat.mul_lt_mul_right (show 0 < 10 by decide)]

section Interval

variable {x : Number}

theorem rounds_of_contains {d : Decimal} (inside : (ofNumber x).contains d = true) :
    x.Rounds (d.digits * 10 ^ d.exponent.toNat * 2 ^ 1074) (10 ^ (-d.exponent).toNat) := by
  rw [contains_iff] at inside
  generalize 10 ^ d.exponent.toNat = up at *
  generalize 10 ^ (-d.exponent).toNat = down at *
  simp only [ofNumber, Nat.pow_eq, Bool.and_eq_true, decide_eq_true_eq,
    decide_eq_false_iff_not] at inside
  -- Both sides of the comparisons are put over the least unit.
  obtain ⟨k, pos, factor, unit⟩ :
      ∃ k, 0 < k ∧ 2 ^ (x.scale - 1074) * k = 2 ^ x.scale ∧
        2 ^ (1074 - x.scale) * k = 2 ^ 1074 := by
    refine ⟨2 ^ min x.scale 1074, Nat.two_pow_pos _, ?_, ?_⟩
    · rw [← Nat.pow_add]
      congr 1
      omega
    · rw [← Nat.pow_add]
      congr 1
      omega
  generalize 2 ^ (x.scale - 1074) = f at *
  generalize 2 ^ (1074 - x.scale) = g at *
  have bound : ∀ a, a * (down * 2 ^ x.scale) = a * f * down * k := by
    intro a
    rw [← factor]
    ring
  have here : 4 * (d.digits * up * 2 ^ 1074) = d.digits * up * (4 * g) * k := by
    rw [← unit]
    ring
  obtain ⟨⟨low, high⟩, strict⟩ := inside
  refine ⟨?_, ?_, fun odd => ?_⟩
  · rw [bound, here]
    exact Nat.mul_le_mul_right k low
  · rw [bound, here]
    exact Nat.mul_le_mul_right k high
  · obtain ⟨above, below⟩ := strict (by omega)
    rw [bound, bound, here]
    refine ⟨(Nat.mul_lt_mul_right pos).mpr ?_, (Nat.mul_lt_mul_right pos).mpr below⟩
    rwa [if_neg fun power => by omega] at above

/-- The estimate of a logarithm, less two, is no overestimate. -/
theorem ten_pow_le_two_pow {v d : Nat} {guess : Int}
    (low : 100000 * guess ≤ 30103 * ((v : Int) - d)) (large : v ≤ d + 1900) (small : d ≤ v + 1500) :
    10 ^ (guess - 2).toNat * 2 ^ d ≤ 2 ^ v * 10 ^ (2 - guess).toNat := by
  rcases Nat.le_total d v with above | below
  · -- Here 1000 ≤ 1024 is exact enough.
    obtain ⟨c, rfl⟩ := Nat.exists_eq_add_of_le above
    have power : 10 ^ (guess - 2).toNat ≤ 2 ^ c := by
      rw [← Nat.pow_le_pow_iff_left (show 10 ≠ 0 by decide), ← Nat.pow_mul, ← Nat.pow_mul,
        Nat.mul_comm c, Nat.pow_mul 2]
      calc 10 ^ ((guess - 2).toNat * 10) ≤ 10 ^ (3 * c) :=
        Nat.pow_le_pow_right (by decide) (by omega)
        _ = (10 ^ 3) ^ c := Nat.pow_mul 10 3 c
        _ ≤ (2 ^ 10) ^ c := Nat.pow_le_pow_left (by decide) c
    calc 10 ^ (guess - 2).toNat * 2 ^ d ≤ 2 ^ c * 2 ^ d := Nat.mul_le_mul_right _ power
      _ = 2 ^ (d + c) := by rw [Nat.mul_comm, ← Nat.pow_add]
      _ ≤ 2 ^ (d + c) * 10 ^ (2 - guess).toNat :=
        Nat.le_mul_of_pos_right _ (Nat.pow_pos (by decide))
  · obtain ⟨c, rfl⟩ := Nat.exists_eq_add_of_le below
    have power : 2 ^ c ≤ 10 ^ (2 - guess).toNat := by
      rw [← Nat.pow_le_pow_iff_left (show 43 ≠ 0 by decide), ← Nat.pow_mul, ← Nat.pow_mul,
        Nat.mul_comm c, Nat.pow_mul 2]
      calc (2 ^ 43) ^ c ≤ (10 ^ 13) ^ c := Nat.pow_le_pow_left (by decide) c
        _ = 10 ^ (13 * c) := (Nat.pow_mul 10 13 c).symm
        _ ≤ 10 ^ ((2 - guess).toNat * 43) := Nat.pow_le_pow_right (by decide) (by omega)
    rw [show (guess - 2).toNat = 0 by omega, Nat.pow_zero, Nat.one_mul, Nat.pow_add]
    exact Nat.mul_le_mul_left _ power

theorem isBelowPower_iff (r : RoundingInterval) (e : Int) :
    r.isBelowPower e = true ↔ r.value * 10 ^ (-e).toNat < 10 ^ e.toNat * r.den := by
  simp only [isBelowPower, powers]
  exact decide_eq_true_iff

theorem not_below_found {r : RoundingInterval}
    (below : ¬ r.isBelowPower (((r.value.log2 : Int) - r.den.log2) * 30103 / 100000 - 2) = true) :
    ¬ r.isBelowPower (r.magnitude - 1) = true := by
  unfold magnitude
  generalize ((r.value.log2 : Int) - r.den.log2) * 30103 / 100000 = guess at below
  dsimp only
  by_cases first : r.isBelowPower (guess - 1) = true
  · simpa [first, show guess - 1 - 1 = guess - 2 by omega] using below
  by_cases second : r.isBelowPower guess = true
  · simp [first, second]
  by_cases third : r.isBelowPower (guess + 1) = true
  · simp [first, second, third]
  by_cases fourth : r.isBelowPower (guess + 2) = true
  · simp [first, second, third, fourth, show guess + 2 - 1 = guess + 1 by omega]
  · simp [first, second, third, fourth, show guess + 3 - 1 = guess + 2 by omega]

theorem not_below_magnitude (nonzero : x.magnitude ≠ 0)
    (finite : x.magnitude < Number.infiniteMagnitude) :
    10 ^ ((ofNumber x).magnitude - 1).toNat * (ofNumber x).den ≤
      (ofNumber x).value * 10 ^ (-((ofNumber x).magnitude - 1)).toNat := by
  have den : (ofNumber x).den = 2 ^ (2 + (1074 - x.scale)) := (Nat.pow_add 2 2 _).symm
  have some : (ofNumber x).value ≠ 0 := by
    have := Number.significand_pos nonzero
    exact Nat.mul_ne_zero (by omega) (Nat.pos_iff_ne_zero.mp (Nat.two_pow_pos _))
  have small : x.scale ≤ 2045 := by
    have whole := x.scale_significand
    have large := x.significand_large
    simp only [Number.infiniteMagnitude, Nat.pow_eq] at finite
    omega
  have most : (ofNumber x).value.log2 < 55 + (x.scale - 1074) := by
    rw [Nat.log2_lt some, Nat.pow_add]
    apply Nat.mul_lt_mul_of_pos_right _ (Nat.two_pow_pos _)
    have := x.significand_lt
    omega
  have least := Nat.log2_self_le some
  have below : ¬ (ofNumber x).isBelowPower
      ((((ofNumber x).value.log2 : Int) - (ofNumber x).den.log2) * 30103 / 100000 - 2) = true := by
    rw [isBelowPower_iff, Nat.not_lt, den, Nat.log2_two_pow]
    generalize estimate : (((ofNumber x).value.log2 : Int) - _) * 30103 / 100000 = guess
    rw [show -(guess - 2) = 2 - guess by omega]
    refine Nat.le_trans ?_ (Nat.mul_le_mul_right _ least)
    exact ten_pow_le_two_pow (by omega) (by omega) (by omega)
  suffices ¬ (ofNumber x).isBelowPower ((ofNumber x).magnitude - 1) = true by
    rwa [isBelowPower_iff, Nat.not_lt] at this
  exact not_below_found below

theorem units_le_value (nonzero : x.magnitude ≠ 0)
    (finite : x.magnitude < Number.infiniteMagnitude) :
    10 ^ 16 * (10 ^ ((ofNumber x).magnitude - 17).toNat * (ofNumber x).den) ≤
      (ofNumber x).value * 10 ^ (-((ofNumber x).magnitude - 17)).toNat := by
  have least := not_below_magnitude nonzero finite
  generalize (ofNumber x).magnitude = k at *
  have cancel : 0 < 10 ^ (-(k - 1)).toNat := Nat.pow_pos (by decide)
  rw [← Nat.mul_le_mul_right_iff cancel]
  have powers : 10 ^ 16 * 10 ^ (k - 17).toNat * 10 ^ (-(k - 1)).toNat =
      10 ^ (k - 1).toNat * 10 ^ (-(k - 17)).toNat := by
    rw [← Nat.pow_add, ← Nat.pow_add, ← Nat.pow_add]
    congr 1
    omega
  calc 10 ^ 16 * (10 ^ (k - 17).toNat * (ofNumber x).den) * 10 ^ (-(k - 1)).toNat
      = 10 ^ 16 * 10 ^ (k - 17).toNat * 10 ^ (-(k - 1)).toNat * (ofNumber x).den := by ring
    _ = 10 ^ (k - 1).toNat * (ofNumber x).den * 10 ^ (-(k - 17)).toNat := by rw [powers]; ring
    _ ≤ (ofNumber x).value * 10 ^ (-(k - 1)).toNat * 10 ^ (-(k - 17)).toNat :=
      Nat.mul_le_mul_right _ least
    _ = (ofNumber x).value * 10 ^ (-(k - 17)).toNat * 10 ^ (-(k - 1)).toNat := by ring

/-- The interval around the value is wider than a unit of the seventeenth digit. -/
theorem unit_narrow (nonzero : x.magnitude ≠ 0) (finite : x.magnitude < Number.infiniteMagnitude) :
    let up := 10 ^ ((ofNumber x).magnitude - 17).toNat
    let down := 10 ^ (-((ofNumber x).magnitude - 17)).toNat
    (ofNumber x).low * down < (ofNumber x).value * down ∧
      (ofNumber x).value * down < (ofNumber x).high * down ∧
      up * (ofNumber x).den < (ofNumber x).high * down - (ofNumber x).low * down := by
  intro up down
  have units : 10 ^ 16 * (up * (ofNumber x).den) ≤ (ofNumber x).value * down :=
    units_le_value nonzero finite
  have pos : 0 < 2 ^ (x.scale - 1074) * down :=
    Nat.mul_pos (Nat.two_pow_pos _) (Nat.pow_pos (by decide))
  have some := Number.significand_pos nonzero
  have bits := x.significand_lt
  generalize up * (ofNumber x).den = unit at units ⊢
  simp only [ofNumber, Nat.pow_eq, Bool.and_eq_true, decide_eq_true_eq, Nat.mul_assoc] at units ⊢
  generalize 2 ^ (x.scale - 1074) * down = q at *
  generalize x.significand = m at *
  have most : m * q ≤ (2 ^ 53 - 1) * q := Nat.mul_le_mul_right q (by omega)
  have least : q ≤ m * q := Nat.le_mul_of_pos_left q some
  rw [Nat.add_mul, Nat.sub_mul, Nat.mul_assoc]
  split
  · rename_i power
    rw [power.1] at units least ⊢
    omega
  · omega

theorem multiple_inside {low value high unit : Nat} (pos : 0 < unit) (above : low < value)
    (below : value < high) (narrow : unit < high - low) :
    (low < value / unit * unit ∧ value / unit * unit < high) ∨
      (low < (value / unit + 1) * unit ∧ (value / unit + 1) * unit < high) := by
  have under := Nat.div_mul_le_self value unit
  have beyond : value < (value / unit + 1) * unit := Nat.lt_mul_of_div_lt (Nat.lt_succ_self _) pos
  rw [Nat.succ_mul] at beyond ⊢
  omega

theorem contains_of_candidate {r : RoundingInterval} {count : Nat} {d : Decimal}
    (found : r.candidate? count = some d) :
    r.contains d = true := by
  unfold candidate? at found
  dsimp only at found
  split at found
  · rename_i low high
    split at found
    · rw [← Option.some.inj found]
      exact low
    · rw [← Option.some.inj found]
      exact high
  · rename_i low _
    rw [← Option.some.inj found]
    exact low
  · rename_i _ high
    rw [← Option.some.inj found]
    exact high
  · cases found

theorem candidate?_none {r : RoundingInterval} {count : Nat} (none : r.candidate? count = none) :
    let exponent := r.magnitude - count
    let under := r.value * 10 ^ (-exponent).toNat / (10 ^ exponent.toNat * r.den)
    r.contains ⟨under, exponent⟩ = false ∧ r.contains ⟨under + 1, exponent⟩ = false := by
  unfold candidate? at none
  dsimp only at none
  split at none
  · split at none <;> cases none
  · cases none
  · cases none
  · rename_i low high
    exact ⟨low, high⟩

theorem candidate?_seventeen (nonzero : x.magnitude ≠ 0)
    (finite : x.magnitude < Number.infiniteMagnitude) :
    (ofNumber x).candidate? 17 ≠ none := by
  intro none
  obtain ⟨noLow, noHigh⟩ := candidate?_none none
  obtain ⟨above, below, narrow⟩ := unit_narrow nonzero finite
  have pos : 0 < 10 ^ ((ofNumber x).magnitude - 17).toNat * (ofNumber x).den :=
    Nat.mul_pos (Nat.pow_pos (by decide)) (Nat.mul_pos (by decide) (Nat.two_pow_pos _))
  simp only [Nat.cast_ofNat] at noLow noHigh
  generalize ofNumber x = r at *
  generalize r.magnitude - 17 = exponent at *
  rcases multiple_inside pos above below narrow with ⟨low, high⟩ | ⟨low, high⟩
  · rw [← Nat.mul_assoc] at low high
    have inside : r.contains ⟨_, exponent⟩ = true := contains_of_lt low high
    rw [noLow] at inside
    cases inside
  · rw [← Nat.mul_assoc] at low high
    have inside : r.contains ⟨_, exponent⟩ = true := contains_of_lt low high
    rw [noHigh] at inside
    cases inside

theorem contains_shortest (nonzero : x.magnitude ≠ 0)
    (finite : x.magnitude < Number.infiniteMagnitude) :
    (ofNumber x).contains x.shortest = true := by
  have found : ((List.range 17).findSome? fun n => (ofNumber x).candidate? (n + 1)).isSome =
      true := by
    rw [List.findSome?_isSome_iff]
    exact ⟨16, by decide, Option.isSome_iff_ne_none.mpr (candidate?_seventeen nonzero finite)⟩
  obtain ⟨d, found⟩ := Option.isSome_iff_exists.mp found
  obtain ⟨n, _, candidate⟩ := List.exists_of_findSome?_eq_some found
  have shortest : x.shortest = d := by simp [Number.shortest, found]
  rw [shortest]
  exact contains_of_candidate candidate

theorem contains_stripZeros (r : RoundingInterval) (n : Nat) (d : Decimal) :
    r.contains (d.stripZeros n) = r.contains d := by
  induction n generalizing d with
  | zero => rfl
  | succ n ih =>
    unfold Decimal.stripZeros
    split
    · rename_i zero
      simp only [Bool.and_eq_true, decide_eq_true_eq] at zero
      rw [ih, contains_strip r d.exponent zero.2]
    · rfl

end Interval

end RoundingInterval

/-- The decimal written for a number is rounded to that number. -/
theorem Number.nearest_shortest {x : Number} (nonzero : x.magnitude ≠ 0)
    (finite : x.magnitude < infiniteMagnitude) :
    let d := x.shortest.stripZeros 20
    nearest (d.digits * 10 ^ d.exponent.toNat) (10 ^ (-d.exponent).toNat) = x.magnitude := by
  intro d
  have inside : (RoundingInterval.ofNumber x).contains d = true := by
    rw [RoundingInterval.contains_stripZeros]
    exact RoundingInterval.contains_shortest nonzero finite
  have pos : 10 ^ (-d.exponent).toNat ≠ 0 := Nat.pos_iff_ne_zero.mp (Nat.pow_pos (by decide))
  apply nearest_of_rounds nonzero finite _ pos (RoundingInterval.rounds_of_contains inside)
  have low := ((RoundingInterval.contains_iff _ d).mp inside).1.1
  have some : 0 < (RoundingInterval.ofNumber x).low := by
    have := significand_pos nonzero
    apply Nat.mul_pos _ (Nat.two_pow_pos _)
    split <;> omega
  intro none
  rw [none, Nat.zero_mul] at low
  exact absurd (Nat.mul_pos some (Nat.pos_of_ne_zero pos)) (by omega)
end CallScript
