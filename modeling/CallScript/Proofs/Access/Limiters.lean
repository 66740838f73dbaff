import Mathlib.Algebra.Order.Ring.Rat
import Mathlib.Algebra.Order.Field.Basic
import Mathlib.Tactic.FieldSimp
import Mathlib.Tactic.Linarith
import CallScript.Access.Gate
import CallScript.Proofs.Number.Nearest

/- What is asked of the limiters and of the cache of a gate. A limiter is a bucket of tokens: it
   starts full, tokens flow in at the rate, a reservation takes one, and gives it back when it is
   cancelled. The cache forgets an entry when its lifetime is over, which reading does not extend.
   Nothing else is used of them. Buckets and lists of entries are such. -/
namespace CallScript

def Number.value (x : Number) : ℚ :=
  (if x.isNegative then -1 else 1) * (x.significand * 2 ^ x.scale / 2 ^ 1074)

/-- A finite number of sessions a second, more than none. -/
def Number.IsRate (x : Number) : Prop := (Number.ofNat 0).less x = true ∧ x.isInfinite = false

def seconds (span : Nat) : ℚ := span / nanosPerSecond

/-- A limiter that a gate has used, and not after this moment. -/
inductive LimiterKind.Used (L : LimiterKind) (limit : RateLimit) : L.Limiter → Nat → Prop where
  | new (now : Nat) : Used L limit (L.new limit) now
  | reserved {l : L.Limiter} {now : Nat} (used : Used L limit l now) :
    Used L limit (L.reserve l now).2 now
  | cancelled {l : L.Limiter} {now : Nat} (used : Used L limit l now) :
    Used L limit (L.cancel (L.reserve l now).1 now (L.reserve l now).2) now
  | later {l : L.Limiter} {now later : Nat} (used : Used L limit l now) (le : now ≤ later) :
    Used L limit l later

/-- A limiter with this limit is a bucket, of which `tokens` tells how many tokens there are. -/
structure TokenBucket (L : LimiterKind) (tokens : L.Limiter → Nat → ℚ) (limit : RateLimit) :
    Prop where
  full : ∀ now, tokens (L.new limit) now = limit.burst
  refills : ∀ {l now later}, L.Used limit l now → now ≤ later → tokens l later =
    min (limit.burst : ℚ) (tokens l now + limit.rate.perSecond.value * seconds (later - now))
  granted : ∀ {l now}, L.Used limit l now → L.ok (L.reserve l now).1 = decide (0 < limit.burst)
  reserves : ∀ {l now}, L.Used limit l now → 0 < limit.burst →
    tokens (L.reserve l now).2 now = tokens l now - 1
  waits : ∀ {l now}, L.Used limit l now → 0 < limit.burst →
    (0 < L.delay (L.reserve l now).1 now ↔ tokens l now < 1)
  returns : ∀ {l now}, L.Used limit l now → 0 < limit.burst →
    tokens (L.cancel (L.reserve l now).1 now (L.reserve l now).2) now =
      tokens (L.reserve l now).2 now + 1

/-- Whether an entry is remembered. It is left open what holds at the last moment. -/
def remembered (inclusive : Bool) (last now : Nat) : Bool :=
  if inclusive then now ≤ last else now < last

/-- The cache has the entries that `held` tells, each with the last moment of its life. -/
structure Expiring (C : CacheKind) (held : C.Cache → Bytes → Option (Nat × Nat))
    (inclusive : Bool) : Prop where
  empty : ∀ host, held C.empty host = none
  get : ∀ c host now, (C.get c host now).1 =
    ((held c host).filter fun e => remembered inclusive e.2 now).map Prod.fst
  read : ∀ c host now, held (C.get c host now).2 = held c
  set : ∀ c host place lifetime now,
    held (C.set c host place lifetime now) host = some (place, now + lifetime)
  other : ∀ c {host other} place lifetime now, other ≠ host →
    held (C.set c host place lifetime now) other = held c other

section Laws

variable {L : LimiterKind} {tokens : L.Limiter → Nat → ℚ} {limit : RateLimit} {l : L.Limiter}
  {now later : Nat}

theorem LimiterKind.Used.ask (used : L.Used limit l now) : L.Used limit (L.ask l now).2 now := by
  simp only [LimiterKind.ask]
  split
  · exact used.reserved
  · split
    · exact used.cancelled
    · exact used.reserved

namespace TokenBucket

variable (bucket : TokenBucket L tokens limit) (used : L.Used limit l now)
include bucket used

theorem ask_none (none : ¬0 < limit.burst) : (L.ask l now).1 = false := by
  have refused := bucket.granted used
  rw [decide_eq_false none] at refused
  simp only [LimiterKind.ask, refused, Bool.not_false, if_true]

theorem ask_some (some : 0 < limit.burst) : (L.ask l now).1 = decide (1 ≤ tokens l now) ∧
    tokens (L.ask l now).2 now + (L.ask l now).1.toNat = tokens l now := by
  have granted := bucket.granted used
  rw [decide_eq_true some] at granted
  have taken := bucket.reserves used some
  have waits := bucket.waits used some
  simp only [LimiterKind.ask, granted, Bool.not_true, Bool.false_eq_true, if_false]
  by_cases waiting : 0 < L.delay (L.reserve l now).1 now
  · have returned := bucket.returns used some
    have less : ¬1 ≤ tokens l now := not_le.mpr (waits.mp waiting)
    simp only [if_pos waiting, returned, taken, less, decide_false, Bool.toNat_false]
    exact ⟨trivial, by simp⟩
  · have enough : 1 ≤ tokens l now := not_lt.mp (mt waits.mpr waiting)
    simp only [if_neg waiting, taken, enough, decide_true, Bool.toNat_true]
    exact ⟨trivial, by simp⟩

omit used in
theorem tokens_nonneg (used : L.Used limit l now) (le : now ≤ later) (some : 0 < limit.burst)
    (flows : 0 ≤ limit.rate.perSecond.value) (nonneg : 0 ≤ tokens l now) : 0 ≤ tokens l later := by
  rw [bucket.refills used le]
  have burst : (0 : ℚ) ≤ limit.burst := by exact_mod_cast some.le
  have flow : 0 ≤ seconds (later - now) := by unfold seconds; positivity
  exact le_min burst (add_nonneg nonneg (mul_nonneg flows flow))

theorem tokens_le : tokens l now ≤ limit.burst := by
  rw [bucket.refills used le_rfl]
  exact min_le_left _ _

end TokenBucket
end Laws

theorem Number.IsRate.positive {x : Number} (rate : x.IsRate) :
    x.isNaN = false ∧ x.isNegative = false ∧ 0 < x.significand := by
  obtain ⟨above, finite⟩ := rate
  simp only [Number.less, Bool.and_eq_true, Bool.not_eq_true', decide_eq_true_eq] at above
  have zero : (Number.ofNat 0).rank = 0 := Number.rank_ofNat 0
  have positive : x.isNegative = false := by
    cases sign : x.isNegative with
    | false => rfl
    | true =>
      have below : x.rank ≤ 0 := by simp [Number.rank, sign]
      omega
  have some : x.magnitude ≠ 0 := by
    intro none
    have same : x.rank = 0 := by simp [Number.rank, positive, none]
    omega
  exact ⟨above.1.2, positive, Number.significand_pos some⟩

theorem Refill.ofRate_steady {x : Number} (rate : x.IsRate) :
    ∃ num den : Nat, Refill.ofRate ⟨x⟩ = .steady num den ∧ 0 < num ∧ 0 < den ∧
      x.value = num / den := by
  obtain ⟨real, positive, some⟩ := rate.positive
  refine ⟨x.significand * 2 ^ (x.scale - 1074), 2 ^ (1074 - x.scale), ?_,
    Nat.mul_pos some (Nat.two_pow_pos _), Nat.two_pow_pos _, ?_⟩
  · simp [ofRate, real, rate.2, positive]
  · have whole : ∀ e unit : Nat, (2 : ℚ) ^ e * 2 ^ (unit - e) = 2 ^ (e - unit) * 2 ^ unit := by
      intro e unit
      rw [← pow_add, ← pow_add]
      congr 1
      omega
    simp only [Number.value, positive, Bool.false_eq_true, if_false, one_mul, Nat.cast_mul,
      Nat.cast_pow, Nat.cast_ofNat]
    rw [div_eq_div_iff (by positivity) (by positivity), mul_assoc, whole, mul_assoc]

namespace Bucket

def tokens (b : Bucket) (now : Nat) : ℚ :=
  match b.refill with
  | .steady num den => b.levelAt num den now / token den
  | _ => 0

structure Steady (num den : Nat) (burst : Int) (b : Bucket) (now : Nat) : Prop where
  refill : b.refill = .steady num den
  capacity : b.burst = burst
  last : b.last ≤ now
  level : b.level ≤ burst * token den

variable {b : Bucket} {num den now later : Nat} {burst : Int}

theorem tokens_steady (refill : b.refill = .steady num den) (now : Nat) :
    b.tokens now = b.levelAt num den now / token den := by
  simp only [tokens, refill]

theorem levelAt_le (b : Bucket) (num den now : Nat) : b.levelAt num den now ≤ b.burst * token den :=
  min_le_right _ _

theorem Steady.levelAt_later (steady : Steady num den burst b now) (le : now ≤ later) :
    b.levelAt num den later =
      min (b.levelAt num den now + ((later - now) * num : Nat)) (burst * token den) := by
  have flow : (later - b.last) * num = (now - b.last) * num + (later - now) * num := by
    rw [← Nat.add_mul]
    congr 1
    have := steady.last
    omega
  rw [levelAt, levelAt, steady.capacity, flow]
  omega

theorem levelAt_last (last : b.last = now) (le : b.level ≤ b.burst * token den) :
    b.levelAt num den now = b.level := by
  rw [levelAt, last, Nat.sub_self, Nat.zero_mul, Int.natCast_zero, Int.add_zero, min_eq_left le]

theorem token_pos (positive : 0 < den) : 0 < token den :=
  Int.mul_pos (Int.natCast_pos.mpr positive) (by decide)

theorem Steady.mono (steady : Steady num den burst b now) (le : now ≤ later) :
    Steady num den burst b later :=
  ⟨steady.refill, steady.capacity, Nat.le_trans steady.last le, steady.level⟩

/-- A reservation that is granted leaves one token less, and it has to wait exactly if there was
less than one. -/
theorem Steady.reserve_granted (steady : Steady num den burst b now) (flows : 0 < num)
    (some : 0 < burst) :
    b.reserve now = (⟨true, now + wait num (b.levelAt num den now - token den)⟩,
      { b with level := b.levelAt num den now - token den, last := now }) := by
  have granted : (0 < b.burst && (0 ≤ b.levelAt num den now - token den || 0 < num)) = true := by
    simp [steady.capacity, some, flows]
  simp only [reserve, steady.refill, granted, if_true]

theorem Steady.reserve_refused (steady : Steady num den burst b now) (none : ¬0 < burst) :
    b.reserve now = (⟨false, now⟩, b) := by
  have refused : (0 < b.burst && (0 ≤ b.levelAt num den now - token den || 0 < num)) = false := by
    simp [steady.capacity, none]
  simp only [reserve, steady.refill, refused, Bool.false_eq_true, if_false]

theorem Steady.reserve (steady : Steady num den burst b now) (unit : 0 < token den)
    (flows : 0 < num) : Steady num den burst (b.reserve now).2 now := by
  by_cases some : 0 < burst
  · have most := b.levelAt_le num den now
    rw [steady.capacity] at most
    rw [steady.reserve_granted flows some]
    exact ⟨steady.refill, steady.capacity, Nat.le_refl _, by dsimp only; omega⟩
  · rwa [steady.reserve_refused some]

theorem Steady.cancel_eq (steady : Steady num den burst b now) : b.cancel now =
    { b with
      level := min (b.levelAt num den now + token den) (burst * token den), last := now } := by
  simp only [Bucket.cancel, steady.refill, steady.capacity]

theorem Steady.cancel (steady : Steady num den burst b now) :
    Steady num den burst (b.cancel now) now := by
  rw [steady.cancel_eq]
  exact ⟨steady.refill, steady.capacity, Nat.le_refl _, min_le_right _ _⟩

theorem wait_pos_iff (flows : 0 < num) (left : Int) : 0 < wait num left ↔ left < 0 := by
  rw [wait, Nat.div_pos_iff]
  omega

theorem steady_of_used {limit : RateLimit} (refill : Refill.ofRate limit.rate = .steady num den)
    (flows : 0 < num) (unit : 0 < token den) {l : tokenBuckets.Limiter}
    (used : tokenBuckets.Used limit l now) : Steady num den limit.burst l now := by
  induction used with
  | new now =>
    show Steady num den limit.burst (Bucket.new limit) now
    simp only [Bucket.new, refill]
    exact ⟨rfl, rfl, Nat.zero_le _, le_refl _⟩
  | reserved _ ih => exact ih.reserve unit flows
  | cancelled _ ih => exact (ih.reserve unit flows).cancel
  | later _ le ih => exact ih.mono le

theorem flow_div_token (positive : 0 < den) (num span : Nat) :
    ((span * num : Nat) : ℚ) / token den = num / den * seconds span := by
  have unit : (token den : ℚ) = den * nanosPerSecond := by simp [token]
  have ticks : (nanosPerSecond : ℚ) ≠ 0 := by simp [nanosPerSecond]
  have den0 : (den : ℚ) ≠ 0 := by exact_mod_cast positive.ne'
  rw [unit, seconds, Nat.cast_mul]
  generalize (nanosPerSecond : ℚ) = second at ticks
  field_simp

theorem Steady.tokens_last (steady : Steady num den burst b now) (last : b.last = now) :
    b.tokens now = b.level / token den := by
  rw [tokens_steady steady.refill, levelAt_last last (by rw [steady.capacity]; exact steady.level)]

theorem Steady.granted (steady : Steady num den burst b now) (flows : 0 < num) :
    (b.reserve now).1.granted = decide (0 < burst) := by
  by_cases some : 0 < burst
  · rw [steady.reserve_granted flows some, decide_eq_true some]
  · rw [steady.reserve_refused some, decide_eq_false some]

variable (unit : (0 : ℚ) < token den)
include unit

theorem tokens_new {limit : RateLimit} (refill : Refill.ofRate limit.rate = .steady num den)
    (now : Nat) :
    (Bucket.new limit).tokens now = limit.burst := by
  simp only [Bucket.new, tokens, levelAt, refill]
  rw [min_eq_right (by omega), Int.cast_mul, mul_div_cancel_right₀ _ unit.ne']

theorem Steady.tokens_later (steady : Steady num den burst b now) (le : now ≤ later)
    (positive : 0 < den) :
    b.tokens later = min (burst : ℚ) (b.tokens now + num / den * seconds (later - now)) := by
  rw [tokens_steady steady.refill, tokens_steady steady.refill, steady.levelAt_later le,
    Int.cast_min,
    ← min_div_div_right unit.le, Int.cast_mul, mul_div_cancel_right₀ _ unit.ne',
    Int.cast_add, add_div,
    Int.cast_natCast, flow_div_token positive, min_comm]

theorem Steady.tokens_cancel (steady : Steady num den burst b now) :
    (b.cancel now).tokens now = min (b.tokens now + 1) burst := by
  have back := steady.cancel
  rw [steady.cancel_eq] at back ⊢
  rw [back.tokens_last rfl, tokens_steady steady.refill, Int.cast_min, ← min_div_div_right unit.le,
    Int.cast_add, Int.cast_mul, add_div, div_self unit.ne', mul_div_cancel_right₀ _ unit.ne']

theorem Steady.tokens_reserve (steady : Steady num den burst b now) (flows : 0 < num)
    (some : 0 < burst) :
    (b.reserve now).2.tokens now = b.tokens now - 1 := by
  have after := steady.reserve (by exact_mod_cast unit) flows
  rw [steady.reserve_granted flows some] at after ⊢
  rw [after.tokens_last rfl, tokens_steady steady.refill, Int.cast_sub, sub_div, div_self unit.ne']

theorem Steady.delay_pos_iff (steady : Steady num den burst b now) (flows : 0 < num)
    (some : 0 < burst) :
    0 < ((b.reserve now).1.ready : Int) - now ↔ b.tokens now < 1 := by
  have waiting := wait_pos_iff flows (b.levelAt num den now - token den)
  rw [steady.reserve_granted flows some, tokens_steady steady.refill, div_lt_one unit, Int.cast_lt]
  dsimp only
  omega

theorem Steady.tokens_le (steady : Steady num den burst b now) : b.tokens now ≤ burst := by
  have most := b.levelAt_le num den now
  rw [steady.capacity] at most
  rw [tokens_steady steady.refill, div_le_iff₀ unit]
  exact_mod_cast most

end Bucket

theorem tokenBucket_tokenBuckets (limit : RateLimit) (rate : limit.rate.perSecond.IsRate) :
    TokenBucket tokenBuckets Bucket.tokens limit := by
  obtain ⟨num, den, refill, flows, positive, value⟩ := Refill.ofRate_steady rate
  have whole := Bucket.token_pos positive
  have unit : (0 : ℚ) < Bucket.token den := by exact_mod_cast whole
  have steady : ∀ {l now}, tokenBuckets.Used limit l now →
      Bucket.Steady num den limit.burst l now :=
    fun used => Bucket.steady_of_used refill flows whole used
  refine ⟨Bucket.tokens_new unit refill, ?_, ?_, ?_, ?_, ?_⟩
  · intro l now later used le
    rw [value]
    exact (steady used).tokens_later unit le positive
  · intro l now used
    exact (steady used).granted flows
  · intro l now used some
    exact (steady used).tokens_reserve unit flows some
  · intro l now used some
    exact (steady used).delay_pos_iff unit flows some
  · intro l now used some
    have taken := (steady used).tokens_reserve unit flows some
    have most := (steady used).tokens_le unit
    refine ((steady used.reserved).tokens_cancel unit).trans (min_eq_left ?_)
    show (Bucket.reserve l now).2.tokens now + 1 ≤ _
    rw [taken]
    linarith

theorem lookup_filter_ne {host other : Bytes} (ne : other ≠ host)
    (entries : List (Bytes × Nat × Nat)) :
    (entries.filter (·.1 ≠ host)).lookup other = entries.lookup other := by
  induction entries with
  | nil => rfl
  | cons first rest ih =>
    obtain ⟨name, entry⟩ := first
    by_cases same : name = host
    · simp only [same, ne_eq, not_true_eq_false, decide_false, Bool.false_eq_true,
        not_false_eq_true, List.filter_cons_of_neg, List.lookup_cons, beq_false_of_ne ne]
      exact ih
    · simp only [ne_eq, same, not_false_eq_true, decide_true, List.filter_cons_of_pos,
        List.lookup_cons]
      split
      · rfl
      · exact ih

theorem expiring_expiringEntries :
    Expiring expiringEntries (fun entries host => List.lookup host entries) true := by
  refine ⟨fun host => rfl, fun c host now => rfl, fun c host now => rfl, ?_, ?_⟩
  · intro c host place lifetime now
    simp [expiringEntries]
  · intro c host other place lifetime now ne
    simp only [expiringEntries, List.lookup_cons, beq_false_of_ne ne]
    exact lookup_filter_ne ne c

end CallScript
