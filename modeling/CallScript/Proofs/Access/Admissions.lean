import CallScript.Config.Basic
import CallScript.Proofs.Access.Courses

/- How many sessions a host can open in a span of time. A bucket gives no more than it holds and
   what flows into it; but a host whose limiter is forgotten, a minute after it was made, gets a new
   one, whether or not it had spent the old one. So each limiter that is made in the span, after the
   one of the first visit there, adds a burst to what the rate allows. -/
namespace CallScript

def Visit.within (v : Visit) (host : Bytes) (start stop : Nat) : Bool :=
  v.host = host && (start ≤ v.time && v.time ≤ stop)

def admissions (visits : List Visit) (host : Bytes) (start stop : Nat) : Nat :=
  (visits.filter (·.within host start stop)).countP Visit.admitted

/-- The limiters that are made for a host in a span of time, after its first visit there. -/
def renewals (visits : List Visit) (host : Bytes) (start stop : Nat) : Nat :=
  (visits.filter (·.within host start stop)).tail.countP Visit.made

theorem remembered_le {inclusive : Bool} {last now : Nat}
    (kept : remembered inclusive last now = true) :
    now ≤ last := by
  unfold remembered at kept
  split at kept
  · exact of_decide_eq_true kept
  · exact Nat.le_of_lt (of_decide_eq_true kept)

theorem le_of_not_remembered {inclusive : Bool} {last now : Nat}
    (lost : remembered inclusive last now = false) : last ≤ now := by
  unfold remembered at lost
  split at lost
  · exact Nat.le_of_lt (Nat.not_le.mp (of_decide_eq_false lost))
  · exact Nat.not_lt.mp (of_decide_eq_false lost)

theorem countP_cons_toNat (p : Visit → Bool) (v : Visit) (rest : List Visit) :
    (v :: rest).countP p = rest.countP p + (p v).toNat := by
  rw [List.countP_cons]
  cases p v <;> rfl

theorem seconds_nonneg (span : Nat) : 0 ≤ seconds span := by
  unfold seconds
  positivity

theorem seconds_split {since now stop : Nat} (first : since ≤ now) (second : now ≤ stop) :
    seconds (stop - since) = seconds (now - since) + seconds (stop - now) := by
  have whole : stop - since = (now - since) + (stop - now) := by omega
  rw [seconds, seconds, seconds, whole, Nat.cast_add, add_div]

namespace Standing

section Course

variable {L : LimiterKind} (limit : RateLimit) (inclusive : Bool) (host : Bytes) {start stop : Nat}

theorem course_times (s : Standing L) (times : List Nat) :
    (s.course limit inclusive host times).map Visit.time = times := by
  induction times generalizing s with
  | nil => rfl
  | cons now rest ih => rw [course, List.map_cons, ih]

theorem kept_remembered {e : L.Limiter × Nat} {now : Nat}
    (known : remembered inclusive e.2 now = true) : kept inclusive (some e) now = some e := by
  simp [kept, known]

theorem kept_forgotten {e : L.Limiter × Nat} {now : Nat}
    (lost : remembered inclusive e.2 now = false) : kept inclusive (some e) now = none := by
  simp [kept, lost]

theorem remembered_current (s : Standing L) (now : Nat) :
    remembered inclusive (s.current limit inclusive now).2 now = true := by
  unfold current
  cases known : s.kept inclusive now with
  | none =>
    have lives : 0 < limiterLifetime := by decide
    simp [remembered, lives]
  | some e => exact (Option.filter_eq_some_iff.mp known).2

theorem current_next (s : Standing L) (now : Nat) :
    current limit inclusive (some (s.next limit inclusive now)) now =
      s.next limit inclusive now := by
  have known : remembered inclusive (s.next limit inclusive now).2 now = true :=
    s.remembered_current limit inclusive now
  rw [current, kept_remembered inclusive known, Option.getD_some]

theorem course_until (s : Standing L) {times : List Nat} (ordered : times.Pairwise (· ≤ ·))
    (late : ∀ t ∈ times, start ≤ t) :
    (s.course limit inclusive host times).filter (fun v => start ≤ v.time && v.time ≤ stop) =
      s.course limit inclusive host (times.filter fun t => start ≤ t && t ≤ stop) := by
  induction times generalizing s with
  | nil => rfl
  | cons now rest ih =>
    obtain ⟨first, ordered⟩ := List.pairwise_cons.mp ordered
    obtain ⟨here, late⟩ := List.forall_mem_cons.mp late
    by_cases inside : now ≤ stop
    · simp only [course, List.filter_cons, here, inside, decide_true, Bool.and_true, if_true,
        ih _ ordered late]
    · have beyond : ∀ t ∈ now :: rest, ¬t ≤ stop :=
        List.forall_mem_cons.mpr
          ⟨inside, fun t member ends => inside (Nat.le_trans (first t member) ends)⟩
      have none : (now :: rest).filter (fun t => start ≤ t && t ≤ stop) = [] := by
        simp only [List.filter_eq_nil_iff, Bool.and_eq_true, decide_eq_true_eq]
        exact fun t member within => beyond t member within.2
      rw [none, course, List.filter_eq_nil_iff]
      intro v member within
      simp only [Bool.and_eq_true, decide_eq_true_eq] at within
      refine beyond v.time ?_ within.2
      rw [← s.course_times limit inclusive host (now :: rest)]
      exact List.mem_map_of_mem member

/-- A limiter is made only when the last one is over, and that takes a lifetime each time. -/
theorem made_since (e : L.Limiter × Nat) {times : List Nat} (inside : ∀ t ∈ times, t ≤ stop) :
    (course limit inclusive host (some e) times).countP Visit.made = 0 ∨
      e.2 + ((course limit inclusive host (some e) times).countP Visit.made - 1) * limiterLifetime ≤
        stop := by
  induction times generalizing e with
  | nil => exact Or.inl rfl
  | cons now rest ih =>
    obtain ⟨here, inside⟩ := List.forall_mem_cons.mp inside
    have later := ih (next limit inclusive (some e) now) inside
    simp only [course, List.countP_cons]
    cases known : remembered inclusive e.2 now with
    | true =>
      have kept := kept_remembered inclusive known
      have same : (next limit inclusive (some e) now).2 = e.2 := by simp [next, current, kept]
      rw [same] at later
      simpa [kept] using later
    | false =>
      have gone := kept_forgotten inclusive known
      have new : (next limit inclusive (some e) now).2 = now + limiterLifetime := by
        simp [next, current, gone]
      have ended := le_of_not_remembered known
      rw [new] at later
      simp only [gone, Option.isNone_none, if_true, Nat.add_sub_cancel]
      generalize List.countP Visit.made
        (course limit inclusive host (some (next limit inclusive (some e) now)) rest) = more
        at later
      cases more with
      | zero => omega
      | succ more =>
        rw [Nat.add_sub_cancel] at later
        rw [Nat.succ_mul]
        omega

theorem renewals_within (s : Standing L) {times : List Nat}
    (inside : ∀ t ∈ times, start ≤ t ∧ t ≤ stop) :
    ((s.course limit inclusive host times).tail.countP Visit.made - 1) * limiterLifetime ≤
      stop - start := by
  cases times with
  | nil => simp [course]
  | cons now rest =>
    obtain ⟨here, inside⟩ := List.forall_mem_cons.mp inside
    have last := remembered_le (s.remembered_current limit inclusive now)
    rw [course, List.tail_cons]
    rcases made_since limit inclusive host (s.next limit inclusive now)
      fun t member => (inside t member).2 with
      none | spaced
    · rw [none, Nat.zero_sub, Nat.zero_mul]
      exact Nat.zero_le _
    · refine Nat.le_sub_of_add_le (Nat.le_trans ?_ spaced)
      rw [Nat.add_comm]
      exact Nat.add_le_add_right (Nat.le_trans here.1 last) _

end Course

section Spending

variable {L : LimiterKind} {tokens : L.Limiter → Nat → ℚ} {limit : RateLimit}
  {since start stop now later : Nat}

/-- The limiter that is known has not been used after this moment, and it owes nothing. -/
def Sound (tokens : L.Limiter → Nat → ℚ) (limit : RateLimit) (s : Standing L) (now : Nat) : Prop :=
  ∀ e ∈ s, L.Used limit e.1 now ∧ 0 ≤ tokens e.1 now

theorem sound_none : Sound tokens limit (none : Standing L) now := by
  intro e known
  cases known

variable (bucket : TokenBucket L tokens limit) (some : 0 < limit.burst) (inclusive : Bool)
  (host : Bytes)
include bucket some

theorem Sound.current {s : Standing L} (sound : s.Sound tokens limit now) :
    L.Used limit (s.current limit inclusive now).1 now ∧
      0 ≤ tokens (s.current limit inclusive now).1 now := by
  unfold Standing.current
  cases known : s.kept inclusive now with
  | none =>
    refine ⟨.new now, ?_⟩
    rw [Option.getD_none, bucket.full]
    exact_mod_cast some.le
  | some e => exact sound e (Option.filter_eq_some_iff.mp known).1

theorem Sound.next {s : Standing L} (sound : s.Sound tokens limit now) :
    Sound tokens limit (.some (s.next limit inclusive now)) now ∧
      tokens (s.next limit inclusive now).1 now +
          (L.ask (s.current limit inclusive now).1 now).1.toNat =
        tokens (s.current limit inclusive now).1 now := by
  obtain ⟨used, nonneg⟩ := sound.current bucket some inclusive
  obtain ⟨answer, spent⟩ := bucket.ask_some used some
  refine ⟨?_, spent⟩
  intro e known
  cases known
  refine ⟨used.ask, ?_⟩
  show 0 ≤ tokens (L.ask (s.current limit inclusive now).1 now).2 now
  rw [answer] at spent
  by_cases enough : 1 ≤ tokens (s.current limit inclusive now).1 now
  · simp only [enough, decide_true, Bool.toNat_true, Nat.cast_one] at spent
    linarith
  · simp only [enough, decide_false, Bool.toNat_false, Nat.cast_zero] at spent
    linarith

theorem tokens_current_none (now : Nat) :
    tokens (current limit inclusive (none : Standing L) now).1 now = limit.burst.toNat := by
  show tokens (L.new limit) now = _
  rw [bucket.full]
  exact_mod_cast (Int.toNat_of_nonneg some.le).symm

/-- At one moment a host is let in as often as it can spend a token, and then no more. -/
theorem admitted_at_once {s : Standing L} {count : Nat} (sound : s.Sound tokens limit now)
    (budget : tokens (s.current limit inclusive now).1 now = count) (calls : Nat) :
    (s.course limit inclusive host (List.replicate calls now)).map Visit.admitted =
      List.replicate (min calls count) true ++ List.replicate (calls - count) false := by
  induction calls generalizing s count with
  | zero => simp [course]
  | succ calls ih =>
    obtain ⟨used, -⟩ := sound.current bucket some inclusive
    obtain ⟨after, spent⟩ := sound.next bucket some inclusive
    obtain ⟨answer, -⟩ := bucket.ask_some used some
    rw [budget] at answer spent
    rw [List.replicate_succ, course, List.map_cons]
    cases count with
    | zero =>
      have refused : (L.ask (s.current limit inclusive now).1 now).1 = false := by
        rw [answer]
        simp
      rw [refused, Bool.toNat_false, Nat.cast_zero, add_zero] at spent
      rw [refused, ih after (by rw [current_next, spent, Nat.cast_zero])]
      simp [List.replicate_succ]
    | succ count =>
      have allowed : (L.ask (s.current limit inclusive now).1 now).1 = true := by
        rw [answer]
        simp
      rw [allowed, Bool.toNat_true, Nat.cast_one, Nat.cast_succ] at spent
      rw [allowed, ih after (by rw [current_next]; linarith), Nat.succ_min_succ,
        Nat.add_sub_add_right, List.replicate_succ, List.cons_append]

variable (flows : 0 ≤ limit.rate.perSecond.value)
include flows

theorem Sound.mono {s : Standing L} (sound : s.Sound tokens limit now) (le : now ≤ later) :
    s.Sound tokens limit later := by
  intro e known
  obtain ⟨used, nonneg⟩ := sound e known
  exact ⟨used.later le, bucket.tokens_nonneg used le some flows nonneg⟩

omit some in
theorem current_le {e : L.Limiter × Nat} (sound : Sound tokens limit (.some e) since)
    (le : since ≤ now) :
    tokens (current limit inclusive (.some e) now).1 now ≤
      tokens e.1 since + limit.burst * (kept inclusive (.some e) now).isNone.toNat +
        limit.rate.perSecond.value * seconds (now - since) := by
  obtain ⟨used, nonneg⟩ := sound e rfl
  have flow := mul_nonneg flows (seconds_nonneg (now - since))
  cases known : remembered inclusive e.2 now with
  | true =>
    have kept := kept_remembered inclusive known
    have grown := (bucket.refills used le).trans_le (min_le_right _ _)
    simpa [current, kept] using grown
  | false =>
    have gone := kept_forgotten inclusive known
    simp only [current, gone, Option.getD_none, bucket.full, Option.isNone_none, Bool.toNat_true,
      Nat.cast_one]
    linarith

/-- What a host spends from some moment on is covered by what its limiter had then, by the limiters
that are made for it, and by what flows in. -/
theorem spent_since {e : L.Limiter × Nat} (sound : Sound tokens limit (.some e) since)
    {times : List Nat} (ordered : times.Pairwise (· ≤ ·))
    (inside : ∀ t ∈ times, since ≤ t ∧ t ≤ stop) :
    ((course limit inclusive host (.some e) times).countP Visit.admitted : ℚ) ≤
      tokens e.1 since +
          limit.burst * (course limit inclusive host (.some e) times).countP Visit.made +
        limit.rate.perSecond.value * seconds (stop - since) := by
  induction times generalizing e since with
  | nil =>
    have nonneg := (sound e rfl).2
    have flow := mul_nonneg flows (seconds_nonneg (stop - since))
    simp only [course, List.countP_nil, Nat.cast_zero, mul_zero]
    linarith
  | cons now rest ih =>
    obtain ⟨first, ordered⟩ := List.pairwise_cons.mp ordered
    obtain ⟨⟨here, ends⟩, inside⟩ := List.forall_mem_cons.mp inside
    -- What is spent now is what the rest of the visits cannot spend.
    obtain ⟨after, spent⟩ := (sound.mono bucket some flows here).next bucket some inclusive
    have others := ih after ordered fun t member => ⟨first t member, (inside t member).2⟩
    have most := current_le bucket inclusive flows sound here
    simp only [course, countP_cons_toNat, Nat.cast_add]
    rw [seconds_split here ends, mul_add, mul_add]
    linarith

/-- What a host spends in a span of time is covered by a burst, another one for each limiter that is
made for it after its first visit, and what flows in. -/
theorem spent_within {s : Standing L} (sound : s.Sound tokens limit since) {times : List Nat}
    (ordered : times.Pairwise (· ≤ ·)) (later : ∀ t ∈ times, since ≤ t)
    (inside : ∀ t ∈ times, start ≤ t ∧ t ≤ stop) :
    ((s.course limit inclusive host times).countP Visit.admitted : ℚ) ≤
      limit.burst * (1 + (s.course limit inclusive host times).tail.countP Visit.made) +
        limit.rate.perSecond.value * seconds (stop - start) := by
  cases times with
  | nil =>
    have burst : (0 : ℚ) < limit.burst := by exact_mod_cast some
    have flow := mul_nonneg flows (seconds_nonneg (stop - start))
    simp only [course, List.countP_nil, List.tail_nil, Nat.cast_zero, add_zero, mul_one]
    linarith
  | cons now rest =>
    obtain ⟨first, ordered⟩ := List.pairwise_cons.mp ordered
    obtain ⟨⟨starts, ends⟩, inside⟩ := List.forall_mem_cons.mp inside
    have sound := sound.mono bucket some flows (later now List.mem_cons_self)
    obtain ⟨after, spent⟩ := sound.next bucket some inclusive
    have most := bucket.tokens_le (sound.current bucket some inclusive).1
    have others := spent_since bucket some inclusive host flows after ordered
      fun t member => ⟨first t member, (inside t member).2⟩
    have flow := mul_nonneg flows (seconds_nonneg (now - start))
    simp only [course, countP_cons_toNat, Nat.cast_add, List.tail_cons]
    rw [seconds_split starts ends, mul_add, mul_add]
    linarith

theorem exists_course_within {s : Standing L} (sound : s.Sound tokens limit since)
    {times : List Nat} (ordered : times.Pairwise (· ≤ ·)) (later : ∀ t ∈ times, since ≤ t)
    (start stop : Nat) :
    ∃ (s' : Standing L) (since' : Nat), s'.Sound tokens limit since' ∧
      (∀ t ∈ times.filter fun t => start ≤ t && t ≤ stop, since' ≤ t) ∧
      (s.course limit inclusive host times).filter (fun v => start ≤ v.time && v.time ≤ stop) =
        s'.course limit inclusive host (times.filter fun t => start ≤ t && t ≤ stop) := by
  induction times generalizing s since with
  | nil => exact ⟨s, since, sound, by simp, rfl⟩
  | cons now rest ih =>
    obtain ⟨first, rest'⟩ := List.pairwise_cons.mp ordered
    by_cases early : now < start
    · obtain ⟨after, -⟩ := (sound.mono bucket some flows (later now List.mem_cons_self)).next bucket
        some inclusive
      have outside : (decide (start ≤ now) && decide (now ≤ stop)) = false := by
        simp [Nat.not_le.mpr early]
      simpa only [course, List.filter_cons, outside, Bool.false_eq_true, if_false] using
        ih after rest' first
    · have starts := Nat.le_of_not_lt early
      have late : ∀ t ∈ now :: rest, start ≤ t :=
        List.forall_mem_cons.mpr ⟨starts, fun t member => Nat.le_trans starts (first t member)⟩
      exact ⟨s, since, sound, fun t member => later t (List.mem_filter.mp member).1,
        s.course_until limit inclusive host ordered late⟩

end Spending
end Standing

namespace Gate

variable {L : LimiterKind} {C : CacheKind} {tokens : L.Limiter → Nat → ℚ} {inclusive : Bool}
  {held : C.Cache → Bytes → Option (Nat × Nat)} {limit : RateLimit} (keys : List PublicKey)

theorem visits_within (visits : List Visit) (host : Bytes) (start stop : Nat) :
    visits.filter (·.within host start stop) =
      (visits.filter (·.host = host)).filter fun v => start ≤ v.time && v.time ≤ stop := by
  rw [List.filter_filter]
  exact List.filter_congr fun v _ => Bool.and_comm _ _

theorem timesOf_ordered {attempts : List Attempt}
    (ordered : attempts.Pairwise fun a b => a.time ≤ b.time) (host : Bytes) :
    (timesOf host attempts).Pairwise (· ≤ ·) :=
  List.pairwise_map.mpr (ordered.filter _)

variable (cache : Expiring C held inclusive)
include cache

theorem standing_opened (host : Bytes) :
    (opened keys limit : Gate L C).standing held host = none := by
  rw [standing, opened, cache.empty, Option.map_none]

variable (bucket : TokenBucket L tokens limit) (some : 0 < limit.burst)
  (flows : 0 ≤ limit.rate.perSecond.value)
include bucket some

theorem admissions_at_once (address : Option Bytes) (now : Nat) :
    admissions ((opened keys limit : Gate L C).visits
      (List.replicate limit.burst.toNat ⟨now, address⟩)) (remoteHost address) now now =
        limit.burst.toNat := by
  have times : timesOf (remoteHost address) (List.replicate limit.burst.toNat ⟨now, address⟩) =
      List.replicate limit.burst.toNat now := by
    simp [timesOf]
  have once : ((List.replicate limit.burst.toNat now).filter fun t => now ≤ t && t ≤ now) =
      List.replicate limit.burst.toNat now := by
    simp
  have ordered : (List.replicate limit.burst.toNat now).Pairwise (· ≤ ·) := by
    simp [List.pairwise_replicate]
  rw [admissions, visits_within, visits_of_host cache (owned_opened cache keys limit), times,
    standing_opened keys cache, Standing.course_until _ _ _ _ ordered (by simp), once]
  have answers := Standing.admitted_at_once bucket some inclusive (remoteHost address)
    Standing.sound_none (Standing.tokens_current_none bucket some inclusive now)
    limit.burst.toNat
  have counted := congrArg (List.countP id) answers
  rw [List.countP_map] at counted
  refine counted.trans ?_
  simp [List.countP_replicate]

include flows

/-- The rate is kept but for a burst with each limiter that is made. -/
theorem admissions_opened {attempts : List Attempt}
    (ordered : attempts.Pairwise fun a b => a.time ≤ b.time) (host : Bytes) (start stop : Nat) :
    (admissions ((opened keys limit : Gate L C).visits attempts) host start stop : ℚ) ≤
        limit.burst *
          (1 + renewals ((opened keys limit : Gate L C).visits attempts) host start stop) +
          limit.rate.perSecond.value * seconds (stop - start) ∧
      (renewals ((opened keys limit : Gate L C).visits attempts) host start stop - 1) *
        limiterLifetime ≤ stop - start := by
  have whole := visits_of_host (L := L) cache (owned_opened cache keys limit) host attempts
  rw [standing_opened keys cache] at whole
  have times := timesOf_ordered ordered host
  obtain ⟨s, since, sound, later, same⟩ := Standing.exists_course_within bucket some inclusive
    host flows Standing.sound_none times (fun t _ => Nat.zero_le t) start stop
  have inside : ∀ t ∈ (timesOf host attempts).filter fun t => start ≤ t && t ≤ stop,
      start ≤ t ∧ t ≤ stop := by
    intro t member
    simpa using (List.mem_filter.mp member).2
  rw [admissions, renewals, visits_within, whole]
  have spent := Standing.spent_within bucket some inclusive host flows sound (times.filter _) later
    inside
  rw [← same] at spent
  have spaced := s.renewals_within limit inclusive host inside
  rw [← same] at spaced
  exact ⟨spent, spaced⟩

end Gate

theorem Number.IsRate.value_pos {x : Number} (rate : x.IsRate) : 0 < x.value := by
  obtain ⟨-, positive, some⟩ := rate.positive
  have significand : (0 : ℚ) < x.significand := by exact_mod_cast some
  simp only [Number.value, positive, Bool.false_eq_true, if_false, one_mul]
  generalize 1074 = unit
  positivity

namespace Config

def rateLimit (c : Config) : RateLimit := ⟨.ofNumber c.serve.limit, c.serve.burst⟩

def gate {L : LimiterKind} {C : CacheKind} (c : Config) (read? : Bytes → Option PublicKey) :
    Except KeyRejection (Gate L C) :=
  Gate.make read? c.serve.authorizedKeys c.rateLimit

variable {c : Config} {read? : Bytes → Option PublicKey}

theorem conditions_met (valid : c.validate read? = .ok ()) :
    ∀ p ∈ c.conditions read?, p.1 = true := by
  intro p member
  unfold validate at valid
  split at valid
  · cases valid
  · rename_i none
    simp only [firstError?, Option.map_eq_none_iff, List.find?_eq_none] at none
    simpa using none p member

theorem rate_of_valid (valid : c.validate read? = .ok ()) (real : c.serve.limit.isNaN = false)
    (finite : c.serve.limit.isInfinite = false) : c.serve.limit.IsRate ∧ 0 < c.serve.burst := by
  have met := conditions_met valid
    (!c.serve.limit.lessOrEqual (.ofNat 0) && 0 < c.serve.burst, .rateLimitInvalid)
    (by simp [conditions])
  simp only [Bool.and_eq_true, Bool.not_eq_true', decide_eq_true_eq] at met
  have number : (Number.ofNat 0).isNaN = false := Number.ofRatio_not_nan false 0 1
  refine ⟨⟨?_, finite⟩, met.2⟩
  simpa [Number.lessOrEqual, Number.less, real, number] using met.1

theorem gate_of_valid {L : LimiterKind} {C : CacheKind} (valid : c.validate read? = .ok ()) :
    ∃ keys, c.gate read? = .ok (Gate.opened keys c.rateLimit : Gate L C) := by
  have met := conditions_met valid
    (c.serve.authorizedKeys.all fun key => (read? key).isSome, .authorizedKeyInvalid)
    (by simp [conditions])
  have all := List.all_eq_true.mp met
  unfold gate
  generalize c.serve.authorizedKeys = lines at all
  induction lines with
  | nil => exact ⟨[], rfl⟩
  | cons line rest ih =>
    obtain ⟨keys, same⟩ := ih fun other member => all other (List.mem_cons_of_mem line member)
    obtain ⟨key, found⟩ := Option.isSome_iff_exists.mp (all line List.mem_cons_self)
    refine ⟨key :: keys, ?_⟩
    simp only [Gate.make, List.mapM_cons, found, bind, Except.bind] at same ⊢
    split at same
    · cases same
    · cases same
      rfl

end Config

/-- For a configuration that is accepted and whose limit is a finite number, in every span of time a
host opens at most as many sessions as a burst, another burst for each limiter that is made for it
in the span after its first visit there, and what the limit allows. Limiters are made a minute
apart. A host that comes for the first time gets the whole burst at once. This is so for all
limiters that are buckets of tokens, all caches that forget, and all kinds of keys. -/
theorem admissions_bounded {L : LimiterKind} {C : CacheKind} {tokens : L.Limiter → Nat → ℚ}
    {held : C.Cache → Bytes → Option (Nat × Nat)} {inclusive : Bool}
    (buckets : ∀ limit : RateLimit, limit.rate.perSecond.IsRate → TokenBucket L tokens limit)
    (cache : Expiring C held inclusive) {read? : Bytes → Option PublicKey} {c : Config}
    (valid : c.validate read? = .ok ()) (real : c.serve.limit.isNaN = false)
    (finite : c.serve.limit.isInfinite = false) :
    ∃ g : Gate L C, c.gate read? = .ok g ∧
      (∀ attempts : List Attempt, (attempts.Pairwise fun a b => a.time ≤ b.time) →
        ∀ host start stop,
          (admissions (g.visits attempts) host start stop : ℚ) ≤
              c.serve.burst * (1 + renewals (g.visits attempts) host start stop) +
                c.serve.limit.value * seconds (stop - start) ∧
            (renewals (g.visits attempts) host start stop - 1) * limiterLifetime ≤ stop - start) ∧
      ∀ address now,
        admissions (g.visits (List.replicate c.serve.burst.toNat ⟨now, address⟩))
          (remoteHost address) now now = c.serve.burst := by
  obtain ⟨rate, some⟩ := Config.rate_of_valid valid real finite
  obtain ⟨keys, gate⟩ := Config.gate_of_valid (L := L) (C := C) valid
  have bucket := buckets c.rateLimit rate
  refine ⟨_, gate, ?_, ?_⟩
  · intro attempts ordered host start stop
    exact Gate.admissions_opened keys cache bucket some rate.value_pos.le ordered host start stop
  · intro address now
    have once := Gate.admissions_at_once keys cache bucket some address now
    exact (congrArg Int.ofNat once).trans (Int.toNat_of_nonneg some.le)

def visitor : Option Bytes := some (utf8 "10.0.0.1:1")

/-- A host comes once, again when its limiter is a minute old, and a moment later, each time as
often as it is let in. -/
def twoBursts : List Attempt :=
  ⟨0, visitor⟩ ::
    (List.replicate 5 ⟨limiterLifetime, visitor⟩ ++ List.replicate 5 ⟨limiterLifetime + 1, visitor⟩)

theorem twoBursts_ordered : twoBursts.Pairwise fun a b => a.time ≤ b.time := by
  decide +kernel

def defaultGate : Gate := .opened [] ⟨.ofNumber (.ofNat 1), 5⟩

theorem default_gate :
    Config.default.validate = .ok () ∧ Config.default.gate PublicKey.read? = .ok defaultGate :=
  ⟨by decide +kernel, rfl⟩

theorem twoBursts_counts :
    admissions (defaultGate.visits twoBursts) (utf8 "10.0.0.1") limiterLifetime
        (limiterLifetime + 1) = 10 ∧
      renewals (defaultGate.visits twoBursts) (utf8 "10.0.0.1") limiterLifetime
        (limiterLifetime + 1) = 1 := by
  decide +kernel

theorem admissions_bounded_renewed :
    admissions (defaultGate.visits twoBursts) (utf8 "10.0.0.1") limiterLifetime
        (limiterLifetime + 1) = 10 ∧
      (10 : ℚ) ≤
        Config.default.serve.burst * (1 + 1) + Config.default.serve.limit.value * seconds 1 := by
  obtain ⟨valid, same⟩ := default_gate
  obtain ⟨g, gate, bounded, -⟩ := admissions_bounded tokenBucket_tokenBuckets
    expiring_expiringEntries valid (by decide +kernel) (by decide +kernel)
  rw [same] at gate
  cases gate
  obtain ⟨most, -⟩ := bounded twoBursts twoBursts_ordered (utf8 "10.0.0.1") limiterLifetime
    (limiterLifetime + 1)
  rw [twoBursts_counts.1, twoBursts_counts.2, Nat.add_sub_cancel_left, Nat.cast_ofNat,
    Nat.cast_one] at most
  exact ⟨twoBursts_counts.1, most⟩

theorem default_value : Config.default.serve.limit.value = 1 := by
  have parts : Config.default.serve.limit.isNegative = false ∧
      Config.default.serve.limit.significand = 2 ^ 52 ∧
        Config.default.serve.limit.scale = 1022 := by
    decide +kernel
  obtain ⟨sign, significand, scale⟩ := parts
  have whole : ∀ a b : Nat, (2 : ℚ) ^ a * 2 ^ b / 2 ^ (a + b) = 1 := by
    intro a b
    rw [← pow_add, div_self (by positivity)]
  rw [Number.value, sign, significand, scale, if_neg (by decide), one_mul, Nat.cast_pow,
    Nat.cast_ofNat]
  exact whole 52 1022

def unmeasured : Config :=
  { Config.default with serve := { Config.default.serve with limit := .nan, burst := 1 } }

def unmeasuredGate : Gate := .opened [] ⟨.ofNumber .nan, 1⟩

/-- The rate is not kept. With the default configuration, ten sessions are opened in a nanosecond,
in which a burst of five and a limit of one a second allow five, though the limiters are buckets and
the cache forgets as it should. A limit that is no number is accepted, and with a burst of one two
sessions are opened at the same moment. -/
theorem rate_exceeded :
    ((∀ limit : RateLimit, limit.rate.perSecond.IsRate →
        TokenBucket tokenBuckets Bucket.tokens limit) ∧
      Expiring expiringEntries (fun entries host => List.lookup host entries) true ∧
      Config.default.validate = .ok () ∧ Config.default.gate PublicKey.read? = .ok defaultGate ∧
      (twoBursts.Pairwise fun a b => a.time ≤ b.time) ∧
      ¬(admissions (defaultGate.visits twoBursts) (utf8 "10.0.0.1") limiterLifetime
          (limiterLifetime + 1) : ℚ) ≤
        Config.default.serve.burst + Config.default.serve.limit.value * seconds 1) ∧
    unmeasured.validate = .ok () ∧ unmeasured.gate PublicKey.read? = .ok unmeasuredGate ∧
      admissions (unmeasuredGate.visits [⟨0, visitor⟩, ⟨0, visitor⟩]) (utf8 "10.0.0.1") 0 0 = 2 ∧
      ¬(2 : Int) ≤ unmeasured.serve.burst := by
  have burst : Config.default.serve.burst = 5 := rfl
  refine ⟨⟨tokenBucket_tokenBuckets, expiring_expiringEntries, default_gate.1, default_gate.2,
    twoBursts_ordered, ?_⟩, by decide +kernel, rfl, by decide +kernel, by decide +kernel⟩
  rw [twoBursts_counts.1, default_value, burst, seconds, nanosPerSecond]
  norm_num

end CallScript
