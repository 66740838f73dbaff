import CallScript.Proofs.Access.Admissions

/- Hosts do not get in each other's way. What a gate answers to a host depends on the limiter of
   that host only, and no call of another host touches it; so a host is answered as if nobody else
   came. Two addresses draw on one limiter exactly when they have the same host, whatever their
   services are. -/
namespace CallScript

def Bytes.Plain (text : Bytes) : Prop := ascii ':' ∉ text ∧ ascii '[' ∉ text ∧ ascii ']' ∉ text

/-- An address that is made of a host and a service. -/
inductive Located : Bytes → Bytes → Bytes → Prop where
  | plain {host service : Bytes} (name : host.Plain) (number : service.Plain) :
    Located (host ++ ascii ':' :: service) host service
  | bracketed {host service : Bytes} (name : ascii '[' ∉ host ∧ ascii ']' ∉ host)
      (number : service.Plain) :
    Located (ascii '[' :: (host ++ ascii ']' :: ascii ':' :: service)) host service

theorem Bytes.splitLast?_append {sep : UInt8} {after : Bytes} (last : sep ∉ after)
    (before : Bytes) : Bytes.splitLast? sep (before ++ sep :: after) = some (before, after) := by
  have other : ∀ c ∈ after.reverse, (!decide (c = sep)) = true := by
    intro c member
    have ne : c ≠ sep := fun same => last (same ▸ List.mem_reverse.mp member)
    simpa using ne
  have reversed : (before ++ sep :: after).reverse = after.reverse ++ sep :: before.reverse := by
    simp
  simp only [splitLast?, List.mem_append, List.mem_cons_self, or_true, if_true, reversed,
    ne_eq, decide_not, List.dropWhile_append_of_pos other, List.takeWhile_append_of_pos other]
  simp

theorem Bytes.splitLast?_some {sep : UInt8} {text before after : Bytes}
    (parts : Bytes.splitLast? sep text = some (before, after)) :
    text = before ++ sep :: after ∧ sep ∉ after := by
  have member : sep ∈ text := by
    by_contra absent
    simp [splitLast?, absent] at parts
  obtain ⟨back, front, reversed, last⟩ := List.eq_append_cons_of_mem (List.mem_reverse.mpr member)
  have whole : text = front.reverse ++ sep :: back.reverse := by
    rw [← List.reverse_reverse text, reversed]
    simp
  rw [whole, splitLast?_append (by simpa using last)] at parts
  cases parts
  exact ⟨whole, by simpa using last⟩

theorem bracketedHost?_append {host service : Bytes} (name : ascii '[' ∉ host ∧ ascii ']' ∉ host)
    (number : service.Plain) :
    bracketedHost? (host ++ ascii ']' :: ascii ':' :: service) = some host := by
  have inside : ∀ c ∈ host, (!decide (c = ascii ']')) = true := by
    intro c member
    have ne : c ≠ ascii ']' := fun same => name.2 (same ▸ member)
    simpa using ne
  have marks : ascii '[' ≠ ascii ']' ∧ ascii '[' ≠ ascii ':' := by decide
  obtain ⟨colons, opened, closed⟩ := number
  simp only [bracketedHost?, ne_eq, decide_not, List.dropWhile_append_of_pos inside,
    List.takeWhile_append_of_pos inside]
  simp [name.1, colons, opened, closed, marks]

theorem bracketedHost?_some {text host : Bytes} (found : bracketedHost? text = some host) :
    ∃ service : Bytes, text = host ++ ascii ']' :: ascii ':' :: service ∧
      (ascii '[' ∉ host ∧ ascii ']' ∉ host) ∧ service.Plain := by
  have whole := List.takeWhile_append_dropWhile (p := fun c => decide (c ≠ ascii ']')) (l := text)
  simp only [bracketedHost?] at found
  split at found
  · rename_i closing colon service rest
    rw [rest] at whole
    split at found
    · rename_i marks
      cases found
      have closes : closing = ascii ']' := by
        have head := List.head?_dropWhile_not (fun c => decide (c ≠ ascii ']')) text
        rw [rest] at head
        simpa using head
      simp only [Bool.and_eq_true, decide_eq_true_eq, Bool.not_eq_true', List.contains_eq_mem,
        decide_eq_false_iff_not] at marks
      obtain ⟨⟨⟨rfl, colons⟩, opened⟩, closed⟩ := marks
      subst closes
      refine ⟨service, whole.symm, ⟨?_, ?_⟩, colons, ?_, closed⟩
      · exact fun member => opened (List.takeWhile_subset _ member)
      · intro member
        simpa using List.all_eq_true.mp List.all_takeWhile _ member
      · intro member
        apply opened
        rw [← whole]
        simp [member]
    · cases found
  · cases found

/-- The addresses that can be taken apart are those that are made of a host and a service. -/
theorem splitHost?_eq_some_iff {address host : Bytes} :
    splitHost? address = some host ↔ ∃ service, Located address host service := by
  constructor
  · intro found
    unfold splitHost? at found
    split at found
    · cases found
    · split at found
      · rename_i opens
        subst opens
        obtain ⟨service, rfl, name, number⟩ := bracketedHost?_some found
        exact ⟨service, .bracketed name number⟩
      · split at found
        · cases found
        · rename_i before service parts
          split at found
          · cases found
          · rename_i marks
            cases found
            obtain ⟨whole, last⟩ := Bytes.splitLast?_some parts
            simp only [Bool.or_eq_true, List.contains_eq_mem, decide_eq_true_eq, not_or] at marks
            obtain ⟨⟨colons, opened⟩, closed⟩ := marks
            rw [whole] at opened closed ⊢
            simp only [List.mem_append, List.mem_cons, not_or] at opened closed
            exact ⟨service, .plain ⟨colons, opened.1, closed.1⟩ ⟨last, opened.2.2, closed.2.2⟩⟩
  · rintro ⟨service, located⟩
    cases located with
    | plain name number =>
      have parts := Bytes.splitLast?_append number.1 host
      have colon : ascii '[' ≠ ascii ':' ∧ ascii ']' ≠ ascii ':' := by decide
      have marks : ascii '[' ∉ host ++ ascii ':' :: service ∧
          ascii ']' ∉ host ++ ascii ':' :: service := by
        simp [name.2, number.2, colon]
      generalize same : host ++ ascii ':' :: service = address at *
      cases address with
      | nil => simp at same
      | cons c rest =>
        have opens : c ≠ ascii '[' := fun same => marks.1 (same ▸ List.mem_cons_self)
        simp [splitHost?, opens, parts, name.1, marks]
    | bracketed name number =>
      simp only [splitHost?, if_true]
      exact bracketedHost?_append name number

theorem remoteHost_located {address host service : Bytes} (located : Located address host service) :
    remoteHost (some address) = host := by
  rw [remoteHost, splitHost?_eq_some_iff.mpr ⟨service, located⟩, Option.getD_some]

theorem remoteHost_unlocated {address : Bytes}
    (other : ∀ host service, ¬Located address host service) :
    remoteHost (some address) = address := by
  have none : splitHost? address = none := by
    cases found : splitHost? address with
    | none => rfl
    | some host =>
      obtain ⟨service, located⟩ := splitHost?_eq_some_iff.mp found
      exact absurd located (other host service)
  rw [remoteHost, none, Option.getD_none]

namespace Gate

variable {L : LimiterKind} {C : CacheKind} {tokens : L.Limiter → Nat → ℚ} {inclusive : Bool}
  {held : C.Cache → Bytes → Option (Nat × Nat)} {g : Gate L C} {host : Bytes} {now : Nat}

/-- A call of the first address can change what the second is answered later. -/
def Shares (g : Gate L C) (a b : Option Bytes) : Prop :=
  ∃ before between now later, ((g.run (before ++ ⟨now, a⟩ :: between)).allow b later).1 ≠
    ((g.run (before ++ between)).allow b later).1

def Fresh (g : Gate L C) (host : Bytes) (now : Nat) : Prop := (C.get g.limiters host now).1 = none

theorem timesOf_append (host : Bytes) (first second : List Attempt) :
    timesOf host (first ++ second) = timesOf host first ++ timesOf host second := by
  rw [timesOf, List.filter_append, List.map_append]
  rfl

theorem timesOf_filter (host : Bytes) (attempts : List Attempt) :
    timesOf host (attempts.filter fun a => remoteHost a.address = host) =
      timesOf host attempts := by
  rw [timesOf, List.filter_filter, timesOf]
  simp

theorem visits_own {attempts : List Attempt} (own : ∀ a ∈ attempts, remoteHost a.address = host) :
    (g.visits attempts).filter (·.host = host) = g.visits attempts := by
  induction attempts generalizing g with
  | nil => rfl
  | cons a rest ih =>
    obtain ⟨here, own⟩ := List.forall_mem_cons.mp own
    simp only [visits, List.filter_cons, here, decide_true, if_true, ih own]

end Gate

namespace Standing

variable {L : LimiterKind} {tokens : L.Limiter → Nat → ℚ} {limit : RateLimit} {inclusive : Bool}
  {s : Standing L} {now : Nat}

theorem course_of_forgotten (fresh : s.kept inclusive now = none) (host : Bytes) (calls : Nat) :
    s.course limit inclusive host (List.replicate calls now) =
      course limit inclusive host (none : Standing L) (List.replicate calls now) := by
  have none : kept inclusive (none : Standing L) now = none := rfl
  cases calls with
  | zero => rfl
  | succ calls => simp only [List.replicate_succ, course, next, current, fresh, none]

/-- In the end, nothing is remembered of a host that stays away. -/
theorem exists_forgotten (inclusive : Bool) (s : Standing L) :
    ∃ now, s.kept inclusive now = none := by
  cases s with
  | none => exact ⟨0, rfl⟩
  | some e => exact ⟨e.2 + 1, by simp [kept, remembered]⟩

variable (bucket : TokenBucket L tokens limit)
include bucket

theorem refused_at_once (none : ¬0 < limit.burst)
    (used : L.Used limit (s.current limit inclusive now).1 now) (host : Bytes) (calls : Nat) :
    (s.course limit inclusive host (List.replicate calls now)).map Visit.admitted =
      List.replicate calls false := by
  induction calls generalizing s with
  | zero => rfl
  | succ calls ih =>
    have refused := bucket.ask_none used none
    have after :
        L.Used limit (current limit inclusive (some (s.next limit inclusive now)) now).1 now := by
      rw [current_next]
      exact used.ask
    rw [List.replicate_succ, course, List.map_cons, refused, ih after, List.replicate_succ]

theorem admitted_fresh (fresh : s.kept inclusive now = none) (host : Bytes) (calls : Nat) :
    (s.course limit inclusive host (List.replicate calls now)).map Visit.admitted =
      List.replicate (min calls limit.burst.toNat) true ++
        List.replicate (calls - limit.burst.toNat) false := by
  rw [course_of_forgotten fresh]
  by_cases some : 0 < limit.burst
  · exact admitted_at_once bucket some inclusive host sound_none
      (tokens_current_none bucket some inclusive now) calls
  · rw [refused_at_once bucket some (.new now), Int.toNat_of_nonpos (not_lt.mp some)]
    simp

end Standing

namespace Gate

variable {L : LimiterKind} {C : CacheKind} {tokens : L.Limiter → Nat → ℚ} {inclusive : Bool}
  {held : C.Cache → Bytes → Option (Nat × Nat)} {g : Gate L C} {host : Bytes} {now : Nat}
  (cache : Expiring C held inclusive)
include cache

/-- The visits of one host, in whatever mix they come, are those of a gate that sees nobody else. -/
theorem visits_filter (owned : g.Owned held) (host : Bytes) (attempts : List Attempt) :
    (g.visits attempts).filter (·.host = host) =
      g.visits (attempts.filter fun a => remoteHost a.address = host) := by
  have own : ∀ a ∈ attempts.filter fun a => remoteHost a.address = host,
      remoteHost a.address = host := by
    intro a member
    simpa using (List.mem_filter.mp member).2
  rw [← visits_own own, visits_of_host cache owned, visits_of_host cache owned, timesOf_filter]

theorem not_shares (owned : g.Owned held) {a b : Option Bytes}
    (apart : remoteHost a ≠ remoteHost b) : ¬g.Shares a b := by
  rintro ⟨before, between, now, later, differ⟩
  have unseen : timesOf (remoteHost b) (before ++ ⟨now, a⟩ :: between) =
      timesOf (remoteHost b) (before ++ between) := by
    rw [timesOf_append, timesOf_append]
    simp [timesOf, apart]
  have first := answer_eq cache owned (before ++ ⟨now, a⟩ :: between) b later
  have second := answer_eq cache owned (before ++ between) b later
  rw [unseen] at first
  exact differ (Option.some.inj (first.trans second.symm))

theorem Fresh.kept (fresh : g.Fresh host now) :
    (g.standing held host).kept inclusive now = none := by
  have none := makes_eq cache g host now
  rw [fresh] at none
  exact Option.isNone_iff_eq_none.mp none.symm

theorem answer_at_once (owned : g.Owned held) (bucket : TokenBucket L tokens g.limit)
    {a b : Option Bytes} (same : remoteHost a = remoteHost b)
    (fresh : (g.standing held (remoteHost b)).kept inclusive now = none) (calls : Nat) :
    ((g.run (List.replicate calls ⟨now, a⟩)).allow b now).1 =
      decide (calls < g.limit.burst.toNat) := by
  have answer := answer_eq cache owned (List.replicate calls ⟨now, a⟩) b now
  have times : timesOf (remoteHost b) (List.replicate calls ⟨now, a⟩) ++ [now] =
      List.replicate (calls + 1) now := by
    simp [timesOf, same, List.replicate_succ']
  rw [times, ← List.getLast?_map, Standing.admitted_fresh bucket fresh] at answer
  by_cases less : calls < g.limit.burst.toNat
  · rw [Nat.min_eq_left less, Nat.sub_eq_zero_of_le less, List.replicate_zero, List.append_nil,
      List.replicate_succ', List.getLast?_concat] at answer
    simpa [less] using answer
  · obtain ⟨more, count⟩ : ∃ more, calls + 1 - g.limit.burst.toNat = more + 1 :=
      ⟨calls - g.limit.burst.toNat, by omega⟩
    rw [count, List.replicate_succ', ← List.append_assoc, List.getLast?_concat] at answer
    simpa [less] using answer

/-- The last token of the host is there for either address, and then for none. -/
theorem shares_of_same (owned : g.Owned held) (bucket : TokenBucket L tokens g.limit)
    (some : 0 < g.limit.burst) {a b : Option Bytes} (same : remoteHost a = remoteHost b) :
    g.Shares a b := by
  obtain ⟨now, fresh⟩ := Standing.exists_forgotten inclusive (g.standing held (remoteHost b))
  -- One token is left after all but one of the burst, and it decides what the second is answered.
  refine ⟨List.replicate (g.limit.burst.toNat - 1) ⟨now, a⟩, [], now, now, ?_⟩
  rw [← List.replicate_succ', List.append_nil, answer_at_once cache owned bucket same fresh,
    answer_at_once cache owned bucket same fresh]
  simp only [ne_eq, decide_eq_decide]
  omega

end Gate

/-- In every mix of calls, a host is answered exactly as if the calls of all others were left out.
Only addresses with the same host share a budget, and they do wherever there is one; it makes no
difference which of them calls, and the host of an address does not depend on its service. At one
moment, a host of which nothing is remembered is let in as often as the burst says, the first times
it calls, whoever else calls in between. This is so for all limiters that are buckets of tokens, and
all caches that forget. -/
theorem hosts_do_not_interfere {L : LimiterKind} {C : CacheKind} {tokens : L.Limiter → Nat → ℚ}
    {held : C.Cache → Bytes → Option (Nat × Nat)} {inclusive : Bool}
    (buckets : ∀ limit : RateLimit, limit.rate.perSecond.IsRate → TokenBucket L tokens limit)
    (cache : Expiring C held inclusive) :
    (∀ g : Gate L C, g.Reached → ∀ (attempts : List Attempt) (host : Bytes),
      (g.visits attempts).filter (·.host = host) =
        g.visits (attempts.filter fun a => remoteHost a.address = host)) ∧
    (∀ g : Gate L C, g.Reached → ∀ a b, g.Shares a b → remoteHost a = remoteHost b) ∧
    (∀ g : Gate L C, g.Reached → g.limit.rate.perSecond.IsRate → 0 < g.limit.burst → ∀ a b,
      g.Shares a b ↔ remoteHost a = remoteHost b) ∧
    (∀ a b, remoteHost a = remoteHost b → ∀ (g : Gate L C) now, g.allow a now = g.allow b now) ∧
    (∀ address host service, Located address host service → remoteHost (some address) = host) ∧
    (∀ address, (∀ host service, ¬Located address host service) →
      remoteHost (some address) = address) ∧
    ∀ g : Gate L C, g.Reached → g.limit.rate.perSecond.IsRate → ∀ host now, g.Fresh host now →
      ∀ attempts : List Attempt, (∀ a ∈ attempts, a.time = now) →
        ((g.visits attempts).filter (·.host = host)).map Visit.admitted =
          List.replicate (min (attempts.countP fun a => remoteHost a.address = host)
              g.limit.burst.toNat) true ++
            List.replicate ((attempts.countP fun a => remoteHost a.address = host) -
              g.limit.burst.toNat) false := by
  have only : ∀ g : Gate L C, g.Reached → ∀ a b, g.Shares a b → remoteHost a = remoteHost b := by
    intro g reached a b shares
    by_contra apart
    exact Gate.not_shares cache (reached.owned cache) apart shares
  refine ⟨?_, only, ?_, ?_, fun address host service located => remoteHost_located located,
    fun address other => remoteHost_unlocated other, ?_⟩
  · intro g reached attempts host
    exact Gate.visits_filter cache (reached.owned cache) host attempts
  · intro g reached rate some a b
    refine ⟨only g reached a b, fun same => ?_⟩
    exact Gate.shares_of_same cache (reached.owned cache) (buckets g.limit rate) some same
  · intro a b same g now
    rw [Gate.allow, Gate.allow, same]
  · intro g reached rate host now fresh attempts instant
    -- All its calls are at the same moment.
    have times : timesOf host attempts =
        List.replicate (attempts.countP fun a => remoteHost a.address = host) now := by
      rw [List.countP_eq_length_filter, List.eq_replicate_iff, timesOf, List.length_map]
      refine ⟨rfl, fun t member => ?_⟩
      obtain ⟨a, held, rfl⟩ := List.mem_map.mp member
      exact instant a (List.mem_filter.mp held).1
    rw [Gate.visits_of_host cache (reached.owned cache), times]
    exact Standing.admitted_fresh (buckets g.limit rate) (fresh.kept cache) host _

def mixedCalls : List Attempt :=
  [⟨0, some (utf8 "10.0.0.1:5000")⟩, ⟨0, some (utf8 "10.0.0.2:5000")⟩,
    ⟨0, some (utf8 "10.0.0.1:5001")⟩, ⟨0, some (utf8 "10.0.0.1:5000")⟩]

def pairGate : Gate := .opened [] ⟨.ofNumber (.ofNat 1), 2⟩

theorem hosts_do_not_interfere_mixed :
    ((pairGate.visits mixedCalls).filter (·.host = utf8 "10.0.0.1")).map Visit.admitted =
        [true, true, false] ∧
      pairGate.Shares (some (utf8 "10.0.0.1:5000")) (some (utf8 "10.0.0.1:5001")) ∧
      ¬pairGate.Shares (some (utf8 "10.0.0.1:5000")) (some (utf8 "10.0.0.2:5000")) := by
  have rate : pairGate.limit.rate.perSecond.IsRate := by
    unfold Number.IsRate
    decide +kernel
  have reached : pairGate.Reached := ⟨[], _, [], rfl⟩
  obtain ⟨-, -, shares, -, -, -, once⟩ :=
    hosts_do_not_interfere tokenBucket_tokenBuckets expiring_expiringEntries
  have shared := shares pairGate reached rate (by decide)
  refine ⟨?_, (shared _ _).mpr (by decide +kernel), fun together => ?_⟩
  · rw [once pairGate reached rate (utf8 "10.0.0.1") 0 rfl mixedCalls (by simp [mixedCalls])]
    decide +kernel
  · exact absurd ((shared _ _).mp together) (by decide +kernel)

end CallScript
