import CallScript.Proofs.Access.Limiters

/- The calls at a gate, host by host. What a gate answers to a host hangs on what it knows about
   that host only: its limiter, and until when this is remembered. So the visits of a host are a
   course of their own, told by the times at which it calls. -/
namespace CallScript

structure Attempt where
  time : Nat
  address : Option Bytes

/-- What became of an attempt, and whether a limiter was made for it. -/
structure Visit where
  time : Nat
  host : Bytes
  admitted : Bool
  made : Bool
  deriving DecidableEq, Repr

def timesOf (host : Bytes) (attempts : List Attempt) : List Nat :=
  (attempts.filter fun a => remoteHost a.address = host).map Attempt.time

/-- What is known about a host: its limiter, with the last moment at which it is remembered. -/
abbrev Standing (L : LimiterKind) := Option (L.Limiter × Nat)

namespace Standing

variable {L : LimiterKind} (limit : RateLimit) (inclusive : Bool)

def kept (s : Standing L) (now : Nat) : Standing L := s.filter fun e => remembered inclusive e.2 now

def current (s : Standing L) (now : Nat) : L.Limiter × Nat :=
  (s.kept inclusive now).getD (L.new limit, now + limiterLifetime)

def next (s : Standing L) (now : Nat) : L.Limiter × Nat :=
  ((L.ask (s.current limit inclusive now).1 now).2, (s.current limit inclusive now).2)

def course (host : Bytes) (s : Standing L) : List Nat → List Visit
  | [] => []
  | now :: rest =>
    ⟨now, host, (L.ask (s.current limit inclusive now).1 now).1, (s.kept inclusive now).isNone⟩ ::
      course host (some (s.next limit inclusive now)) rest

end Standing

namespace Gate

variable {L : LimiterKind} {C : CacheKind}

def visits (g : Gate L C) : List Attempt → List Visit
  | [] => []
  | a :: rest =>
    ⟨a.time, remoteHost a.address, (g.allow a.address a.time).1,
        (C.get g.limiters (remoteHost a.address) a.time).1.isNone⟩ ::
      (g.allow a.address a.time).2.visits rest

def run (g : Gate L C) (attempts : List Attempt) : Gate L C :=
  attempts.foldl (fun g a => (g.allow a.address a.time).2) g

/-- A gate that has been opened, and called then. -/
def Reached (g : Gate L C) : Prop := ∃ keys limit attempts, g = (opened keys limit).run attempts

theorem visits_append (g : Gate L C) (first second : List Attempt) :
    g.visits (first ++ second) = g.visits first ++ (g.run first).visits second := by
  induction first generalizing g with
  | nil => rfl
  | cons a rest ih => simp only [List.cons_append, visits, ih, run, List.foldl_cons]

variable (held : C.Cache → Bytes → Option (Nat × Nat))

def standing (g : Gate L C) (host : Bytes) : Standing L :=
  (held g.limiters host).map fun e => (g.limiterAt e.1, e.2)

/-- Every entry of the cache is the place of a limiter, and no two hosts have the same one. -/
structure Owned (g : Gate L C) : Prop where
  placed : ∀ {host e}, held g.limiters host = some e → e.1 < g.made.length
  apart : ∀ {host other e f}, held g.limiters host = some e → held g.limiters other = some f →
    e.1 = f.1 → host = other

variable {held} {inclusive : Bool} (cache : Expiring C held inclusive)

include cache in
theorem owned_opened (keys : List PublicKey) (limit : RateLimit) :
    (opened keys limit : Gate L C).Owned held := by
  refine ⟨?_, ?_⟩
  · intro host e found
    rw [opened, cache.empty] at found
    cases found
  · intro host other e f found
    rw [opened, cache.empty] at found
    cases found

variable {g g' : Gate L C} {host other : Bytes} {now place last : Nat}

/-- What a step for one host leaves: it knows this about the host, and the same as before about the
others. -/
structure Leaves (held : C.Cache → Bytes → Option (Nat × Nat)) (g g' : Gate L C) (host : Bytes)
    (entry : L.Limiter × Nat) : Prop where
  owned : g'.Owned held
  limit : g'.limit = g.limit
  own : g'.standing held host = some entry
  others : ∀ other, other ≠ host → g'.standing held other = g.standing held other

theorem leaves_set (owned : g.Owned held) (entry : held g.limiters host = some (place, last))
    (l : L.Limiter) : Leaves held g { g with made := g.made.set place l } host (l, last) := by
  have inside := owned.placed entry
  refine ⟨⟨?_, owned.apart⟩, rfl, ?_, ?_⟩
  · intro other e found
    rw [List.length_set]
    exact owned.placed found
  · simp [standing, entry, limiterAt, inside]
  · intro other ne
    unfold standing
    cases found : held g.limiters other with
    | none => rfl
    | some e =>
      have elsewhere : place ≠ e.1 := fun same => ne (owned.apart found entry same.symm)
      simp [limiterAt, List.getElem?_set_ne elsewhere]

theorem standing_kept (inclusive : Bool) (g : Gate L C) (host : Bytes) (now : Nat) :
    (g.standing held host).kept inclusive now =
      ((held g.limiters host).filter fun e => remembered inclusive e.2 now).map
        fun e => (g.limiterAt e.1, e.2) := by
  unfold standing Standing.kept
  rw [Option.filter_map]
  rfl

theorem leaves_read (owned : g.Owned held) {limiters : C.Cache}
    (same : held limiters = held g.limiters) (entry : held g.limiters host = some (place, last)) :
    Leaves held g { g with limiters } host (g.limiterAt place, last) := by
  have unchanged : ∀ other, standing held { g with limiters } other = g.standing held other := by
    intro other
    simp only [standing, same, limiterAt]
  refine ⟨⟨?_, ?_⟩, rfl, ?_, fun other _ => unchanged other⟩
  · intro other e found
    rw [same] at found
    exact owned.placed found
  · intro one other e f first second
    rw [same] at first second
    exact owned.apart first second
  · rw [unchanged, standing, entry]
    rfl

section Calls

include cache

theorem leaves_entered (owned : g.Owned held) {limiters : C.Cache}
    (same : held limiters = held g.limiters) (host : Bytes) (lifetime now : Nat) :
    Leaves held g
      { g with
        made := g.made ++ [L.new g.limit]
        limiters := C.set limiters host g.made.length lifetime now }
      host (L.new g.limit, now + lifetime) := by
  have own := cache.set limiters host g.made.length lifetime now
  have others : ∀ other, other ≠ host →
      held (C.set limiters host g.made.length lifetime now) other = held g.limiters other := by
    intro other ne
    rw [cache.other limiters _ _ _ ne, same]
  -- The new place is past all places there were, so no other host has it.
  refine ⟨⟨?_, ?_⟩, rfl, ?_, ?_⟩
  · intro other e found
    rw [List.length_append, List.length_singleton]
    by_cases named : other = host
    · subst named
      rw [own] at found
      cases found
      exact Nat.lt_succ_self _
    · rw [others other named] at found
      exact Nat.lt_succ_of_lt (owned.placed found)
  · intro one other e f first second places
    by_cases named : one = host
    · subst named
      by_cases again : other = one
      · exact again.symm
      · rw [own] at first
        rw [others other again] at second
        cases first
        exact absurd places (owned.placed second).ne'
    · rw [others one named] at first
      by_cases again : other = host
      · subst again
        rw [own] at second
        cases second
        exact absurd places (owned.placed first).ne
      · rw [others other again] at second
        exact owned.apart first second places
  · simp [standing, own, limiterAt]
  · intro other ne
    unfold standing
    rw [others other ne]
    cases found : held g.limiters other with
    | none => rfl
    | some e => simp [limiterAt, List.getElem?_append_left (owned.placed found)]

/-- The limiter of a call is the one that is remembered, or a new one that is entered in the
cache. -/
theorem limiterOf_leaves (owned : g.Owned held) (host : Bytes) (now : Nat) :
    Leaves held g (g.limiterOf host now).2 host
      ((g.standing held host).current g.limit inclusive now) ∧
      held (g.limiterOf host now).2.limiters host = some ((g.limiterOf host now).1,
        ((g.standing held host).current g.limit inclusive now).2) := by
  have read := cache.read g.limiters host now
  have got := cache.get g.limiters host now
  obtain ⟨answer, limiters, get⟩ :
      ∃ answer limiters, C.get g.limiters host now = (answer, limiters) := ⟨_, _, rfl⟩
  rw [get] at read got
  dsimp only at read got
  subst got
  cases found : (held g.limiters host).filter fun e => remembered inclusive e.2 now with
  | none =>
    have forgotten : (g.standing held host).kept inclusive now = none := by
      rw [standing_kept, found, Option.map_none]
    rw [found, Option.map_none] at get
    simp only [limiterOf, get, Standing.current, forgotten, Option.getD_none]
    exact ⟨leaves_entered cache owned read host limiterLifetime now,
      cache.set limiters host g.made.length limiterLifetime now⟩
  | some e =>
    obtain ⟨entry, -⟩ := Option.filter_eq_some_iff.mp found
    have known : (g.standing held host).kept inclusive now = some (g.limiterAt e.1, e.2) := by
      rw [standing_kept, found, Option.map_some]
    rw [found, Option.map_some] at get
    simp only [limiterOf, get, Standing.current, known, Option.getD_some]
    exact ⟨leaves_read owned read entry, by rw [read, entry]⟩

theorem allow_leaves (owned : g.Owned held) (address : Option Bytes) (now : Nat) :
    (g.allow address now).1 =
        (L.ask ((g.standing held (remoteHost address)).current g.limit inclusive now).1 now).1 ∧
      Leaves held g (g.allow address now).2 (remoteHost address)
        ((g.standing held (remoteHost address)).next g.limit inclusive now) := by
  obtain ⟨found, entry⟩ := limiterOf_leaves cache owned (remoteHost address) now
  obtain ⟨place, after, call⟩ :
      ∃ place after, g.limiterOf (remoteHost address) now = (place, after) := ⟨_, _, rfl⟩
  rw [call] at found entry
  have limiter : after.limiterAt place =
      ((g.standing held (remoteHost address)).current g.limit inclusive now).1 := by
    have own := found.own
    rw [standing, entry, Option.map_some] at own
    exact congrArg Prod.fst (Option.some.inj own)
  have written := leaves_set found.owned entry
    (L.ask ((g.standing held (remoteHost address)).current g.limit inclusive now).1 now).2
  simp only [allow, call, limiter]
  exact ⟨trivial, written.owned, written.limit.trans found.limit, written.own,
    fun other ne => (written.others other ne).trans (found.others other ne)⟩

theorem makes_eq (g : Gate L C) (host : Bytes) (now : Nat) :
    (C.get g.limiters host now).1.isNone = ((g.standing held host).kept inclusive now).isNone := by
  rw [cache.get, standing_kept, Option.isNone_map, Option.isNone_map]

/-- The visits of a host are its course. -/
theorem visits_of_host (owned : g.Owned held) (host : Bytes) (attempts : List Attempt) :
    (g.visits attempts).filter (·.host = host) =
      (g.standing held host).course g.limit inclusive host (timesOf host attempts) := by
  induction attempts generalizing g with
  | nil => rfl
  | cons a rest ih =>
    obtain ⟨answer, left⟩ := allow_leaves cache owned a.address a.time
    have later := ih left.owned
    rw [left.limit] at later
    -- A call of another host leaves the standing of this one, and is not among its visits.
    by_cases own : remoteHost a.address = host
    · subst own
      rw [left.own] at later
      simp only [visits, List.filter_cons, decide_true, if_true, later, answer,
        makes_eq cache, timesOf, List.map_cons, Standing.course]
    · rw [left.others host (Ne.symm own)] at later
      simpa [visits, timesOf, own] using later

theorem owned_run (owned : g.Owned held) (attempts : List Attempt) :
    (g.run attempts).Owned held := by
  induction attempts generalizing g with
  | nil => exact owned
  | cons a rest ih => exact ih (allow_leaves cache owned a.address a.time).2.owned

theorem Reached.owned (reached : g.Reached) : g.Owned held := by
  obtain ⟨keys, limit, attempts, rfl⟩ := reached
  exact owned_run cache (owned_opened cache keys limit) attempts

theorem answer_eq (owned : g.Owned held) (attempts : List Attempt) (address : Option Bytes)
    (now : Nat) :
    some ((g.run attempts).allow address now).1 =
      ((g.standing held (remoteHost address)).course g.limit inclusive (remoteHost address)
        (timesOf (remoteHost address) attempts ++ [now])).getLast?.map Visit.admitted := by
  have all := visits_of_host cache owned (remoteHost address) (attempts ++ [⟨now, address⟩])
  rw [visits_append, List.filter_append] at all
  simp only [visits, timesOf, List.filter_append, List.filter_cons, decide_true, if_true,
    List.filter_nil, List.map_append, List.map_cons, List.map_nil] at all
  rw [timesOf, ← all, List.getLast?_concat]
  rfl

end Calls
end Gate
end CallScript
