import CallScript.Access.RateLimit

/- Limiters that are buckets of tokens, and a cache that is a list of entries. A bucket starts full
   and is refilled steadily; a reservation costs a token, which may have to flow in first. -/
namespace CallScript

/-- How buckets are refilled: by a ratio of tokens to seconds, without limit, or in a way that
cannot be told, in which case nobody waits. -/
inductive Refill where
  | steady (num den : Nat)
  | unlimited
  | unchecked
  deriving DecidableEq, Repr

def Refill.ofRate (rate : Rate) : Refill :=
  let x := rate.perSecond
  if x.isNaN then .unchecked
  else if x.isNegative then .steady 0 1
  else if x.isInfinite then .unlimited
  else .steady (x.significand * Nat.pow 2 (x.scale - 1074)) (Nat.pow 2 (1074 - x.scale))

/-- The level is in a unit that makes the refill of a nanosecond a whole number. It is negative
while tokens that have not flowed in are reserved. -/
structure Bucket where
  refill : Refill
  burst : Int
  level : Int
  last : Nat
  deriving DecidableEq, Repr

structure Promise where
  granted : Bool
  ready : Nat
  deriving DecidableEq, Repr

namespace Bucket

def token (den : Nat) : Int := den * nanosPerSecond

def new (limit : RateLimit) : Bucket :=
  let refill := Refill.ofRate limit.rate
  let level := match refill with
    | .steady _ den => limit.burst * token den
    | _ => 0
  ⟨refill, limit.burst, level, 0⟩

def levelAt (b : Bucket) (num den now : Nat) : Int :=
  min (b.level + ((now - b.last : Nat) * num : Nat)) (b.burst * token den)

def wait (num : Nat) (left : Int) : Nat := ((-left).toNat + num - 1) / num

def reserve (b : Bucket) (now : Nat) : Promise × Bucket :=
  match b.refill with
  | .unlimited => (⟨true, now⟩, b)
  | .unchecked => (⟨0 < b.burst, now⟩, b)
  | .steady num den =>
    let left := b.levelAt num den now - token den
    if 0 < b.burst && (0 ≤ left || 0 < num) then
      (⟨true, now + wait num left⟩, { b with level := left, last := now })
    else (⟨false, now⟩, b)

def cancel (now : Nat) (b : Bucket) : Bucket :=
  match b.refill with
  | .steady num den =>
    { b with
      level := min (b.levelAt num den now + token den) (b.burst * token den)
      last := now }
  | _ => b

end Bucket

def tokenBuckets : LimiterKind where
  Limiter := Bucket
  Reservation := Promise
  new := Bucket.new
  reserve := Bucket.reserve
  ok := Promise.granted
  delay promise now := promise.ready - now
  cancel _ := Bucket.cancel

def expiringEntries : CacheKind where
  Cache := List (Bytes × Nat × Nat)
  empty := []
  get entries host now := (((entries.lookup host).filter fun e => now ≤ e.2).map Prod.fst, entries)
  set entries host place lifetime now :=
    (host, place, now + lifetime) :: entries.filter (·.1 ≠ host)

end CallScript
