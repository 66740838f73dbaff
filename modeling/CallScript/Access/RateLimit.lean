import CallScript.Number.Basic
import CallScript.Text.Bytes

/- How often a host may open a session is up to its limiter, and the limiters of all hosts are kept
   in a cache. How these two work is no matter of a gate: any kind of limiter and any kind of cache
   will do. Times are in nanoseconds. -/
namespace CallScript

structure Rate where ofNumber ::
  perSecond : Number
  deriving DecidableEq, Repr

structure RateLimit where
  rate : Rate
  burst : Int
  deriving DecidableEq, Repr

def nanosPerSecond : Nat := 1000000000

/-- A kind of limiter. A reservation is of one session, and it stands until it is cancelled, also if
the session has to be delayed for it. -/
structure LimiterKind where
  Limiter : Type
  Reservation : Type
  new : RateLimit → Limiter
  reserve : Limiter → (now : Nat) → Reservation × Limiter
  ok : Reservation → Bool
  delay : Reservation → (now : Nat) → Int
  cancel : Reservation → (now : Nat) → Limiter → Limiter

/-- A kind of cache, from hosts to the places of their limiters. An entry is set for a lifetime, and
reading it changes nothing about that. -/
structure CacheKind where
  Cache : Type
  empty : Cache
  get : Cache → (host : Bytes) → (now : Nat) → Option Nat × Cache
  set : Cache → (host : Bytes) → (place lifetime now : Nat) → Cache

def LimiterKind.ask (L : LimiterKind) (limiter : L.Limiter) (now : Nat) : Bool × L.Limiter :=
  let (reservation, limiter) := L.reserve limiter now
  if !L.ok reservation then (false, limiter)
  else if 0 < L.delay reservation now then (false, L.cancel reservation now limiter)
  else (true, limiter)

end CallScript
