import CallScript.Text.Quoted
import CallScript.Access.PublicKey
import CallScript.Access.Address
import CallScript.Access.Bucket

/- Who may open a session: the keys that are let in, and how often each host may come. A limiter is
   made for a host when it comes, and again when the cache has forgotten the last one. -/
namespace CallScript

structure Gate (L : LimiterKind := tokenBuckets) (C : CacheKind := expiringEntries) where
  keys : List PublicKey
  limit : RateLimit
  /-- Every limiter that was made. The cache has their places in this list. -/
  made : List L.Limiter
  limiters : C.Cache

structure KeyRejection where
  line : Bytes
  deriving DecidableEq, Repr

def KeyRejection.message (r : KeyRejection) : Bytes :=
  r.line.quote ++ utf8 ": serve.authorizedKeys contains an invalid public key"

def limiterLifetime : Nat := 60 * nanosPerSecond

namespace Gate

variable {L : LimiterKind} {C : CacheKind}

def opened (keys : List PublicKey) (limit : RateLimit) : Gate L C := ⟨keys, limit, [], C.empty⟩

def make (read? : Bytes → Option PublicKey) (lines : List Bytes) (limit : RateLimit) :
    Except KeyRejection (Gate L C) := do
  let keys ← lines.mapM fun line =>
    match read? line with
    | some key => .ok key
    | none => .error ⟨line⟩
  .ok (opened keys limit)

def new (lines : List Bytes) (limit : RateLimit) : Except KeyRejection Gate :=
  make PublicKey.read? lines limit

/-- Where no key is listed, every key is let in. -/
def admits (g : Gate L C) (key : PublicKey) : Bool := g.keys.isEmpty || g.keys.contains key

def limiterOf (g : Gate L C) (host : Bytes) (now : Nat) : Nat × Gate L C :=
  match C.get g.limiters host now with
  | (some place, limiters) => (place, { g with limiters })
  | (none, limiters) =>
    (g.made.length,
      { g with
        made := g.made ++ [L.new g.limit]
        limiters := C.set limiters host g.made.length limiterLifetime now })

def limiterAt (g : Gate L C) (place : Nat) : L.Limiter := g.made.getD place (L.new g.limit)

def allow (g : Gate L C) (address : Option Bytes) (now : Nat) : Bool × Gate L C :=
  let (place, g) := g.limiterOf (remoteHost address) now
  let (allowed, limiter) := L.ask (g.limiterAt place) now
  (allowed, { g with made := g.made.set place limiter })

end Gate
end CallScript
