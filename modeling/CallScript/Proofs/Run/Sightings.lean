import CallScript.Proofs.Run.Prediction
import CallScript.Proofs.Run.ArgumentOrder

/- What matching has seen of the arguments. When a function accepts a call, each slot that asks for
   a shape has been compared at some moment with the shape that its argument had then: that of its
   cell if it had been evaluated, and otherwise the one that was predicted. -/
namespace CallScript

open Eval

variable {eval : Argument → Eval CellId} {args : List Argument} {m n : Machine}

def shapeAt (m : Machine) (args : List Argument) (known : List CellId) (i : Nat) : Option Shape :=
  match known[i]? with
  | some c => some (m.heap.get c).shape
  | none => args[i]?.bind (Matching.shape? m)

namespace Cached

variable {known : List CellId} {pending : List Pending} {i : Nat} {p : Pending}

theorem arg_eq (cached : Cached args known pending) (here : pending[i]? = some p) :
    args[i]? = some p.arg := by
  rw [← cached.arg, List.getElem?_map, here, Option.map_some]

theorem cell_eq (cached : Cached args known pending) (here : pending[i]? = some p) :
    p.cell = known[i]? := by
  have cell :
      some p.cell = (known.map some ++ List.replicate (args.length - known.length) none)[i]? := by
    rw [← cached.cell, List.getElem?_map, here, Option.map_some]
  by_cases below : i < known.length
  · rw [List.getElem?_append_left (by simpa using below), List.getElem?_map,
      List.getElem?_eq_getElem below] at cell
    rw [List.getElem?_eq_getElem below]
    exact Option.some.inj cell
  · rw [List.getElem?_append_right (by simpa using below), List.getElem?_replicate] at cell
    rw [List.getElem?_eq_none (Nat.le_of_not_lt below)]
    split at cell
    · exact Option.some.inj cell
    · cases cell

theorem now_eq (cached : Cached args known pending) (here : pending[i]? = some p) :
    p.now m = shapeAt m args known i := by
  rw [Pending.now, shapeAt, cached.cell_eq here, cached.arg_eq here]
  rfl

end Cached

/-- Evaluation of the arguments has gone on from one moment to another, and on the way an argument
had a shape. -/
def Seen (eval : Argument → Eval CellId) (args : List Argument) (m : Machine)
    (known new : List CellId) (n : Machine) (i : Nat) (t : Shape) : Prop :=
  ∃ first rest v, new = first ++ rest ∧
    Evaluations eval args (List.range' known.length first.length) m first v ∧
    Evaluations eval args (List.range' (known ++ first).length rest.length) v rest n ∧
    shapeAt v args (known ++ first) i = some t

theorem Evaluations.join {known before new : List CellId} {k : Machine}
    (first : Evaluations eval args (List.range' known.length before.length) m before k)
    (second : Evaluations eval args (List.range' (known ++ before).length new.length) k new n) :
    Evaluations eval args (List.range' known.length (before ++ new).length) m
      (before ++ new) n := by
  have joined := first.append second
  rwa [List.length_append, List.range'_append_1, ← List.length_append] at joined

theorem Seen.here {known new : List CellId} {i : Nat} {t : Shape}
    (evaluations : Evaluations eval args (List.range' known.length new.length) m new n)
    (shape : shapeAt m args known i = some t) : Seen eval args m known new n i t := by
  refine ⟨[], new, m, rfl, .done m, ?_, ?_⟩
  · rwa [List.append_nil]
  · rwa [List.append_nil]

theorem Seen.later {known before new : List CellId} {k : Machine} {i : Nat} {t : Shape}
    (evaluations : Evaluations eval args (List.range' known.length before.length) m before k)
    (seen : Seen eval args k (known ++ before) new n i t) :
    Seen eval args m known (before ++ new) n i t := by
  obtain ⟨first, rest, v, rfl, start, finish, shape⟩ := seen
  refine ⟨before ++ first, rest, v, by rw [List.append_assoc], ?_, ?_, ?_⟩
  · exact evaluations.join start
  · rwa [List.append_assoc] at finish
  · rwa [List.append_assoc] at shape

def Compared (eval : Argument → Eval CellId) (args : List Argument) (s : Signature) (position : Nat)
    (m : Machine) (known new : List CellId) (n : Machine) : Prop :=
  ∀ i t, position ≤ i → i < args.length → s.slot? i = some (.shape t) →
    Seen eval args m known new n i t

theorem Compared.next {s : Signature} {position : Nat} {known new : List CellId}
    (compared : Compared eval args s (position + 1) m known new n)
    (here : ∀ t, s.slot? position = some (.shape t) → Seen eval args m known new n position t) :
    Compared eval args s position m known new n := by
  intro i t le below slot
  by_cases same : i = position
  · subst same
    exact here t slot
  · exact compared i t (by omega) below slot

theorem accepts_evaluated {s : Signature} {left position : Nat} {pending out : List Pending}
    {p : Pending} {required : Shape} (found : s.slot? position = some (.shape required))
    (here : pending[position]? = some p) (untold : (p.shape? m).1 = none)
    (run : Matching.accepts eval s (left + 1) position pending m = .ok (true, out) n) :
    ∃ evaluated k q c, Matching.force eval s position 0 pending m = .ok evaluated k ∧
      evaluated[position]? = some q ∧ q.cell = some c ∧ (k.heap.get c).shape = required ∧
      Matching.accepts eval s left (position + 1) evaluated k = .ok (true, out) n := by
  rw [Matching.accepts_untold eval left found here untold] at run
  cases forced : Matching.force eval s position 0 pending m with
  | error e k =>
    rw [bind_error forced] at run
    cases run
  | ok evaluated k =>
    rw [bind_ok forced] at run
    cases cell : evaluated[position]?.bind Pending.cell with
    | none =>
      rw [cell] at run
      cases run
    | some c =>
      rw [cell, bind_ok (rfl : need (some c) k = .ok c k),
        bind_ok (rfl : contents c k = .ok (k.heap.get c) k)] at run
      obtain ⟨q, held, known⟩ := Option.bind_eq_some_iff.mp cell
      by_cases same : (k.heap.get c).shape = required
      · rw [if_pos same] at run
        exact ⟨evaluated, k, q, c, rfl, held, known, same, run⟩
      · rw [if_neg same] at run
        cases run

theorem accepts_seen {s : Signature} (settled : s.Settled) {left position : Nat}
    {known : List CellId} {pending out : List Pending} (whole : position + left = args.length)
    (matched : Matched args s known pending) (honest : ∀ p ∈ pending, p.Honest m)
    (run : Matching.accepts eval s left position pending m = .ok (true, out) n) :
    ∃ new, Evaluations eval args (List.range' known.length new.length) m new n ∧
      Matched args s (known ++ new) out ∧ Compared eval args s position m known new n := by
  induction left generalizing m position known pending with
  | zero =>
    cases run
    refine ⟨[], .done _, by rwa [List.append_nil], ?_⟩
    intro i t le below
    omega
  | succ left ih =>
    have next : position + 1 + left = args.length := by omega
    have inside : position < pending.length := by rw [matched.cached.length_eq]; omega
    obtain ⟨p, here⟩ : ∃ p, pending[position]? = some p := ⟨_, List.getElem?_eq_getElem inside⟩
    have sincere := honest p (List.mem_of_getElem? here)
    cases found : s.slot? position with
    | none =>
      rw [Matching.accepts, found] at run
      cases run
    | some slot =>
      by_cases free : ∀ shape, slot ≠ .shape shape
      · rw [Matching.accepts_unasked eval left found free] at run
        obtain ⟨new, evaluations, matched', compared⟩ := ih next matched honest run
        refine ⟨new, evaluations, matched', compared.next fun t asked => ?_⟩
        rw [found] at asked
        exact absurd (Option.some.inj asked) (free t)
      · obtain ⟨required, rfl⟩ : ∃ required, slot = .shape required := by simpa using free
        cases told : (p.shape? m).1 with
        | some shape =>
          rw [Matching.accepts_told eval left found here told] at run
          by_cases same : shape = required
          · rw [if_pos same] at run
            obtain ⟨arg, cell⟩ := p.asked_same m
            have kept : Matched args s known (pending.set position (p.shape? m).2) :=
              ⟨matched.cached.set here arg cell, matched.evaluated⟩
            obtain ⟨new, evaluations, matched', compared⟩ :=
              ih next kept (Pending.honest_set honest here) run
            refine ⟨new, evaluations, matched', compared.next fun t asked => .here evaluations ?_⟩
            rw [found] at asked
            cases asked
            rw [← matched.cached.now_eq here, ← sincere.shape_eq, told, same]
          · rw [if_neg same] at run
            cases run
        | none =>
          -- The argument had to be evaluated, perhaps with others before it. What is compared later
          -- is seen after these evaluations.
          obtain ⟨evaluated, k, q, c, forced, held, cell, same, run⟩ :=
            accepts_evaluated found here told run
          obtain ⟨_, before, _, start, rfl, matched'⟩ :=
            (prolongs_force settled found matched).ok forced
          have honest' := (Matching.honest_force eval).good forced
          obtain ⟨new, evaluations, matched'', compared⟩ :=
            ih next matched' (fun q member => honest' q member k) run
          have shape : shapeAt k args (known ++ before) position = some required := by
            rw [← matched'.cached.now_eq held, Pending.now, cell]
            exact congrArg some same
          refine ⟨before ++ new, start.join evaluations, by rwa [← List.append_assoc], ?_⟩
          apply Compared.next
          · exact fun i t le below slot => .later start (compared i t le below slot)
          · intro t asked
            rw [found] at asked
            cases asked
            exact .later start (.here evaluations shape)

theorem choose_seen {name : Name} {functions : List Function} {known : List CellId}
    {pending out : List Pending} {f : Function} (cached : Cached args known pending)
    (honest : ∀ p ∈ pending, p.Honest m)
    (first : ∀ g ∈ functions.head?, g.signature.Settled ∧ ∀ j < known.length,
      g.signature.slot? j ≠ some .raw)
    (others : ∀ g ∈ functions.tail, g.signature.Eager)
    (run : Matching.choose eval name functions pending m = .ok (f, out) n) :
    ∃ new, Evaluations eval args (List.range' known.length new.length) m new n ∧
      Matched args f.signature (known ++ new) out ∧
        Compared eval args f.signature 0 m known new n := by
  induction functions generalizing m known pending with
  | nil => cases run
  | cons g rest ih =>
    obtain ⟨settled, evaluated⟩ := first g rfl
    have size := cached.length_eq
    -- The other functions are eager, whatever has been evaluated before they are tried.
    have next : ∀ more : List CellId, ∀ h ∈ rest.head?, h.signature.Settled ∧
        ∀ j < more.length, h.signature.slot? j ≠ some .raw := by
      intro more h member
      have eager := others h (List.mem_of_mem_head? member)
      exact ⟨eager.settled, fun j _ => eager j⟩
    have last : ∀ h ∈ rest.tail, h.signature.Eager :=
      fun h member => others h (List.mem_of_mem_tail member)
    by_cases arity : g.signature.acceptsArity pending.length
    · cases accepted : Matching.accepts eval g.signature pending.length 0 pending m with
      | error e k =>
        rw [Matching.choose, if_pos arity, bind_error accepted] at run
        cases run
      | ok answer k =>
        obtain ⟨fits, tried⟩ := answer
        cases fits with
        | true =>
          rw [Matching.choose_accepted eval arity accepted] at run
          cases run
          exact accepts_seen settled (by omega) ⟨cached, evaluated⟩ honest accepted
        | false =>
          rw [Matching.choose_rejected eval arity accepted] at run
          obtain ⟨_, before, _, start, rfl, matched⟩ :=
            (prolongs_accepts settled ⟨cached, evaluated⟩).ok accepted
          have honest' := (Matching.honest_accepts eval _ honest).good accepted
          obtain ⟨new, evaluations, matched', compared⟩ :=
            ih matched.cached honest' (next _) last run
          refine ⟨before ++ new, start.join evaluations, by rwa [← List.append_assoc], ?_⟩
          exact fun i t le below slot => .later start (compared i t le below slot)
    · rw [Matching.choose_ruledOut eval arity] at run
      exact ih cached honest (next known) last run

/-- When a call has been matched, each slot that asks for a shape has been compared with its
argument. -/
theorem resolve_seen {inv : Invocation} {f : Function} {pending : List Pending}
    (grown : m.registry.Grown) (run : Matching.resolve eval inv m = .ok (f, pending) n) :
    ∃ first, Evaluations eval inv.args (List.range' 0 first.length) m first n ∧
      Matched inv.args f.signature first pending ∧
        Compared eval inv.args f.signature 0 m [] first n := by
  apply choose_seen (.initial inv.args) ?_ ?_ (grown.others_eager inv.name) run
  · intro p member
    obtain ⟨a, _, rfl⟩ := List.mem_map.mp member
    exact Pending.honest_ofArgument m a
  · intro g member
    exact ⟨grown.first_settled inv.name g member, by simp⟩

end CallScript
