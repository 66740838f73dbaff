import CallScript.Proofs.Run.Coupled
import CallScript.Proofs.Run.Footprint
import CallScript.Proofs.Run.Foresight
import CallScript.Proofs.Run.Sightings
import CallScript.Proofs.Run.Stability

/- What a typed parameter holds when the code of a function starts. Its argument had the declared
   type when the call was matched, but between that moment and the start of the code the other
   arguments may still be evaluated, and declared results are taken on trust. A parameter has its
   type unless one of these has changed it. -/
namespace CallScript

open Eval

theorem Heap.copy_shape (h : Heap) (d : Datum) : (h.copy d).1.shape = d.shape := by
  unfold copy copyWithin
  cases d with
  | list elements => rfl
  | _ => rfl

section Shapes

variable {settings : Settings} {fuel depth : Nat} {m n : Machine} {c : CellId}

def GoesTo (settings : Settings) (fuel depth : Nat) (a : Argument) (m : Machine) (f : Function) :
    Prop :=
  ∃ inv less pending k, a = .call inv.name inv.args ∧ fuel = less + 1 ∧
    Matching.resolve (evalArgument (evaluate settings less (depth + 1))) inv m = .ok (f, pending) k

theorem literal_run {eval : Invocation → Eval CellId} {value : Datum}
    (run : evalArgument eval (.literal value) m = .ok c n) :
    c = (m.heap.copy value).2.size ∧
      n = { m with heap := ((m.heap.copy value).2.alloc (m.heap.copy value).1).2 } := by
  cases run
  exact ⟨rfl, rfl⟩

theorem argument_shape {a : Argument} {t : Shape} (told : Matching.shape? m a = some t)
    (run : evalArgument (evaluate settings fuel depth) a m = .ok c n)
    (word : ∀ d, GoesTo settings fuel depth a m (.defined d) → d.signature.returns = .shape t →
      (n.heap.get c).shape = t) : (n.heap.get c).shape = t := by
  cases a with
  | literal value =>
    obtain ⟨rfl, rfl⟩ := literal_run run
    rw [Heap.get_alloc_self, Heap.copy_shape]
    rw [Matching.shape?] at told
    exact Option.some.inj told
  | ident name =>
    rw [Matching.shape?] at told
    obtain ⟨held, found, shape⟩ := Option.map_eq_some_iff.mp told
    cases (lookup_found found).symm.trans run
    exact shape
  | unknown tag => cases run
  | call name args =>
    cases fuel with
    | zero => cases run
    | succ less =>
      rw [Matching.shape?_call, ← Matching.predict_eq m ⟨name, args⟩] at told
      obtain ⟨result, predicted, shaped⟩ := Option.bind_eq_some_iff.mp told
      obtain ⟨f, pending, _, declared, _, chosen⟩ := Matching.resolve_predicted predicted
      obtain ⟨g, pending', k, resolved, dispatched⟩ := evaluate_ok run
      cases (chosen _).symm.trans resolved
      rw [ResultType.eq_shape shaped] at declared
      cases f with
      | defined d => exact word d ⟨⟨name, args⟩, less, pending, m, rfl, rfl, resolved⟩ declared
      | system s => exact builtin_result (by simp) declared dispatched
      | context s => exact builtin_result (by simp) declared dispatched

end Shapes

inductive Disturbed (eval : Argument → Eval CellId) (args : List Argument)
    (disturbs : Nat → Machine → CellId → Machine → Prop) : List Nat → Machine → Prop where
  | here {i : Nat} {a : Argument} {c : CellId} {rest : List Nat} {m n : Machine}
      (argument : args[i]? = some a)
    (run : eval a m = .ok c n) (disturbance : disturbs i m c n) :
      Disturbed eval args disturbs (i :: rest) m
  | later {i : Nat} {a : Argument} {c : CellId} {rest : List Nat} {m n : Machine}
      (argument : args[i]? = some a)
    (run : eval a m = .ok c n) (later : Disturbed eval args disturbs rest n) :
    Disturbed eval args disturbs (i :: rest) m

section Chains

variable {eval : Argument → Eval CellId} {args : List Argument} {m n : Machine}

theorem Disturbed.elim {positions : List Nat}
    (disturbed : Disturbed eval args (fun _ _ _ _ => False) positions m) : False := by
  induction disturbed with
  | here _ _ impossible => exact impossible
  | later _ _ _ ih => exact ih

/-- What each evaluation keeps, unless it disturbs, is kept from the first to the last. The cells
they give are some of all cells, from a position on. -/
theorem Evaluations.keep (disturbs : Nat → Machine → CellId → Machine → Prop)
    {P : Nat → Machine → Prop} {all cells : List CellId} {start : Nat}
    (kept : ∀ j a m c n, args[j]? = some a → all[j]? = some c → eval a m = .ok c n → P j m →
      P (j + 1) n ∨ disturbs j m c n)
    (evaluations : Evaluations eval args (List.range' start cells.length) m cells n)
    (part : cells <+: all.drop start) (before : P start m) :
    P (start + cells.length) n ∨
      Disturbed eval args disturbs (List.range' start cells.length) m := by
  induction cells generalizing start m with
  | nil =>
    cases evaluations
    exact Or.inl before
  | cons c rest ih =>
    rw [List.length_cons, List.range'_succ] at evaluations ⊢
    cases evaluations with
    | @next _ a _ _ _ _ k _ argument run later =>
      obtain ⟨others, split⟩ := part
      have here : all[start]? = some c := by
        rw [← List.head?_drop, ← split]
        rfl
      have tail : rest <+: all.drop (start + 1) := by
        refine ⟨others, ?_⟩
        rw [← List.tail_drop, ← split]
        rfl
      rcases kept start a m c k argument here run before with after | disturbs
      · rcases ih later tail after with finished | disturbed
        · left
          rwa [Nat.add_assoc, Nat.add_comm 1] at finished
        · exact Or.inr (.later argument run disturbed)
      · exact Or.inr (.here argument run disturbs)

end Chains

/-- What may happen to the argument at a position, which has a shape and ends up in a cell, while
the arguments of a call are evaluated: the evaluation of one argument is given by its position, the
machines before and after it, and its cell. -/
inductive Disturbs (settings : Settings) (fuel depth : Nat) (i : Nat) (arg : Argument) (c : CellId)
    (t : Shape) : Nat → Machine → CellId → Machine → Prop where
  /-- Before the argument is evaluated, a variable that it mentions gets another type, and with it
  the argument. -/
  | retyped {j : Nat} {m n : Machine} {e : CellId} (before : j < i) {name : Name}
      (mentioned : name ∈ arg.names)
    {u : Shape} (had : Matching.shape? m (.ident name) = some u)
    (lost : Matching.shape? n (.ident name) ≠ some u)
    (told : Matching.shape? m arg = some t) (untold : Matching.shape? n arg ≠ some t) :
    Disturbs settings fuel depth i arg c t j m e n
  /-- The argument goes to a defined function, which does not give what it declares. -/
  | broken {m n : Machine} {e : CellId} {d : Definition}
      (goes : GoesTo settings fuel depth arg m (.defined d))
    (declared : d.signature.returns = .shape t) (other : (n.heap.get e).shape ≠ t) :
    Disturbs settings fuel depth i arg c t i m e n
  /-- After the argument has been evaluated, a value of another type is stored in its cell, which is
  not that of a literal. -/
  | stored {j : Nat} {m n : Machine} {e : CellId} (after : i < j) (named : ∀ d, arg ≠ .literal d)
    (had : (m.heap.get c).shape = t) (lost : (n.heap.get c).shape ≠ t) :
    Disturbs settings fuel depth i arg c t j m e n

section Course

variable {settings : Settings} {fuel depth : Nat} {args : List Argument} {start m n : Machine}
  {i : Nat} {arg : Argument} {c : CellId} {t : Shape}

structure Underway (start : Machine) (args : List Argument) (m : Machine) : Prop where
  sound : m.Sound
  grown : start.heap.size ≤ m.heap.size
  finite : ∀ a ∈ args, a.Every (·.Within start.heap.size)

theorem Underway.next (underway : Underway start args m) {j : Nat} {a : Argument} {e : CellId}
    (argument : args[j]? = some a)
    (run : evalArgument (evaluate settings fuel depth) a m = .ok e n) :
    Underway start args n ∧ m.registry.Extends n.registry := by
  have member := List.mem_of_getElem? argument
  have grows :=
    (Discipline.obeyedBy_evalArgument
      (Discipline.obeyed_evaluate (R := soundness) settings fuel depth)
    a m underway.sound
      ((underway.finite a member).mono fun d within => within.mono underway.grown)).move
  have extended :=
    (Discipline.obeyedBy_evalArgument
      (Discipline.obeyed_evaluate (R := registration) settings fuel depth)
    a m trivial (Argument.every_of_all (fun _ => trivial) a)).move
  unfold after at grows extended
  rw [run] at grows extended
  exact ⟨⟨grows.sound, Nat.le_trans underway.grown grows.size_le, underway.finite⟩, extended⟩

/-- The argument has the shape: it is predicted until the argument is evaluated, and that of the
cell afterwards. -/
structure Shaped (start : Machine) (args : List Argument) (i : Nat) (arg : Argument) (c : CellId)
    (t : Shape) (j : Nat) (m : Machine) : Prop where
  underway : Underway start args m
  told : j ≤ i → Matching.shape? m arg = some t
  held : i < j → (m.heap.get c).shape = t

theorem Shaped.next {j : Nat} {a : Argument} {e : CellId} (shaped : Shaped start args i arg c t j m)
    (named : ∀ d, arg ≠ .literal d) (argument : args[j]? = some a) (own : j = i → a = arg ∧ e = c)
    (run : evalArgument (evaluate settings fuel depth) a m = .ok e n) :
    Shaped start args i arg c t (j + 1) n ∨ Disturbs settings fuel depth i arg c t j m e n := by
  obtain ⟨underway, extended⟩ := shaped.underway.next argument run
  rcases Nat.lt_trichotomy j i with before | same | later
  · -- The prediction stands unless a variable has changed.
    by_cases still : Matching.shape? n arg = some t
    · exact Or.inl ⟨underway, fun _ => still, fun beyond => by omega⟩
    · have told := shaped.told (Nat.le_of_lt before)
      have changed : ¬ Matching.KeepsTypes arg.names m n := fun kept =>
        still (Matching.shape?_kept shaped.underway.sound.registry.indexed extended arg kept told)
      unfold Matching.KeepsTypes at changed
      push Not at changed
      obtain ⟨name, mentioned, u, had, lost⟩ := changed
      exact Or.inr (.retyped before mentioned had lost told still)
  · obtain ⟨rfl, rfl⟩ := own same
    subst same
    by_cases shape : (n.heap.get e).shape = t
    · exact Or.inl ⟨underway, fun within => by omega, fun _ => shape⟩
    · have broken : ∃ d, GoesTo settings fuel depth a m (.defined d) ∧
          d.signature.returns = .shape t := by
        by_contra none
        push Not at none
        exact shape (argument_shape (shaped.told (Nat.le_refl _)) run fun d goes declared =>
          absurd declared (none d goes))
      obtain ⟨d, goes, declared⟩ := broken
      exact Or.inr (.broken goes declared shape)
  · have held := shaped.held later
    by_cases shape : (n.heap.get c).shape = t
    · exact Or.inl ⟨underway, fun within => by omega, fun _ => shape⟩
    · exact Or.inr (.stored later named held shape)

theorem Machine.Sound.secluded (sound : m.Sound) (d : Datum) :
    Machine.Confined (· ≠ m.heap.size) { m with heap := (m.heap.alloc d).2 } := by
  constructor
  · constructor
    · intro x e other refers
      by_cases old : x < m.heap.size
      · rw [Heap.Refers, Heap.get_alloc_old m.heap d old] at refers
        exact Nat.ne_of_lt (sound.heap.closed x e refers)
      · have outside : (m.heap.alloc d).2.size ≤ x := by
          rw [Heap.size_alloc]
          exact Nat.lt_of_le_of_ne (Nat.le_of_not_lt old) (Ne.symm other)
        rw [Heap.Refers, Heap.get_outside outside] at refers
        simp [Datum.cells] at refers
    · intro x outside
      simp only [Heap.size_alloc] at outside
      exact Nat.ne_of_gt outside
  · intro p bound
    exact Nat.ne_of_lt (sound.scope p bound)
  · intro f registered
    have within := sound.functions f registered
    cases f with
    | system _ => trivial
    | context _ => trivial
    | defined f =>
      constructor
      · intro p bound
        exact Nat.ne_of_lt (within.1 p bound)
      · intro inv member
        exact (within.2 inv member).mono fun d inside e held => Nat.ne_of_lt (inside e held)

structure Secluded (start : Machine) (args : List Argument) (i : Nat) (value : Datum) (c : CellId)
    (j : Nat) (m : Machine) : Prop where
  underway : Underway start args m
  held : i < j → (m.heap.get c).shape = value.shape ∧ start.heap.size ≤ c ∧ m.Confined (· ≠ c)

theorem Secluded.next {value : Datum} {j : Nat} {a : Argument} {e : CellId}
    (secluded : Secluded start args i value c j m) (argument : args[j]? = some a)
    (own : j = i → a = .literal value ∧ e = c)
    (run : evalArgument (evaluate settings fuel depth) a m = .ok e n) :
    Secluded start args i value c (j + 1) n := by
  obtain ⟨underway, _⟩ := secluded.underway.next argument run
  refine ⟨underway, fun evaluated => ?_⟩
  rcases Nat.lt_or_eq_of_le (Nat.le_of_lt_succ evaluated) with earlier | same
  · obtain ⟨shape, new, confined⟩ := secluded.held earlier
    have every : a.Every fun d => ∀ x ∈ d.cells, x ≠ c :=
      (secluded.underway.finite a (List.mem_of_getElem? argument)).mono fun d within x held =>
        Nat.ne_of_lt (Nat.lt_of_lt_of_le (within x held) new)
    have spares := (Discipline.obeyedBy_evalArgument
      (Discipline.obeyed_evaluate (R := confinement (· ≠ c)) settings fuel depth) a m
        confined every).move
    unfold after at spares
    rw [run] at spares
    exact ⟨by rw [spares.heap.same c (not_not_intro rfl), shape], new, spares.confined⟩
  · obtain ⟨rfl, rfl⟩ := own same.symm
    have within : value.Within m.heap.size := by
      have every := secluded.underway.finite _ (List.mem_of_getElem? argument)
      simp only [Argument.Every] at every
      exact every.mono secluded.underway.grown
    have copied := (secluded.underway.sound.adds_copy within).move
    obtain ⟨rfl, rfl⟩ := literal_run run
    refine ⟨by rw [Heap.get_alloc_self, Heap.copy_shape], ?_, copied.sound.secluded _⟩
    exact Nat.le_trans secluded.underway.grown copied.old.size_le

end Course

/-- How the arguments of a call are evaluated: some before a moment at which the call is being
matched, others before it has been matched, and the rest after that. -/
structure Course (settings : Settings) (eval : Argument → Eval CellId) (depth : Nat)
    (inv : Invocation) (f : Function) (start : Machine) (seen rest later : List CellId)
    (v n k : Machine) : Prop where
  before : Evaluations eval inv.args (List.range' 0 seen.length) start seen v
  matching : Evaluations eval inv.args (List.range' seen.length rest.length) v rest n
  preparing : Evaluations eval inv.args (List.range' (seen ++ rest).length later.length)
    (n.traced settings inv f depth) later k

def Course.Disturbed {settings : Settings} {eval : Argument → Eval CellId} {depth : Nat}
    {inv : Invocation} {f : Function} {start : Machine} {seen rest later : List CellId}
    {v n k : Machine} (_ : Course settings eval depth inv f start seen rest later v n k)
    (disturbs : Nat → Machine → CellId → Machine → Prop) : Prop :=
  CallScript.Disturbed eval inv.args disturbs (List.range' seen.length rest.length) v ∨
    CallScript.Disturbed eval inv.args disturbs (List.range' (seen ++ rest).length later.length)
      (n.traced settings inv f depth)

theorem Machine.traced_alike (m : Machine) (settings : Settings) (inv : Invocation) (f : Function)
    (depth : Nat) :
    m.Alike (m.traced settings inv f depth) := by
  unfold traced
  split
  · exact ⟨rfl, rfl, rfl⟩
  · exact ⟨rfl, rfl, rfl⟩

section Traced

variable {start m n : Machine} {args : List Argument} {i j : Nat} {arg : Argument} {c : CellId}
  {t : Shape}

theorem Underway.alike (underway : Underway start args m) (alike : m.Alike n) :
    Underway start args n := by
  obtain ⟨⟨heap, scope, registry, functions⟩, grown, finite⟩ := underway
  rw [alike.heap] at heap grown
  rw [alike.heap, alike.scope] at scope
  rw [alike.registry] at registry
  rw [alike.heap, alike.registry] at functions
  exact ⟨⟨heap, scope, registry, functions⟩, grown, finite⟩

theorem Shaped.alike (shaped : Shaped start args i arg c t j m) (alike : m.Alike n) :
    Shaped start args i arg c t j n := by
  obtain ⟨underway, told, held⟩ := shaped
  rw [Matching.shape?_alike alike] at told
  rw [alike.heap] at held
  exact ⟨underway.alike alike, told, held⟩

theorem Secluded.alike {value : Datum} (secluded : Secluded start args i value c j m)
    (alike : m.Alike n) :
    Secluded start args i value c j n := by
  refine ⟨secluded.underway.alike alike, fun evaluated => ?_⟩
  obtain ⟨shape, new, ⟨heap, scope, functions⟩⟩ := secluded.held evaluated
  rw [alike.heap] at shape heap
  rw [alike.scope] at scope
  rw [alike.registry] at functions
  exact ⟨shape, new, heap, scope, functions⟩

end Traced

namespace Course

variable {settings : Settings} {eval : Argument → Eval CellId} {depth : Nat} {inv : Invocation}
  {f : Function} {start : Machine} {seen rest later : List CellId} {v n k : Machine}

theorem keep (course : Course settings eval depth inv f start seen rest later v n k)
    (disturbs : Nat → Machine → CellId → Machine → Prop) {P : Nat → Machine → Prop}
    (kept : ∀ j a m c n, inv.args[j]? = some a → (seen ++ rest ++ later)[j]? = some c →
      eval a m = .ok c n → P j m → P (j + 1) n ∨ disturbs j m c n)
    (traced : ∀ j m n, m.Alike n → P j m → P j n) (moment : P seen.length v) :
    P (seen ++ rest ++ later).length k ∨ course.Disturbed disturbs := by
  have middle : rest <+: (seen ++ rest ++ later).drop seen.length := by simp
  have last : later <+: (seen ++ rest ++ later).drop (seen ++ rest).length := by simp
  rcases course.matching.keep disturbs kept middle moment with matched | disturbed
  · rw [← List.length_append] at matched
    rcases course.preparing.keep disturbs kept last
      (traced _ _ _ (n.traced_alike settings inv f depth) matched) with finished | disturbed
    · left
      rwa [← List.length_append] at finished
    · exact Or.inr (Or.inr disturbed)
  · exact Or.inr (Or.inl disturbed)

theorem invariant (course : Course settings eval depth inv f start seen rest later v n k)
    {P : Nat → Machine → Prop}
    (kept : ∀ j a m c n, inv.args[j]? = some a → (seen ++ rest ++ later)[j]? = some c →
      eval a m = .ok c n → P j m → P (j + 1) n)
    (traced : ∀ j m n, m.Alike n → P j m → P j n) (begins : P 0 start) :
    P seen.length v ∧ P (seen ++ rest ++ later).length k := by
  have step : ∀ j a m c n, inv.args[j]? = some a → (seen ++ rest ++ later)[j]? = some c →
      eval a m = .ok c n → P j m → P (j + 1) n ∨ False :=
    fun j a m c n argument cell run holds => Or.inl (kept j a m c n argument cell run holds)
  have part : seen <+: (seen ++ rest ++ later).drop 0 := by simp
  rcases course.before.keep (fun _ _ _ _ => False) step part begins with reached | disturbed
  · rw [Nat.zero_add] at reached
    rcases course.keep (fun _ _ _ _ => False) step traced reached with
      finished | disturbed | disturbed
    · exact ⟨reached, finished⟩
    · exact disturbed.elim.elim
    · exact disturbed.elim.elim
  · exact disturbed.elim.elim

end Course

theorem Evaluations.length_eq {eval : Argument → Eval CellId} {args : List Argument}
    {positions : List Nat} {cells : List CellId} {m n : Machine}
    (evaluations : Evaluations eval args positions m cells n) :
    positions.length = cells.length := by
  induction evaluations with
  | done => rfl
  | next _ _ _ ih => rw [List.length_cons, List.length_cons, ih]

theorem Arrival.received_some {a : Arrival} (plain : ∀ f given, a ≠ .context f given) :
    a.received = a.received.reduceOption.map some := by
  cases a with
  | system f cells => simp [received, List.reduceOption]
  | defined f cells => simp [received, List.reduceOption]
  | context f given => exact absurd rfl (plain f given)

theorem Registry.Grown.eager {r : Registry} (grown : r.Grown) {name : Name} {a : Arrival}
    (member : a.function ∈ r.candidates name) (plain : ∀ f given, a ≠ .context f given) :
    a.function.signature.Eager := by
  rcases grown.eager_or_context name member with eager | ⟨f, context⟩
  · exact eager
  · cases a with
    | context g given => exact absurd rfl (plain g given)
    | system g cells => cases context
    | defined g cells => cases context

/-- A call that has arrived at a function with a typed parameter has taken a course on which the
argument had the type at a moment. -/
theorem arrive_course {settings : Settings} {eval : Invocation → Eval CellId} {depth : Nat}
    {inv : Invocation} {m k : Machine} {a : Arrival} (grown : m.registry.Grown)
    (arrived : arrive settings eval depth inv m = .ok a k)
    (plain : ∀ f given, a ≠ .context f given) {i : Nat} {t : Shape} {c : CellId}
    (slot : a.function.signature.slot? i = some (.shape t))
    (passed : a.received[i]? = some (some c)) :
    i < inv.args.length ∧
      ∃ seen rest later v n, Course settings (evalArgument eval) depth inv a.function m seen rest
        later v n k ∧
        a.received = (seen ++ rest ++ later).map some ∧ shapeAt v inv.args seen i = some t := by
  cases resolved : Matching.resolve (evalArgument eval) inv m with
  | error e n =>
    unfold arrive at arrived
    rw [bind_error resolved] at arrived
    cases arrived
  | ok out n =>
    obtain ⟨f, pending⟩ := out
    rw [arrive_run resolved] at arrived
    obtain ⟨first, evaluations, matched, compared⟩ := resolve_seen grown resolved
    obtain ⟨_, _, _, _, rfl, member, _⟩ := (prolongs_resolve grown).ok resolved
    obtain ⟨positions, later, _, preparing, rfl, handed, _⟩ :=
      (sweeps_gather matched (grown.eager_or_context inv.name member)).ok arrived
    have eager := grown.eager member plain
    have positions_eq : positions = List.range' first.length later.length := by
      have all := handed.rest
      rw [List.filter_eq_self.mpr fun i _ => by simpa using eager i] at all
      have size := preparing.length_eq
      rw [all, List.length_range'] at size
      rw [all, size]
    rw [positions_eq] at preparing
    have received : a.received = (first ++ later).map some := by
      rw [a.received_some plain, handed.cells]
    have inside : i < inv.args.length := by
      have taken := congrArg List.length handed.taken
      simp only [List.length_map, List.length_range] at taken
      rw [← taken]
      exact (List.getElem?_eq_some_iff.mp passed).1
    obtain ⟨seen, rest, v, rfl, before, matching, shape⟩ := compared i t (Nat.zero_le i) inside slot
    exact ⟨inside, seen, rest, later, v, n, ⟨before, matching, preparing⟩, received, shape⟩

section Outcome

variable {settings : Settings} {fuel depth : Nat} {inv : Invocation} {f : Function}
  {start : Machine} {seen rest later : List CellId} {v n k : Machine} {i : Nat} {arg : Argument}
  {c : CellId} {t : Shape}
  (course : Course settings (evalArgument (evaluate settings fuel depth)) depth inv f start seen
    rest later v n k)
  (sound : start.Sound) (finite : ∀ a ∈ inv.args, a.Every (·.Within start.heap.size))
  (argument : inv.args[i]? = some arg) (cell : (seen ++ rest ++ later)[i]? = some c)
  (shape : shapeAt v inv.args seen i = some t)

include argument cell in
theorem own_position {j : Nat} {a : Argument} {e : CellId} (here : inv.args[j]? = some a)
    (held : (seen ++ rest ++ later)[j]? = some e) (same : j = i) : a = arg ∧ e = c := by
  subst same
  exact ⟨Option.some.inj (here.symm.trans argument), Option.some.inj (held.symm.trans cell)⟩

include course sound finite argument cell shape

theorem Course.shaped : Shaped start inv.args i arg c t seen.length v := by
  have underway := (course.invariant (P := fun _ m => Underway start inv.args m)
    (fun j a m e n here _ run underway => (underway.next here run).1)
      (fun j m n alike underway => underway.alike alike)
    ⟨sound, Nat.le_refl _, finite⟩).1
  refine ⟨underway, fun unknown => ?_, fun known => ?_⟩
  · rw [shapeAt, List.getElem?_eq_none unknown, argument] at shape
    exact shape
  · rw [List.append_assoc, List.getElem?_append_left known] at cell
    rw [shapeAt, cell] at shape
    exact Option.some.inj shape

theorem Course.literal_shape {value : Datum} (literal : arg = .literal value) :
    (k.heap.get c).shape = t := by
  have moment := course.shaped sound finite argument cell shape
  subst literal
  have start_secluded : Secluded start inv.args i value c 0 start :=
    ⟨⟨sound, Nat.le_refl _, finite⟩, fun none => absurd none (Nat.not_lt_zero i)⟩
  obtain ⟨before, finished⟩ := course.invariant
    (fun j a m e n here held run secluded =>
      secluded.next here (own_position argument cell here held) run)
    (fun j m n alike secluded => secluded.alike alike) start_secluded
  have same : value.shape = t := by
    rcases Nat.lt_or_ge i seen.length with known | unknown
    · rw [← (before.held known).1]
      exact moment.held known
    · have told := moment.told unknown
      rw [Matching.shape?] at told
      exact Option.some.inj told
  rw [(finished.held (List.getElem?_eq_some_iff.mp cell).1).1, same]

theorem Course.shape_or_disturbed :
    (k.heap.get c).shape = t ∨ course.Disturbed (Disturbs settings fuel depth i arg c t) := by
  by_cases literal : ∃ value, arg = .literal value
  · obtain ⟨value, literal⟩ := literal
    exact Or.inl (course.literal_shape sound finite argument cell shape literal)
  · rcases course.keep _ (fun j a m e n here held run shaped =>
        shaped.next (fun d same => literal ⟨d, same⟩) here (own_position argument cell here held)
          run)
      (fun j m n alike shaped => shaped.alike alike)
        (course.shaped sound finite argument cell shape)
      with finished | disturbed
    · exact Or.inl (finished.held (List.getElem?_eq_some_iff.mp cell).1)
    · exact Or.inr disturbed

end Outcome

/-- When a call arrives at a system function or a defined function with a parameter of some type,
the argument had this type at a moment while the call was being matched. The cell that is passed has
it too, unless an evaluation after that moment has changed the type of a variable that the argument
mentions, or that of the cell, or the argument went to a defined function that does not give what it
declares. A literal has its type in any case. -/
theorem typed_parameter_holds {m : Machine} (reached : Reached m) {scope : Scope}
    (inside : scope.Within m.heap.size) {inv : Invocation}
    (finite : inv.Every (·.Within m.heap.size)) (settings : Settings) (fuel depth : Nat)
    {a : Arrival} {k : Machine}
    (arrived : arrive settings (evaluate settings fuel depth) depth inv { m with scope } = .ok a k)
    (plain : ∀ f given, a ≠ .context f given) {i : Nat} {t : Shape} {c : CellId}
    (slot : a.function.signature.slot? i = some (.shape t))
    (passed : a.received[i]? = some (some c)) :
    ∃ arg seen rest later v n, inv.args[i]? = some arg ∧
      a.received = (seen ++ rest ++ later).map some ∧ shapeAt v inv.args seen i = some t ∧
      ((∃ d, arg = .literal d) → (k.heap.get c).shape = t) ∧
      ∃ course : Course settings (evalArgument (evaluate settings fuel depth)) depth inv a.function
        { m with scope }
          seen rest later v n k,
        (k.heap.get c).shape = t ∨ course.Disturbed (Disturbs settings fuel depth i arg c t) := by
  have sound : Machine.Sound { m with scope } := (reached.sound.withScope inside).sound
  obtain ⟨below, seen, rest, later, v, n, course, received, shape⟩ :=
    arrive_course sound.registry arrived plain slot passed
  obtain ⟨arg, argument⟩ : ∃ arg, inv.args[i]? = some arg := ⟨_, List.getElem?_eq_getElem below⟩
  have cell : (seen ++ rest ++ later)[i]? = some c := by
    rw [received, List.getElem?_map] at passed
    obtain ⟨e, found, same⟩ := Option.map_eq_some_iff.mp passed
    rwa [Option.some.inj same] at found
  have literals := Argument.everyOf_iff.mp finite
  refine ⟨arg, seen, rest, later, v, n, argument, received, shape, ?_, course,
    course.shape_or_disturbed sound literals argument cell shape⟩
  intro literal
  obtain ⟨value, literal⟩ := literal
  exact course.literal_shape sound literals argument cell shape literal

/-- `let(x, 1)`
`fn(f, num, return("a"))`
`fn(g, void, a, any, b, num, println(b))`
`fn(h, void, a, num, b, any, println(a))` -/
def typedFunctions : Program :=
  [⟨utf8 "let", [.ident (utf8 "x"), .literal (.number (.ofNat 1))]⟩,
    ⟨utf8 "fn",
      [.ident (utf8 "f"), .ident (utf8 "num"),
        .call (utf8 "return") [.literal (.string (utf8 "a"))]]⟩,
    ⟨utf8 "fn", [.ident (utf8 "g"), .ident (utf8 "void"), .ident (utf8 "a"), .ident (utf8 "any"),
      .ident (utf8 "b"), .ident (utf8 "num"), .call (utf8 "println") [.ident (utf8 "b")]]⟩,
    ⟨utf8 "fn", [.ident (utf8 "h"), .ident (utf8 "void"), .ident (utf8 "a"), .ident (utf8 "num"),
      .ident (utf8 "b"), .ident (utf8 "any"), .call (utf8 "println") [.ident (utf8 "a")]]⟩]

def typedMachine : Machine :=
  ((Interpreter.new 0 false (.ofInput [])).execute 6 .endless typedFunctions).2.machine

theorem typedMachine_reached : Reached typedMachine := by
  have hosted := Interpreter.Hosted.new 0 false (.ofInput [])
  exact .between (hosted.execute 6 .endless typedFunctions (by
    simp [typedFunctions, Invocation.Every, Argument.EveryOf, Argument.Every, Datum.Within,
      Datum.cells]))

structure Arrives (inv : Invocation) (i : Nat) (shape : Shape) (a : Arrival) (k : Machine)
    (c : CellId) : Prop where
  arrived : arrive ⟨none, false⟩ (evaluate ⟨none, false⟩ 6 1) 1 inv typedMachine = .ok a k
  defined : ∃ f cells, a = .defined f cells
  slot : a.function.signature.slot? i = some (.shape .number)
  passed : a.received[i]? = some (some c)
  shape : (k.heap.get c).shape = shape

def Arrival.passes (i : Nat) (shape : Shape) : Arrival → Machine → Bool
  | .defined f cells, m =>
    f.signature.slot? i == some (.shape .number) && cells[i]?.any fun c =>
      (m.heap.get c).shape == shape
  | _, _ => false

theorem arrives_of_test {inv : Invocation} {i : Nat} {shape : Shape}
    (passes : yields (Arrival.passes i shape)
      (arrive ⟨none, false⟩ (evaluate ⟨none, false⟩ 6 1) 1 inv) typedMachine) :
    ∃ a k c, Arrives inv i shape a k c := by
  obtain ⟨a, k, run, passes⟩ := ok_of_yields passes
  cases a with
  | system f cells => cases passes
  | context f given => cases passes
  | defined f cells =>
    obtain ⟨slot, held⟩ := Bool.and_eq_true_iff.mp passes
    cases found : cells[i]? with
    | none =>
      rw [found] at held
      cases held
    | some c =>
      rw [found] at held
      exact ⟨_, k, c, run, ⟨f, cells, rfl⟩, eq_of_beq slot, by simp [Arrival.received, found],
        eq_of_beq held⟩

theorem Arrives.plain {inv : Invocation} {i : Nat} {shape : Shape} {a : Arrival} {k : Machine}
    {c : CellId} (arrives : Arrives inv i shape a k c) : ∀ f given, a ≠ .context f given := by
  obtain ⟨f, cells, rfl⟩ := arrives.defined
  simp

/-- With `g(let(x, "a"), 7)` the literal is passed as a number; with `h(x, =(x, "a"))` the variable
is disturbed. -/
theorem typed_parameter_holds_rebound :
    (∃ a k c,
      Arrives ⟨utf8 "g", [.call (utf8 "let") [.ident (utf8 "x"), .literal (.string (utf8 "a"))],
        .literal (.number (.ofNat 7))]⟩ 1 .number a k c ∧ (k.heap.get c).shape = .number) ∧
      ∃ f seen rest later v n k c, ∃ course : Course ⟨none, false⟩
        (evalArgument (evaluate ⟨none, false⟩ 6 1)) 1
          ⟨utf8 "h",
            [.ident (utf8 "x"), .call (utf8 "=")
              [.ident (utf8 "x"), .literal (.string (utf8 "a"))]]⟩ f
          typedMachine seen rest later v n k,
        course.Disturbed (Disturbs ⟨none, false⟩ 6 1 0 (.ident (utf8 "x")) c .number) := by
  have reached := typedMachine_reached
  constructor
  · obtain ⟨a, k, c, arrives⟩ : ∃ a k c, Arrives ⟨utf8 "g", [.call (utf8 "let") [.ident (utf8 "x"),
        .literal (.string (utf8 "a"))], .literal (.number (.ofNat 7))]⟩ 1 .number a k c :=
      arrives_of_test (by decide +kernel)
    have arrived := arrives.arrived
    -- The theorem sets the scope of its machine, and on a variable that is the machine again
    -- without evaluating it.
    generalize typedMachine = m at reached arrived
    obtain ⟨arg, _, _, _, _, _, argument, _, _, literal, _⟩ :=
      typed_parameter_holds reached reached.sound.scope
      (by simp [Invocation.Every, Argument.EveryOf, Argument.Every, Datum.Within, Datum.cells])
        ⟨none, false⟩ 6 1
      arrived arrives.plain arrives.slot arrives.passed
    cases argument
    exact ⟨a, k, c, arrives, literal ⟨_, rfl⟩⟩
  · obtain ⟨a, k, c, arrives⟩ : ∃ a k c, Arrives ⟨utf8 "h", [.ident (utf8 "x"),
        .call (utf8 "=") [.ident (utf8 "x"), .literal (.string (utf8 "a"))]]⟩ 0 .string a k c :=
      arrives_of_test (by decide +kernel)
    have arrived := arrives.arrived
    generalize typedMachine = m at reached arrived ⊢
    obtain ⟨arg, seen, rest, later, v, n, argument, _, _, _, course, outcome⟩ :=
      typed_parameter_holds reached reached.sound.scope
        (by simp [Invocation.Every, Argument.EveryOf, Argument.Every, Datum.Within, Datum.cells])
          ⟨none, false⟩ 6 1
        arrived arrives.plain arrives.slot arrives.passed
    cases argument
    rcases outcome with same | disturbed
    · rw [arrives.shape] at same
      cases same
    · exact ⟨a.function, seen, rest, later, v, n, k, c, course, disturbed⟩

/-- A typed parameter can start with a value of another type: the result of a function that breaks
its word, a variable that is bound again before it is looked up, and one that is assigned after
that. -/
theorem typed_parameter_mistyped :
    Reached typedMachine ∧
      (∃ a k c, Arrives ⟨utf8 "g", [.literal .unit, .call (utf8 "f") []]⟩ 1 .string a k c) ∧
      (∃ a k c,
        Arrives ⟨utf8 "g", [.call (utf8 "let") [.ident (utf8 "x"), .literal (.string (utf8 "a"))],
        .ident (utf8 "x")]⟩ 1 .string a k c) ∧
      ∃ a k c, Arrives ⟨utf8 "h", [.ident (utf8 "x"),
        .call (utf8 "=") [.ident (utf8 "x"), .literal (.string (utf8 "a"))]]⟩ 0 .string a k c := by
  refine ⟨typedMachine_reached, ?_, ?_, ?_⟩
  · exact arrives_of_test (by decide +kernel)
  · exact arrives_of_test (by decide +kernel)
  · exact arrives_of_test (by decide +kernel)

end CallScript
