import CallScript.Proofs.Run.Builtins
import CallScript.Proofs.Run.Prediction
import CallScript.Proofs.Run.ArgumentOrder

/- Prediction and matching agree. Where a result is predicted, matching finds a function that
   declares it without evaluating anything; where none is, matching fails or begins by evaluating an
   argument. What is predicted of a call to a built-in function is what the call gives. -/
namespace CallScript

open Eval

namespace Matching

variable {m : Machine} {args : List Argument} {pending : List Pending}

structure Untouched (m : Machine) (args : List Argument) (pending : List Pending) : Prop where
  arg : pending.map Pending.arg = args
  cell : ∀ p ∈ pending, p.cell = none
  honest : ∀ p ∈ pending, p.Honest m

theorem untouched_initial (m : Machine) (args : List Argument) :
    Untouched m args (args.map .ofArgument) := by
  constructor
  · simp [Pending.ofArgument, Function.comp_def]
  · intro p member
    obtain ⟨a, _, rfl⟩ := List.mem_map.mp member
    rfl
  · intro p member
    obtain ⟨a, _, rfl⟩ := List.mem_map.mp member
    exact Pending.honest_ofArgument m a

theorem Untouched.asked (untouched : Untouched m args pending) {p : Pending}
    (member : p ∈ pending) : (p.shape? m).1 = shape? m p.arg := by
  rw [(untouched.honest p member).shape_eq, Pending.now, untouched.cell p member]

theorem Untouched.shapes (untouched : Untouched m args pending) :
    pending.map (fun p => (p.shape? m).1) = args.map (shape? m) := by
  rw [← untouched.arg, List.map_map]
  exact List.map_congr_left fun p member => untouched.asked member

theorem Untouched.set (untouched : Untouched m args pending) {position : Nat} {p : Pending}
    (found : pending[position]? = some p) :
    Untouched m args (pending.set position (p.shape? m).2) := by
  have member := List.mem_of_getElem? found
  obtain ⟨arg, cell⟩ := p.asked_same m
  constructor
  · rw [map_set_same found arg, untouched.arg]
  · intro q held
    rcases List.mem_or_eq_of_mem_set held with held | rfl
    · exact untouched.cell q held
    · rw [cell]
      exact untouched.cell p member
  · exact Pending.honest_set untouched.honest found

def Retains (before after : List Pending) : Prop :=
  ∀ (i : Nat) (c : CellId), before[i]?.bind Pending.cell = some c →
    after[i]?.bind Pending.cell = some c

theorem Retains.trans {first second third : List Pending} (before : Retains first second)
    (after : Retains second third) : Retains first third :=
  fun i c known => after i c (before i c known)

theorem Retains.cons {p q : Pending} {before after : List Pending}
    (first : ∀ c, p.cell = some c → q.cell = some c) (others : Retains before after) :
    Retains (p :: before) (q :: after) := by
  intro i c known
  cases i with
  | zero => exact first c known
  | succ i => exact others i c known

theorem retains_set {position : Nat} {p q : Pending} (found : pending[position]? = some p)
    (same : q.cell = p.cell) : Retains pending (pending.set position q) := by
  intro i c known
  by_cases here : position = i
  · subst here
    obtain ⟨inside, rfl⟩ := List.getElem?_eq_some_iff.mp found
    rw [List.getElem?_set_self inside, Option.bind_some, same]
    rwa [found] at known
  · rwa [List.getElem?_set_ne here]

theorem retains_forget (pending : List Pending) : Retains pending (pending.map Pending.forget) := by
  intro i c known
  rw [List.getElem?_map]
  cases found : pending[i]? with
  | none =>
    rw [found] at known
    cases known
  | some p =>
    rw [found] at known
    exact known

section Cells

variable {eval : Argument → Eval CellId} {s : Signature}

abbrev Retaining {α : Type} (pending : List Pending) (view : α → List Pending) (x : Eval α)
    (m : Machine) : Prop :=
  Keeps (fun _ _ => True) (fun out _ => Retains pending (view out)) x m

theorem retaining_bind {α β : Type} {view : α → List Pending} {next : β → List Pending} {x : Eval α}
    {f : α → Eval β} (first : Retaining pending view x m)
    (rest : ∀ a n, Retaining (view a) next (f a) n) :
    Retaining pending next (x >>= f) m := by
  apply Keeps.bind (fun _ _ _ _ _ => trivial) first
  intro a n _ retains
  exact (rest a n).imp fun b _ _ later => retains.trans later

theorem retaining_force {last position : Nat} :
    Retaining pending id (force eval s last position pending) m := by
  induction pending generalizing m position with
  | nil => exact keeps_pure trivial fun _ _ known => known
  | cons p rest ih =>
    -- The first argument keeps its cell, and so do the others.
    have goOn : ∀ (q : Pending) n, (∀ c, p.cell = some c → q.cell = some c) →
        Retaining (p :: rest) id
          (do let rest ← force eval s last (position + 1) rest; return q :: rest) n := by
      intro q n same
      apply Keeps.bind (fun _ _ _ _ _ => trivial) ih
      intro out k _ retains
      exact keeps_pure trivial (Retains.cons same retains)
    simp only [force]
    split
    · exact keeps_pure trivial (retains_forget _)
    · split
      · exact goOn _ m fun _ same => same
      · rename_i cell _
        apply Keeps.bind (fun _ _ _ _ _ => trivial) (keeps_any _ m)
        intro c n _ _
        refine goOn _ n fun e same => ?_
        rw [cell] at same
        cases same
      · exact keeps_throw trivial
      · exact goOn _ m fun _ same => same

theorem retaining_accepts {left position : Nat} :
    Retaining pending Prod.snd (accepts eval s left position pending) m := by
  induction left generalizing m position pending with
  | zero => exact keeps_pure trivial fun _ _ known => known
  | succ left ih =>
    simp only [accepts]
    apply Keeps.bind (fun _ _ _ _ _ => trivial) (keeps_any _ m)
    intro slot n _ _
    split
    · apply Keeps.bind (fun _ _ _ _ _ => trivial)
        (keeps_need (fun p _ => pending[position]? = some p) trivial fun p found => found)
      intro p k _ found
      apply keeps_get
      split
      · rename_i shape q asked
        have retains : Retains pending (pending.set position q) := by
          have same := (p.asked_same k).2
          rw [asked] at same
          exact retains_set found same
        split
        · exact ih.imp fun _ _ _ later => retains.trans later
        · exact keeps_pure trivial retains
      · apply retaining_bind retaining_force
        intro out j
        apply Keeps.bind (fun _ _ _ _ _ => trivial) (keeps_any _ j)
        intro c i _ _
        apply keeps_contents
        split
        · exact ih
        · exact keeps_pure trivial fun _ _ known => known
    · exact ih

theorem retaining_choose {name : Name} {functions : List Function} :
    Retaining pending Prod.snd (choose eval name functions pending) m := by
  induction functions generalizing m pending with
  | nil => exact keeps_get (keeps_fail trivial)
  | cons f rest ih =>
    simp only [choose]
    split
    · apply retaining_bind retaining_accepts
      intro out n
      split
      · exact keeps_pure trivial fun _ _ known => known
      · exact ih
    · exact ih

end Cells

/-- Whatever the evaluator, the computation is the evaluation of an argument, at the machine it
starts on, and what comes after it. In the end the cell that the argument gave is known. -/
def Begins {α : Type} (args : List Argument) (view : α → List Pending)
    (x : (Argument → Eval CellId) → Eval α) (m : Machine) : Prop :=
  ∃ (i : Nat) (a : Argument) (rest : (Argument → Eval CellId) → CellId → Eval α),
    args[i]? = some a ∧ ∀ eval, x eval m = (eval a >>= rest eval) m ∧
      ∀ c n, Keeps (fun _ _ => True) (fun out _ => (view out)[i]?.bind Pending.cell = some c)
        (rest eval c) n

theorem Begins.bind {α β : Type} {view : α → List Pending} {next : β → List Pending}
    {x : (Argument → Eval CellId) → Eval α} {f : (Argument → Eval CellId) → α → Eval β}
    (begins : Begins args view x m) (later : ∀ eval a n, Retaining (view a) next (f eval a) n) :
    Begins args next (fun eval => x eval >>= f eval) m := by
  obtain ⟨i, a, rest, argument, first⟩ := begins
  refine ⟨i, a, fun eval c => rest eval c >>= f eval, argument, fun eval => ?_⟩
  obtain ⟨start, known⟩ := first eval
  constructor
  · rw [← bind_assoc]
    exact bind_same start (f eval)
  · intro c n
    apply Keeps.bind (fun _ _ _ _ _ => trivial) (known c n)
    intro out k _ here
    exact (later eval out k).imp fun _ _ _ retains => retains i c here

theorem begins_force {s : Signature} {last position : Nat} (cell : ∀ p ∈ pending, p.cell = none)
    (slots : ∀ i ≤ last, (s.slot? i).isSome) (taken : s.slot? last ≠ some .raw)
    (inside : position ≤ last) (long : last < position + pending.length) :
    Begins (pending.map Pending.arg) id (fun eval => force eval s last position pending) m := by
  induction pending generalizing position with
  | nil =>
    rw [List.length_nil] at long
    omega
  | cons p rest ih =>
    have unknown := cell p List.mem_cons_self
    have within : ¬ last < position := by omega
    obtain ⟨slot, found⟩ := Option.isSome_iff_exists.mp (slots position inside)
    by_cases raw : slot = .raw
    · rw [raw] at found
      -- The argument at `last` is not raw, so this one is passed over and another comes first.
      have before : position + 1 ≤ last := by
        rcases Nat.lt_or_eq_of_le inside with less | same
        · exact less
        · rw [same] at found
          exact absurd found taken
      have beyond : last < position + 1 + rest.length := by
        rw [List.length_cons] at long
        omega
      obtain ⟨i, a, after, argument, first⟩ :=
        ih (fun q member => cell q (List.mem_cons_of_mem p member)) before beyond
      refine ⟨i + 1, a, fun eval c => after eval c >>= fun out => pure (p.forget :: out), argument,
        fun eval => ?_⟩
      obtain ⟨start, known⟩ := first eval
      constructor
      · rw [← bind_assoc]
        simp only [force, within, if_false, unknown, found]
        exact bind_same start _
      · intro c n
        apply Keeps.bind (fun _ _ _ _ _ => trivial) (known c n)
        intro out k _ here
        exact keeps_pure trivial here
    · refine ⟨0, p.arg, fun eval c => force eval s last (position + 1) rest >>= fun out =>
        pure ({ p.forget with cell := some c } :: out), rfl, fun eval => ?_⟩
      constructor
      · simp only [force, within, if_false, unknown, found]
      · intro c n
        apply Keeps.bind (fun _ _ _ _ _ => trivial) (keeps_any _ n)
        intro out k _ _
        exact keeps_pure trivial rfl

/-- What matching a signature with untouched arguments comes to, by the verdict on their shapes. -/
def Follows (m : Machine) (args : List Argument)
    (x : (Argument → Eval CellId) → Eval (Bool × List Pending)) :
    Verdict → Prop
  | .accepted => ∃ out, Untouched m args out ∧ ∀ eval, x eval m = .ok (true, out) m
  | .rejected => ∃ out, Untouched m args out ∧ ∀ eval, x eval m = .ok (false, out) m
  | .undecided => Begins args Prod.snd x m

theorem Begins.of_run {α : Type} {view : α → List Pending} {x y : (Argument → Eval CellId) → Eval α}
    (begins : Begins args view y m) (same : ∀ eval, x eval m = y eval m) :
    Begins args view x m := by
  obtain ⟨i, a, rest, argument, first⟩ := begins
  refine ⟨i, a, rest, argument, fun eval => ?_⟩
  rw [same eval]
  exact first eval

theorem Follows.of_run {x y : (Argument → Eval CellId) → Eval (Bool × List Pending)}
    {verdict : Verdict} (follows : Follows m args y verdict) (same : ∀ eval, x eval m = y eval m) :
    Follows m args x verdict := by
  cases verdict with
  | accepted =>
    obtain ⟨out, untouched, run⟩ := follows
    exact ⟨out, untouched, fun eval => (same eval).trans (run eval)⟩
  | rejected =>
    obtain ⟨out, untouched, run⟩ := follows
    exact ⟨out, untouched, fun eval => (same eval).trans (run eval)⟩
  | undecided => exact Begins.of_run follows same

theorem Untouched.getElem {position : Nat} (untouched : Untouched m args pending)
    (inside : position < args.length) :
    ∃ p, pending[position]? = some p ∧ args[position] = p.arg ∧
      (p.shape? m).1 = shape? m p.arg := by
  have size : position < pending.length := by rwa [← untouched.arg, List.length_map] at inside
  refine ⟨pending[position], List.getElem?_eq_getElem size, ?_,
    untouched.asked (List.getElem_mem size)⟩
  simp only [← untouched.arg, List.getElem_map]

theorem accepts_follows {s : Signature} (arity : s.acceptsArity args.length) {left position : Nat}
    (whole : position + left = args.length) (untouched : Untouched m args pending) :
    Follows m args (fun eval => accepts eval s left position pending)
      (s.judge position ((args.drop position).map (shape? m))) := by
  induction left generalizing position pending with
  | zero =>
    rw [List.drop_eq_nil_of_le (by omega)]
    exact ⟨pending, untouched, fun eval => rfl⟩
  | succ left ih =>
    have inside : position < args.length := by omega
    have next : position + 1 + left = args.length := by omega
    obtain ⟨slot, found⟩ := Option.isSome_iff_exists.mp (Signature.slot?_isSome arity inside)
    obtain ⟨p, here, argument, asked⟩ := untouched.getElem inside
    rw [List.drop_eq_getElem_cons inside, List.map_cons, argument]
    simp only [Signature.judge, found]
    cases slot with
    | raw =>
      exact (ih next untouched).of_run fun eval => by rw [accepts_unasked eval left found (by simp)]
    | any =>
      exact (ih next untouched).of_run fun eval => by rw [accepts_unasked eval left found (by simp)]
    | shape required =>
      cases told : shape? m p.arg with
      | none =>
        -- The arguments up to this one are evaluated now.
        refine Follows.of_run ?_ fun eval => accepts_untold eval left found here (asked.trans told)
        have size : args.length = pending.length := by rw [← untouched.arg, List.length_map]
        have begins := begins_force (m := m) untouched.cell
          (fun i le => Signature.slot?_isSome arity (Nat.lt_of_le_of_lt le inside))
            (by simp [found])
          (Nat.zero_le position) (by omega)
        rw [untouched.arg] at begins
        refine begins.bind fun eval out n => ?_
        apply Keeps.bind (fun _ _ _ _ _ => trivial) (keeps_any _ n)
        intro c k _ _
        apply keeps_contents
        split
        · exact retaining_accepts
        · exact keeps_pure trivial fun _ _ known => known
      | some shape =>
        have step := fun eval => accepts_told eval left found here (asked.trans told)
        by_cases same : shape = required
        · simp only [if_pos same] at step ⊢
          exact (ih next (untouched.set here)).of_run step
        · simp only [if_neg same] at step ⊢
          exact ⟨_, untouched.set here, step⟩

def Decides (m : Machine) (name : Name) (args : List Argument)
    (x : (Argument → Eval CellId) → Eval (Function × List Pending)) : Option Function → Prop
  | none =>
    ∀ eval, x eval m = .error (.failed (.raise (.functionNotFound name (args.map (shape? m))))) m
  | some f =>
    if f.signature.verdict (args.map (shape? m)) = .accepted then
      ∃ out, Untouched m args out ∧ ∀ eval, x eval m = .ok (f, out) m
    else Begins args Prod.snd x m

theorem Decides.of_run {name : Name}
    {x y : (Argument → Eval CellId) → Eval (Function × List Pending)}
    {contender : Option Function} (decides : Decides m name args y contender)
    (same : ∀ eval, x eval m = y eval m) : Decides m name args x contender := by
  cases contender with
  | none => exact fun eval => (same eval).trans (decides eval)
  | some f =>
    by_cases accepted : f.signature.verdict (args.map (shape? m)) = .accepted
    · simp only [Decides, if_pos accepted, same] at decides ⊢
      exact decides
    · simp only [Decides, if_neg accepted] at decides ⊢
      exact decides.of_run same

theorem choose_decides {name : Name} {functions : List Function}
    (untouched : Untouched m args pending) :
    Decides m name args (fun eval => choose eval name functions pending)
      (contender? functions (args.map (shape? m))) := by
  induction functions generalizing pending with
  | nil =>
    intro eval
    rw [← untouched.shapes]
    rfl
  | cons f rest ih =>
    have size : args.length = pending.length := by rw [← untouched.arg, List.length_map]
    by_cases arity : f.signature.acceptsArity args.length
    · have follows := accepts_follows arity (Nat.zero_add _) untouched
      have verdict : f.signature.verdict (args.map (shape? m)) =
          f.signature.judge 0 ((args.drop 0).map (shape? m)) := by
        rw [Signature.verdict, List.length_map, if_pos arity, List.drop_zero]
      rw [← verdict, size] at follows
      rw [size] at arity
      cases judged : f.signature.verdict (args.map (shape? m)) with
      | accepted =>
        rw [judged] at follows
        obtain ⟨out, untouched, run⟩ := follows
        rw [contender?_first (by simp [judged])]
        simp only [Decides, if_pos judged]
        exact ⟨out, untouched, fun eval => choose_accepted eval arity (run eval)⟩
      | rejected =>
        rw [judged] at follows
        obtain ⟨out, untouched, run⟩ := follows
        rw [contender?_ruledOut judged]
        exact (ih untouched).of_run fun eval => choose_rejected eval arity (run eval)
      | undecided =>
        rw [judged] at follows
        rw [contender?_first (by simp [judged])]
        simp only [Decides, judged, reduceCtorEq, if_false, choose, if_pos arity]
        -- Whatever function is found in the end, an evaluation comes first.
        apply Begins.bind follows
        intro eval out n
        split
        · exact keeps_pure trivial fun _ _ known => known
        · exact retaining_choose
    · rw [contender?_ruledOut (by rw [Signature.verdict, List.length_map, if_neg arity])]
      rw [size] at arity
      exact (ih untouched).of_run fun eval => by rw [choose_ruledOut eval arity]

theorem resolve_decides (m : Machine) (inv : Invocation) :
    Decides m inv.name inv.args (fun eval => resolve eval inv)
      (contender? (m.registry.candidates inv.name) (inv.args.map (shape? m))) :=
  (choose_decides (untouched_initial m inv.args)).of_run fun _ => rfl

/-- Where a result is predicted, the call is matched without evaluating anything. -/
theorem resolve_predicted {inv : Invocation} {result : ResultType}
    (predicted : predict m inv = some result) :
    ∃ f out, f ∈ m.registry.candidates inv.name ∧ f.signature.returns = result ∧
      Untouched m inv.args out ∧ ∀ eval, resolve eval inv m = .ok (f, out) m := by
  rw [predict_eq] at predicted
  obtain ⟨f, contender, promised⟩ := Option.bind_eq_some_iff.mp predicted
  have decides := resolve_decides m inv
  unfold promise? at promised
  split at promised
  · rename_i accepted
    simp only [contender, Decides, if_pos accepted] at decides
    obtain ⟨out, untouched, run⟩ := decides
    exact ⟨f, out, List.mem_of_find?_eq_some contender, Option.some.inj promised, untouched, run⟩
  · cases promised

theorem resolve_unpredicted {inv : Invocation} (unpredicted : predict m inv = none) :
    (∀ eval, resolve eval inv m =
      .error (.failed (.raise (.functionNotFound inv.name (inv.args.map (shape? m))))) m) ∨
    Begins inv.args Prod.snd (fun eval => resolve eval inv) m := by
  rw [predict_eq] at unpredicted
  have decides := resolve_decides m inv
  cases contender : contender? (m.registry.candidates inv.name) (inv.args.map (shape? m)) with
  | none =>
    rw [contender] at decides
    exact Or.inl decides
  | some f =>
    rw [contender, Option.bind_some] at unpredicted
    unfold promise? at unpredicted
    split at unpredicted
    · cases unpredicted
    · rename_i undecided
      simp only [contender, Decides, if_neg undecided] at decides
      exact Or.inr decides

end Matching

theorem inCall_ok {x : Eval CellId} {inv : Invocation} {m n : Machine} {c : CellId}
    (run : inCall inv x m = .ok c n) : x m = .ok c n := by
  unfold inCall at run
  cases ran : x m with
  | ok a k =>
    rw [ran] at run
    exact run
  | error e k =>
    rw [ran] at run
    cases e <;> cases run

theorem withinDepth_ok {settings : Settings} {depth : Nat} {x : Eval CellId} {m n : Machine}
    {c : CellId} (run : withinDepth settings depth x m = .ok c n) : x m = .ok c n := by
  unfold withinDepth at run
  cases limited : settings.depthLimit with
  | none =>
    rw [limited] at run
    exact run
  | some limit =>
    by_cases deep : limit ≤ depth
    · simp only [limited, if_pos deep] at run
      cases run
    · simp only [limited, if_neg deep] at run
      exact run

theorem evaluate_ok {settings : Settings} {fuel depth : Nat} {inv : Invocation} {m n : Machine}
    {c : CellId} (run : evaluate settings (fuel + 1) depth inv m = .ok c n) :
    ∃ f pending k,
      Matching.resolve (evalArgument (evaluate settings fuel (depth + 1))) inv m =
        .ok (f, pending) k ∧
      dispatch (evaluate settings fuel (depth + 1)) fuel f pending
        (k.traced settings inv f (depth + 1)) = .ok c n := by
  rw [evaluate_eq] at run
  have reached := withinDepth_ok (inCall_ok run)
  cases resolved : Matching.resolve (evalArgument (evaluate settings fuel (depth + 1))) inv m with
  | error e k =>
    unfold arrive at reached
    rw [bind_assoc, bind_error resolved] at reached
    cases reached
  | ok out k =>
    obtain ⟨f, pending⟩ := out
    refine ⟨f, pending, k, rfl, ?_⟩
    rw [dispatch_eq, ← reached]
    exact (bind_same (arrive_run resolved) _).symm

/-- Where the result of a call is predicted, matching the call evaluates nothing, changes nothing
and finds a function that declares the result. Where it is not, matching fails or begins by
evaluating an argument. A call that goes to a built-in function gives what the function declares,
and so what is predicted where no other functions exist. -/
theorem prediction_foretells (m : Machine) (inv : Invocation) :
    (∀ result, Matching.predict m inv = some result → ∃ f pending,
      f ∈ m.registry.candidates inv.name ∧ f.signature.returns = result ∧
      pending.map Pending.arg = inv.args ∧ (∀ p ∈ pending, p.cell = none) ∧
      ∀ eval, Matching.resolve eval inv m = .ok (f, pending) m) ∧
    (Matching.predict m inv = none →
      (∀ eval, Matching.resolve eval inv m =
        .error (.failed (.raise (.functionNotFound inv.name (inv.args.map (Matching.shape? m)))))
          m) ∨
      Matching.Begins inv.args Prod.snd (fun eval => Matching.resolve eval inv) m) ∧
    (∀ settings fuel depth c n, evaluate settings (fuel + 1) depth inv m = .ok c n → ∃ f pending k,
      Matching.resolve (evalArgument (evaluate settings fuel (depth + 1))) inv m =
        .ok (f, pending) k ∧
      dispatch (evaluate settings fuel (depth + 1)) fuel f pending
        (k.traced settings inv f (depth + 1)) = .ok c n ∧
      ((∀ d, f ≠ .defined d) → ∀ t, f.signature.returns = .shape t → (n.heap.get c).shape = t)) ∧
    ((∀ d, .defined d ∉ m.registry.functions) → ∀ t,
      Matching.shape? m (.call inv.name inv.args) = some t → ∀ settings fuel depth c n,
      evaluate settings fuel depth inv m = .ok c n → (n.heap.get c).shape = t) := by
  refine ⟨?_, Matching.resolve_unpredicted, ?_, ?_⟩
  · intro result predicted
    obtain ⟨f, pending, member, declared, untouched, run⟩ := Matching.resolve_predicted predicted
    exact ⟨f, pending, member, declared, untouched.arg, untouched.cell, run⟩
  · intro settings fuel depth c n run
    obtain ⟨f, pending, k, resolved, dispatched⟩ := evaluate_ok run
    exact ⟨f, pending, k, resolved, dispatched, fun builtin t declared =>
      builtin_result builtin declared dispatched⟩
  · intro undefined t told settings fuel depth c n run
    cases fuel with
    | zero => cases run
    | succ fuel =>
      rw [Matching.shape?_call, ← Matching.predict_eq m inv] at told
      obtain ⟨result, predicted, shaped⟩ := Option.bind_eq_some_iff.mp told
      obtain ⟨g, pending', member, declared, _, chosen⟩ := Matching.resolve_predicted predicted
      obtain ⟨f, pending, k, resolved, dispatched⟩ := evaluate_ok run
      rw [chosen] at resolved
      cases resolved
      apply builtin_result _ _ dispatched
      · intro d same
        rw [same] at member
        exact undefined d (Registry.mem_of_candidate member)
      · rw [declared, ResultType.eq_shape shaped]

def productPlusFour : Invocation :=
  ⟨utf8 "+", [.call (utf8 "*") [.literal (.number (.ofNat 2)), .literal (.number (.ofNat 3))],
    .literal (.number (.ofNat 4))]⟩

theorem prediction_foretells_product :
    let m := (Interpreter.new 0 false (.ofInput [])).machine
    (∃ f pending, f.signature.returns = .shape .number ∧
      ∀ eval, Matching.resolve eval productPlusFour m = .ok (f, pending) m) ∧
    ∃ c n, evaluate ⟨none, false⟩ 3 0 productPlusFour m = .ok c n ∧
      (n.heap.get c).shape = .number := by
  intro m
  have predicted : Matching.predict m productPlusFour = some (.shape .number) := by decide +kernel
  obtain ⟨matched, -, -, foretold⟩ := prediction_foretells m productPlusFour
  constructor
  · obtain ⟨f, pending, _, declared, _, _, run⟩ := matched _ predicted
    exact ⟨f, pending, declared, run⟩
  · have builtin : ∀ f ∈ m.registry.functions, f.origin ≠ utf8 "defined" := by decide +kernel
    have told : Matching.shape? m (.call productPlusFour.name productPlusFour.args) =
        some .number := by decide +kernel
    have result := foretold (fun d member => builtin _ member rfl) .number told ⟨none, false⟩ 3 0
    have succeeds : yields (fun _ _ => true) (evaluate ⟨none, false⟩ 3 0 productPlusFour) m := by
      decide +kernel
    obtain ⟨c, n, run, _⟩ := ok_of_yields succeeds
    exact ⟨c, n, run, result c n run⟩

end CallScript
