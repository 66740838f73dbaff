import CallScript.Proofs.Run.Closure
import CallScript.Proofs.Run.Limits
import CallScript.Proofs.Run.Reached

/- A host that stops waiting gets control back. Every round of a loop and every call of a defined
   function asks the host first, and between two questions evaluation only goes down the tree of one
   invocation; so a run for a host that answers a number of questions comes to an end. The number of
   questions left carries the outer induction, the tree the inner one. -/
namespace CallScript

open Eval

section Steady

variable {α β : Type}

/-- The computation needs no fuel, and asks the host nothing. -/
def Steady (x : Eval α) : Prop :=
  ∀ m, match x m with
    | .ok _ n => n.patience = m.patience
    | .error e _ => e ≠ .outOfFuel

theorem steady_pure (a : α) : Steady (pure a) := fun _ => rfl

theorem steady_fail (fault : Fault) : Steady (fail fault : Eval α) := by
  intro m
  exact Stop.noConfusion

theorem steady_crash : Steady (throw .crashed : Eval α) := by
  intro m
  exact Stop.noConfusion

theorem steady_bind {x : Eval α} {f : α → Eval β} (first : Steady x) (rest : ∀ a, Steady (f a)) :
    Steady (x >>= f) := by
  intro m
  have before := first m
  cases run : x m with
  | error e n =>
    rw [bind_error run]
    simpa [run] using before
  | ok a n =>
    simp only [run] at before
    rw [bind_ok run]
    have after := rest a n
    cases later : f a n with
    | error e k => simpa [later] using after
    | ok b k =>
      simp only [later] at after
      rw [← before]
      exact after

theorem steady_closed : Closed @Steady :=
  ⟨steady_pure, steady_fail, fun _ same m => same m, steady_bind⟩

theorem steady_need (o : Option α) : Steady (need o) := steady_closed.need o fun _ => steady_crash

theorem steady_system (f : SystemFunction) (args : List CellId) : Steady (f.run args) :=
  steady_closed.system f args fun _ => steady_crash

end Steady

def Machine.Granted (k : Nat) (m : Machine) : Prop := ∃ j, j ≤ k ∧ m.patience.checks = some j

theorem Machine.Granted.mono {k l : Nat} {m : Machine} (granted : m.Granted k) (le : k ≤ l) :
    m.Granted l := by
  obtain ⟨j, few, checks⟩ := granted
  exact ⟨j, Nat.le_trans few le, checks⟩

theorem Machine.Granted.keep {k : Nat} {m n : Machine} (granted : m.Granted k)
    (same : n.patience = m.patience) : n.Granted k := by
  obtain ⟨j, few, checks⟩ := granted
  exact ⟨j, few, by rw [same, checks]⟩

section Settling

variable {α β : Type} {k : Nat} {m : Machine}

inductive Ended (k : Nat) (good : α → Prop) : EStateM.Result Stop Machine α → Prop where
  | ok {a : α} {n : Machine} (granted : n.Granted k) (fine : good a) : Ended k good (.ok a n)
  | error {e : Stop} {n : Machine} (reason : e ≠ .outOfFuel) : Ended k good (.error e n)

/-- From some fuel on, more of it makes no difference, and the computation comes to an end. -/
def Settles (k : Nat) (good : α → Prop) (x : Nat → Eval α) (m : Machine) : Prop :=
  ∃ r fuel, (∀ more, fuel ≤ more → x more m = r) ∧ Ended k good r

/-- An evaluator that comes to an end on an argument, for every host with so many checks left. -/
def Quiet (k : Nat) (eval : Nat → Argument → Eval CellId) (a : Argument) : Prop :=
  ∀ m, m.Granted k → Settles k (fun _ => True) (fun fuel => eval fuel a) m

theorem Steady.settles {x : Eval α} (steady : Steady x) (granted : m.Granted k) :
    Settles k (fun _ => True) (fun _ => x) m := by
  refine ⟨x m, 0, fun _ _ => rfl, ?_⟩
  have left := steady m
  cases run : x m with
  | ok a n =>
    simp only [run] at left
    exact .ok (granted.keep left) trivial
  | error e n =>
    simp only [run] at left
    exact .error left

theorem Settles.imp {good better : α → Prop} {x : Nat → Eval α} (settles : Settles k good x m)
    (implies : ∀ a, good a → better a) : Settles k better x m := by
  obtain ⟨r, fuel, same, ended⟩ := settles
  refine ⟨r, fuel, same, ?_⟩
  cases ended with
  | ok granted fine => exact .ok granted (implies _ fine)
  | error reason => exact .error reason

theorem Settles.mono {l : Nat} {good : α → Prop} {x : Nat → Eval α} (settles : Settles k good x m)
    (le : k ≤ l) : Settles l good x m := by
  obtain ⟨r, fuel, same, ended⟩ := settles
  refine ⟨r, fuel, same, ?_⟩
  cases ended with
  | ok granted fine => exact .ok (granted.mono le) fine
  | error reason => exact .error reason

theorem Settles.shift {good : α → Prop} {x : Nat → Eval α} (settles : Settles k good x m) :
    Settles k good (fun fuel => x (fuel + 1)) m := by
  obtain ⟨r, fuel, same, ended⟩ := settles
  exact ⟨r, fuel, fun more le => same (more + 1) (Nat.le_succ_of_le le), ended⟩

theorem Settles.unshift {good : α → Prop} {x : Nat → Eval α}
    (settles : Settles k good (fun fuel => x (fuel + 1)) m) : Settles k good x m := by
  obtain ⟨r, fuel, same, ended⟩ := settles
  refine ⟨r, fuel + 1, ?_, ended⟩
  intro more le
  obtain ⟨less, rfl⟩ : ∃ less, more = less + 1 := ⟨more - 1, by omega⟩
  exact same less (by omega)

theorem settles_pure {good : α → Prop} {a : α} (granted : m.Granted k) (fine : good a) :
    Settles k good (fun _ => pure a) m :=
  ⟨.ok a m, 0, fun _ _ => rfl, .ok granted fine⟩

theorem settles_fail {good : α → Prop} {fault : Fault} : Settles k good (fun _ => fail fault) m :=
  ⟨.error _ m, 0, fun _ _ => rfl, .error Stop.noConfusion⟩

theorem settles_crash {good : α → Prop} : Settles k good (fun _ => throw .crashed) m :=
  ⟨.error _ m, 0, fun _ _ => rfl, .error Stop.noConfusion⟩

theorem Settles.bind {good : α → Prop} {better : β → Prop} {x : Nat → Eval α} {f : Nat → α → Eval β}
    (first : Settles k good x m)
    (rest : ∀ a n, n.Granted k → good a → Settles k better (fun fuel => f fuel a) n) :
    Settles k better (fun fuel => x fuel >>= f fuel) m := by
  obtain ⟨r, fuel, same, ended⟩ := first
  cases ended with
  | @error e n reason =>
    exact ⟨.error e n, fuel, fun more le => bind_error (same more le) _, .error reason⟩
  | @ok a n granted fine =>
    obtain ⟨r', fuel', same', ended'⟩ := rest a n granted fine
    refine ⟨r', max fuel fuel', ?_, ended'⟩
    intro more le
    have enough : fuel ≤ more ∧ fuel' ≤ more := by omega
    dsimp only
    rw [bind_ok (same more enough.1)]
    exact same' more enough.2

theorem Steady.before {better : β → Prop} {x : Eval α} {f : Nat → α → Eval β} (steady : Steady x)
    (granted : m.Granted k)
    (rest : ∀ a n, n.Granted k → Settles k better (fun fuel => f fuel a) n) :
    Settles k better (fun fuel => x >>= f fuel) m :=
  Settles.bind (steady.settles granted) fun a n granted _ => rest a n granted

theorem settles_inCall {good : α → Prop} {x : Nat → Eval α} (inv : Invocation)
    (settles : Settles k good x m) : Settles k good (fun fuel => inCall inv (x fuel)) m := by
  obtain ⟨r, fuel, same, ended⟩ := settles
  refine ⟨inCall inv (x fuel) m, fuel, ?_, ?_⟩
  · intro more le
    simp only [inCall, same more le, same fuel (Nat.le_refl fuel)]
  · unfold inCall
    rw [same fuel (Nat.le_refl fuel)]
    cases ended with
    | ok granted fine => exact .ok granted fine
    | @error e n reason =>
      cases e with
      | failed f => exact .error Stop.noConfusion
      | crashed => exact .error reason
      | outOfFuel => exact absurd rfl reason

theorem settles_inScope {good : α → Prop} {x : Nat → Eval α} {scope : Scope}
    (settles : Settles k good x { m with scope }) :
    Settles k good (fun fuel => inScope scope (x fuel)) m := by
  obtain ⟨r, fuel, same, ended⟩ := settles
  refine ⟨inScope scope (x fuel) m, fuel, ?_, ?_⟩
  · intro more le
    simp only [inScope, same more le, same fuel (Nat.le_refl fuel)]
  · unfold inScope
    rw [same fuel (Nat.le_refl fuel)]
    cases ended with
    | ok granted fine => exact .ok granted fine
    | error reason => exact .error reason

theorem settles_inBlock {good : α → Prop} {x : Nat → Eval α} (settles : Settles k good x m) :
    Settles k good (fun fuel => inBlock (x fuel)) m :=
  settles_inScope settles

theorem settles_need {o : Option α} (granted : m.Granted k) :
    Settles k (fun a => o = some a) (fun _ => need o) m := by
  cases o with
  | none => exact settles_crash
  | some a => exact settles_pure granted rfl

theorem settles_get {good : β → Prop} {f : Nat → Machine → Eval β}
    (rest : Settles k good (fun fuel => f fuel m) m) :
    Settles k good (fun fuel => get >>= f fuel) m :=
  rest

theorem settles_checkPatience {good : β → Prop} {f : Nat → Eval β} (granted : m.Granted k)
    (rest : ∀ i n, i < k → n.Granted i → Settles i good f n) :
    Settles k good (fun fuel => checkPatience >>= fun _ => f fuel) m := by
  obtain ⟨j, few, checks⟩ := granted
  have asked := checkPatience_run m
  rw [checks] at asked
  cases j with
  | zero => exact ⟨_, 0, fun more _ => bind_error asked _, .error Stop.noConfusion⟩
  | succ j =>
    have less : j < k := by omega
    let n : Machine := { m with patience := { m.patience with checks := some j } }
    have granted : n.Granted j := ⟨j, Nat.le_refl j, rfl⟩
    obtain ⟨r, fuel, same, ended⟩ := (rest j n less granted).mono (Nat.le_of_lt less)
    refine ⟨r, fuel, ?_, ended⟩
    intro more le
    dsimp only
    rw [bind_ok asked]
    exact same more le

section Matching

variable {eval : Nat → Argument → Eval CellId}

theorem settles_force {s : Signature} {last position : Nat} {args : List Pending}
    (granted : m.Granted k) (quiet : ∀ p ∈ args, Quiet k eval p.arg) :
    Settles k (fun out => ∀ p ∈ out, Quiet k eval p.arg)
      (fun fuel => Matching.force (eval fuel) s last position args) m := by
  induction args generalizing m position with
  | nil => exact settles_pure granted (by simp)
  | cons p rest ih =>
    have first := quiet p List.mem_cons_self
    have goOn : ∀ (q : Pending) (n : Machine), n.Granted k → q.arg = p.arg →
        Settles k (fun out => ∀ p ∈ out, Quiet k eval p.arg)
          (fun fuel => do
            let rest ← Matching.force (eval fuel) s last (position + 1) rest
            return q :: rest) n := by
      intro q n granted same
      apply Settles.bind (ih granted fun r member => quiet r (List.mem_cons_of_mem p member))
      intro out n granted done
      apply settles_pure granted
      intro r member
      rcases List.mem_cons.mp member with rfl | member
      · rw [same]
        exact first
      · exact done r member
    simp only [Matching.force]
    split
    · apply settles_pure granted
      intro q member
      obtain ⟨r, held, rfl⟩ := List.mem_map.mp member
      exact quiet r held
    · split
      · exact goOn _ m granted rfl
      · apply Settles.bind (first m granted)
        intro c n granted _
        exact goOn _ n granted rfl
      · exact settles_crash
      · exact goOn _ m granted rfl

theorem asked_arg (p : Pending) (n : Machine) : (p.shape? n).2.arg = p.arg := by
  unfold Pending.shape?
  split <;> rfl

theorem settles_accepts {s : Signature} {left position : Nat} {args : List Pending}
    (granted : m.Granted k) (quiet : ∀ p ∈ args, Quiet k eval p.arg) :
    Settles k (fun out => ∀ p ∈ out.2, Quiet k eval p.arg)
      (fun fuel => Matching.accepts (eval fuel) s left position args) m := by
  induction left generalizing m position args with
  | zero => exact settles_pure granted quiet
  | succ left ih =>
    simp only [Matching.accepts]
    apply Settles.bind (settles_need granted)
    intro slot n granted _
    split
    · apply Settles.bind (settles_need granted)
      intro p n granted found
      apply settles_get
      split
      · rename_i shape q asked
        have known : q.arg = p.arg := by
          have same := asked_arg p n
          rwa [asked] at same
        have quiet' : ∀ r ∈ args.set position q, Quiet k eval r.arg := by
          intro r held
          rcases List.mem_or_eq_of_mem_set held with held | rfl
          · exact quiet r held
          · rw [known]
            exact quiet p (List.mem_of_getElem? found)
        split
        · exact ih granted quiet'
        · exact settles_pure granted quiet'
      · apply Settles.bind (settles_force granted quiet)
        intro forced n granted done
        apply Settles.bind (settles_need granted)
        intro c n granted _
        apply (steady_closed.contents c).before granted
        intro d n granted
        split
        · exact ih granted done
        · exact settles_pure granted done
    · exact ih granted quiet

theorem settles_choose {name : Name} {candidates : List Function} {args : List Pending}
    (granted : m.Granted k) (quiet : ∀ p ∈ args, Quiet k eval p.arg) :
    Settles k (fun out => ∀ p ∈ out.2, Quiet k eval p.arg)
      (fun fuel => Matching.choose (eval fuel) name candidates args) m := by
  induction candidates generalizing m args with
  | nil => exact settles_get settles_fail
  | cons f rest ih =>
    simp only [Matching.choose]
    split
    · apply Settles.bind (settles_accepts granted quiet)
      rintro ⟨verdict, args⟩ n granted done
      cases verdict with
      | true => exact settles_pure granted done
      | false => exact ih granted done
    · exact ih granted quiet

theorem settles_resolve {inv : Invocation} (granted : m.Granted k)
    (quiet : ∀ a ∈ inv.args, Quiet k eval a) :
    Settles k (fun out => ∀ p ∈ out.2, Quiet k eval p.arg)
      (fun fuel => Matching.resolve (eval fuel) inv) m := by
  apply settles_get
  apply settles_choose granted
  intro p member
  obtain ⟨a, held, rfl⟩ := List.mem_map.mp member
  exact quiet a held

theorem settles_evalRemaining {args : List Pending} (granted : m.Granted k)
    (quiet : ∀ p ∈ args, Quiet k eval p.arg) :
    Settles k (fun _ => True) (fun fuel => evalRemaining (eval fuel) args) m := by
  unfold evalRemaining
  induction args generalizing m with
  | nil => exact settles_pure granted trivial
  | cons p rest ih =>
    simp only [List.mapM_cons]
    have later : ∀ c n, n.Granted k → True → Settles k (fun _ => True) (fun fuel => do
        let cells ← evalRemaining (eval fuel) rest
        pure (c :: cells)) n := by
      intro c n granted _
      apply Settles.bind (ih granted fun q member => quiet q (List.mem_cons_of_mem p member))
      intro cells n granted _
      exact settles_pure granted trivial
    cases p.cell with
    | some c => exact Settles.bind (settles_pure granted trivial) later
    | none => exact Settles.bind (quiet p List.mem_cons_self m granted) later

theorem settles_prepareOne {p : Pending} (slot : Slot) (granted : m.Granted k)
    (quiet : Quiet k eval p.arg) :
    Settles k (fun out => Quiet k eval out.raw) (fun fuel => prepareOne (eval fuel) p slot) m := by
  have evaluated : Settles k (fun out => Quiet k eval out.raw)
      (fun fuel => prepareOne (eval fuel) p .any) m := by
    simp only [prepareOne]
    cases p.cell with
    | some c => exact settles_pure granted quiet
    | none =>
      apply Settles.bind (quiet m granted)
      intro c n granted _
      exact settles_pure granted quiet
  cases slot with
  | raw => exact settles_pure granted quiet
  | any => exact evaluated
  | shape required => exact evaluated

theorem settles_prepare {s : Signature} {position : Nat} {args : List Pending}
    (granted : m.Granted k) (quiet : ∀ p ∈ args, Quiet k eval p.arg) :
    Settles k (fun out => ∀ p ∈ out, Quiet k eval p.raw)
      (fun fuel => prepare (eval fuel) s position args) m := by
  induction args generalizing m position with
  | nil => exact settles_pure granted (by simp)
  | cons p rest ih =>
    simp only [prepare]
    apply Settles.bind (settles_need granted)
    intro slot n granted _
    apply Settles.bind (settles_prepareOne slot granted (quiet p List.mem_cons_self))
    intro first n granted ready
    apply Settles.bind (ih granted fun q member => quiet q (List.mem_cons_of_mem p member))
    intro others n granted done
    apply settles_pure granted
    intro q member
    rcases List.mem_cons.mp member with rfl | member
    · exact ready
    · exact done q member

theorem settles_runBlock {body : List Prepared} (granted : m.Granted k)
    (quiet : ∀ p ∈ body, Quiet k eval p.raw) :
    Settles k (fun _ => True) (fun fuel => runBlock (eval fuel) body) m := by
  induction body generalizing m with
  | nil => exact settles_pure granted trivial
  | cons s rest ih =>
    simp only [runBlock]
    apply Settles.bind (quiet s List.mem_cons_self m granted)
    intro c n granted _
    apply (steady_closed.contents c).before granted
    intro d n granted
    split
    · exact settles_pure granted trivial
    · exact ih granted fun p member => quiet p (List.mem_cons_of_mem s member)

theorem settles_runConditional {args : List Prepared} (granted : m.Granted k)
    (quiet : ∀ p ∈ args, Quiet k eval p.raw) :
    Settles k (fun _ => True) (fun fuel => ContextFunction.runConditional (eval fuel) args) m := by
  cases args with
  | nil => exact settles_fail
  | cons condition body =>
    simp only [ContextFunction.runConditional]
    apply (steady_need _).before granted
    intro c n granted
    apply (steady_closed.expect _ _ c).before granted
    intro holds n granted
    split
    · have block := settles_runBlock granted fun p member =>
        quiet p (List.mem_cons_of_mem condition member)
      apply Settles.bind (settles_inBlock block)
      intro out n granted _
      cases out with
      | none => exact (steady_closed.alloc .unit).settles granted
      | some c => exact settles_pure granted trivial
    · exact (steady_closed.alloc .unit).settles granted

end Matching

/-- Each round of a loop costs the host a check. What is evaluated in the rounds has to come to an
end only for hosts with fewer checks left than at the start. -/
theorem settles_runLoop {eval : Nat → Argument → Eval CellId} (predicate : Argument)
    (body : List Prepared) (lower : ∀ i < k, ∀ a, Quiet i eval a) (granted : m.Granted k) :
    Settles k (fun _ => True)
      (fun fuel => ContextFunction.runLoop (eval fuel) predicate body fuel) m := by
  induction k using Nat.strongRecOn generalizing m eval with
  | ind k ih =>
    apply Settles.unshift
    simp only [ContextFunction.runLoop]
    apply settles_checkPatience granted
    intro i n less granted
    have quiet : ∀ a, Quiet i (fun fuel => eval (fuel + 1)) a := fun a n granted =>
      (lower i less a n granted).shift
    -- The next round starts with fewer checks left, and with one unit of fuel less.
    have again : ∀ n : Machine, n.Granted i → Settles i (fun _ => True)
        (fun fuel => ContextFunction.runLoop (eval (fuel + 1)) predicate body fuel) n :=
          fun n granted =>
      ih i less (fun l fewer a n granted => (lower l (Nat.lt_trans fewer less) a n granted).shift)
        granted
    apply Settles.bind (quiet predicate n granted)
    intro c n granted _
    apply (steady_closed.expect _ _ c).before granted
    intro holds n granted
    split
    · apply Settles.bind (settles_inBlock (settles_runBlock granted fun p _ => quiet p.raw))
      intro out n granted _
      cases out with
      | none => exact again n granted
      | some c =>
        apply (steady_closed.contents c).before granted
        intro d n granted
        split
        · exact (steady_closed.alloc .unit).settles granted
        · exact again n granted
        · exact settles_pure granted trivial
    · exact (steady_closed.alloc .unit).settles granted

theorem settles_contextRun {eval : Nat → Argument → Eval CellId}
    (lower : ∀ i < k, ∀ a, Quiet i eval a) (f : ContextFunction) {args : List Prepared}
    (granted : m.Granted k) (quiet : ∀ p ∈ args, Quiet k eval p.raw) :
    Settles k (fun _ => True) (fun fuel => f.run (eval fuel) fuel args) m := by
  cases f with
  | bindName => exact (steady_closed.runBind args fun _ => steady_crash).settles granted
  | assign => exact (steady_closed.runAssign args fun _ => steady_crash).settles granted
  | conditional => exact settles_runConditional granted quiet
  | loop =>
    cases args with
    | nil => exact settles_fail
    | cons predicate body => exact settles_runLoop predicate.raw body lower granted
  | define => exact (steady_closed.runDefine args).settles granted

section Evaluation

variable {eval : Nat → Invocation → Eval CellId}

def QuietOn (k : Nat) (eval : Nat → Invocation → Eval CellId) (inv : Invocation) : Prop :=
  ∀ m, m.Granted k → Settles k (fun _ => True) (fun fuel => eval fuel inv) m

theorem quiet_argument (a : Argument)
    (nested : ∀ name args, a = .call name args → QuietOn k eval ⟨name, args⟩) :
    Quiet k (fun fuel => evalArgument (eval fuel)) a := by
  intro m granted
  cases a with
  | literal value =>
    exact (steady_closed.bind (steady_closed.copy value) steady_closed.alloc).settles granted
  | ident name => exact (steady_closed.lookup name).settles granted
  | call name args => exact nested name args rfl m granted
  | unknown tag => exact settles_fail

theorem settles_runBody {body : List Invocation} (granted : m.Granted k)
    (quiet : ∀ inv, QuietOn k eval inv) :
    Settles k (fun _ => True) (fun fuel => Definition.runBody (eval fuel) body) m := by
  induction body generalizing m with
  | nil => exact (steady_closed.alloc .unit).settles granted
  | cons s rest ih =>
    simp only [Definition.runBody]
    apply Settles.bind (quiet s m granted)
    intro c n granted _
    apply (steady_closed.contents c).before granted
    intro d n granted
    split
    · exact settles_pure granted trivial
    · exact (steady_closed.alloc .unit).settles granted
    · exact ih granted

theorem settles_call {f : Definition} {args : List CellId}
    (lower : ∀ i < k, ∀ inv, QuietOn i eval inv) (granted : m.Granted k) :
    Settles k (fun _ => True) (fun fuel => f.call (eval fuel) args) m := by
  unfold Definition.call
  apply settles_checkPatience granted
  intro i n less granted
  apply settles_inScope
  exact settles_runBody (granted.keep rfl) (lower i less)

theorem settles_dispatch {f : Function} {args : List Pending}
    (lower : ∀ i < k, ∀ inv, QuietOn i eval inv) (granted : m.Granted k)
    (quiet : ∀ p ∈ args, Quiet k (fun fuel => evalArgument (eval fuel)) p.arg) :
    Settles k (fun _ => True) (fun fuel => dispatch (eval fuel) fuel f args) m := by
  cases f with
  | system s =>
    apply Settles.bind (settles_evalRemaining granted quiet)
    intro cells n granted _
    exact (steady_system s cells).settles granted
  | context c =>
    have below : ∀ i < k, ∀ a, Quiet i (fun fuel => evalArgument (eval fuel)) a := fun i less a =>
      quiet_argument a fun name args _ => lower i less ⟨name, args⟩
    apply Settles.bind (settles_prepare granted quiet)
    intro prepared n granted ready
    exact settles_contextRun below c granted ready
  | defined d =>
    apply Settles.bind (settles_evalRemaining granted quiet)
    intro cells n granted _
    exact settles_call lower granted

theorem settles_entered {settings : Settings} {depth : Nat} {inv : Invocation}
    (lower : ∀ i < k, ∀ inv, QuietOn i eval inv) (granted : m.Granted k)
    (quiet : ∀ a ∈ inv.args, Quiet k (fun fuel => evalArgument (eval fuel)) a) :
    Settles k (fun _ => True) (fun fuel => entered settings (eval fuel) fuel depth inv) m := by
  have invoked : Settles k (fun _ => True)
      (fun fuel => invoke settings (eval fuel) fuel (depth + 1) inv) m := by
    unfold invoke
    apply Settles.bind (settles_resolve granted quiet)
    rintro ⟨f, args⟩ n granted ready
    dsimp only
    split
    · apply (steady_closed.record _).before granted
      intro _ n granted
      exact settles_dispatch lower granted ready
    · exact settles_dispatch lower granted ready
  apply settles_inCall
  split
  · split
    · exact settles_fail
    · exact invoked
  · exact invoked

end Evaluation

def QuietBelow (settings : Settings) (k : Nat) : Prop :=
  ∀ i < k, ∀ depth inv, QuietOn i (fun fuel => evaluate settings fuel depth) inv

theorem quietOn_step {settings : Settings} (lower : QuietBelow settings k) (depth : Nat)
    (inv : Invocation)
    (nested : ∀ a ∈ inv.args,
      Quiet k (fun fuel => evalArgument (evaluate settings fuel (depth + 1))) a) :
    QuietOn k (fun fuel => evaluate settings fuel depth) inv := by
  intro m granted
  apply Settles.unshift
  simp only [evaluate_succ]
  exact settles_entered (fun i less inv => lower i less (depth + 1) inv) granted nested

mutual

theorem quiet_tree {settings : Settings} (lower : QuietBelow settings k) :
    ∀ (a : Argument) (depth : Nat),
    Quiet k (fun fuel => evalArgument (evaluate settings fuel depth)) a
  | .call name args, depth => by
    apply quiet_argument
    rintro _ _ ⟨⟩
    exact quietOn_step lower depth ⟨name, args⟩ fun a member =>
      quiet_trees lower args (depth + 1) a member
  | .literal value, depth => quiet_argument _ fun _ _ same => nomatch same
  | .ident name, depth => quiet_argument _ fun _ _ same => nomatch same
  | .unknown tag, depth => quiet_argument _ fun _ _ same => nomatch same

theorem quiet_trees {settings : Settings} (lower : QuietBelow settings k) :
    ∀ (args : List Argument) (depth : Nat),
    ∀ a ∈ args, Quiet k (fun fuel => evalArgument (evaluate settings fuel depth)) a
  | [], _, _, member => nomatch member
  | first :: rest, depth, a, member => by
    rcases List.mem_cons.mp member with same | member
    · rw [same]
      exact quiet_tree lower first depth
    · exact quiet_trees lower rest depth a member

end

theorem quietOn_evaluate (settings : Settings) (k depth : Nat) (inv : Invocation) :
    QuietOn k (fun fuel => evaluate settings fuel depth) inv := by
  induction k using Nat.strongRecOn generalizing depth inv with
  | ind k ih =>
    exact quietOn_step ih depth inv (quiet_trees ih inv.args (depth + 1))

theorem settles_inStatement {good : α → Prop} {x : Nat → Eval α} (number : Nat)
    (settles : Settles k good x m) :
    Settles k good (fun fuel => Interpreter.inStatement number (x fuel)) m := by
  obtain ⟨r, fuel, same, ended⟩ := settles
  refine ⟨Interpreter.inStatement number (x fuel) m, fuel, ?_, ?_⟩
  · intro more le
    simp only [Interpreter.inStatement, same more le, same fuel (Nat.le_refl fuel)]
  · unfold Interpreter.inStatement
    rw [same fuel (Nat.le_refl fuel)]
    cases ended with
    | ok granted fine => exact .ok granted fine
    | @error e n reason =>
      cases e with
      | failed f => exact .error Stop.noConfusion
      | crashed => exact .error reason
      | outOfFuel => exact absurd rfl reason

theorem settles_statements (settings : Settings) (number : Nat) (p : Program)
    (granted : m.Granted k) :
    Settles k (fun _ => True) (fun fuel => Interpreter.statements settings fuel number p) m := by
  induction p generalizing k m number with
  | nil => exact settles_pure granted trivial
  | cons inv rest ih =>
    simp only [Interpreter.statements]
    apply settles_checkPatience granted
    intro i n _ granted
    apply Settles.bind (settles_inStatement number (quietOn_evaluate settings i 0 inv n granted))
    intro _ n granted _
    exact ih (number + 1) granted

theorem settles_program (settings : Settings) (p : Program) (granted : m.Granted k) :
    Settles k (fun _ => True) (fun fuel => Interpreter.program settings fuel p) m := by
  unfold Interpreter.program
  apply (steady_closed.record _).before granted
  intro _ n granted
  exact settles_statements settings 1 p granted

end Settling

theorem Interpreter.ends_of_settles {α : Type} {i : Interpreter} {patience : Patience}
    {act : Nat → Settings → Eval α} {k : Nat} {good : α → Prop}
    (settles : Settles k good (fun fuel => act fuel i.settings) { i.machine with patience }) :
    ∃ result j, Ends (fun fuel => i.run patience (act fuel)) result j := by
  obtain ⟨r, fuel, same, ended⟩ := settles
  have run : act fuel i.settings { i.machine with patience } = r := same fuel (Nat.le_refl fuel)
  refine ⟨(i.run patience (act fuel)).1, (i.run patience (act fuel)).2, fuel, rfl, ?_⟩
  rw [run_eq, run]
  cases ended with
  | ok granted fine =>
    intro same
    cases same
  | error reason =>
    intro same
    exact reason (Except.error.inj same)

/-- Printing, comparing and copying come to an end on every value that refers to cells of the
machine. -/
def Machine.Unfolds (m : Machine) : Prop :=
  ∀ d : Datum, d.Within m.heap.size →
    (∃ text, m.heap.Renders d text) ∧ (∀ e, ∃ verdict, m.heap.Compares d e verdict) ∧
      ∃ e h, Heap.Copies d m.heap e h

theorem Machine.Sound.unfolds {m : Machine} (sound : m.Sound) : m.Unfolds := by
  intro d inside
  exact ⟨⟨_, sound.heap.acyclic.renders d⟩, fun e => ⟨_, sound.heap.acyclic.compares d e⟩,
    ⟨_, _, sound.heap.copies inside⟩⟩

/-- Whatever a program does, a host that answers at most `k` checks gets control back: the run comes
to an end, and so does all printing, comparing and copying on the way. -/
theorem cancelled_run_ends {i : Interpreter} (hosted : i.Hosted) (k : Nat) (cause : CancelCause)
    {p : Program} (finite : ∀ inv ∈ p, inv.Every (·.Within i.machine.heap.size)) :
    (∃ result j, Interpreter.Ends (fun fuel => i.execute fuel ⟨some k, cause⟩ p) result j) ∧
      ∀ halt fuel, (after (Interpreter.programBy (evaluateUntil halt i.settings fuel 0) p)
        { i.machine with patience := ⟨some k, cause⟩ }).Unfolds := by
  constructor
  · exact Interpreter.ends_of_settles (settles_program i.settings p ⟨k, Nat.le_refl k, rfl⟩)
  · intro halt fuel
    exact (Reached.executing hosted halt fuel ⟨some k, cause⟩ p finite).sound.unfolds

def printForever : Program :=
  [⟨utf8 "while", [.ident (utf8 "true"), .call (utf8 "print") [.literal (.string (utf8 "a"))]]⟩]

theorem cancelled_run_ends_loop :
    (∃ result j, Interpreter.Ends (fun fuel =>
      (Interpreter.new (-1) false (.ofInput [])).execute fuel ⟨some 3, .cancelled⟩ printForever)
        result j) ∧
    ((Interpreter.new (-1) false (.ofInput [])).execute 5 ⟨some 3, .cancelled⟩
      printForever).2.machine.console.output = utf8 "aa" := by
  have ended := cancelled_run_ends (Interpreter.Hosted.new (-1) false (.ofInput [])) 3 .cancelled
    (p := printForever)
    (by simp [printForever, Invocation.Every, Argument.EveryOf, Argument.Every, Datum.Within,
      Datum.cells])
  exact ⟨ended.1, by decide +kernel⟩

end CallScript
