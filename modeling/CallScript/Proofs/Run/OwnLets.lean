import CallScript.Proofs.Run.Blocks

/- Which names an evaluation may bind. A scope is changed by the calls of `let` that are evaluated
   in it: those among the arguments of an invocation, but not those in the body of a block or of a
   function, which run in scopes of their own. This is about the `if` and `while` of the language,
   so it is said of programs that define no others. -/
namespace CallScript

open Eval

namespace Registry

def Unshadowed (r : Registry) : Prop :=
  ∀ d ∈ r.definitions, d.signature.name ≠ utf8 "if" ∧ d.signature.name ≠ utf8 "while"

theorem mem_definitions {r : Registry} {d : Definition} (member : .defined d ∈ r.functions) :
    d ∈ r.definitions :=
  List.mem_filterMap.mpr ⟨.defined d, Array.mem_toList_iff.mpr member, rfl⟩

theorem Unshadowed.before {r extended : Registry} (unshadowed : extended.Unshadowed)
    (grows : r.Extends extended) :
    r.Unshadowed := by
  obtain ⟨added, rfl⟩ := grows
  intro d member
  apply unshadowed d
  apply mem_definitions
  rw [← Array.mem_toList_iff, functions_addAll]
  exact List.mem_append_left _ (Array.mem_toList_iff.mpr (mem_of_definition member))

theorem Grown.name_of_candidate {r : Registry} (grown : r.Grown) {name : Name} {f : Function}
    (member : f ∈ r.candidates name) : f.signature.name = name := by
  rw [grown.indexed.candidates_eq] at member
  exact of_decide_eq_true (List.mem_filter.mp member).2

theorem Unshadowed.candidates_if {r : Registry} (unshadowed : r.Unshadowed) (grown : r.Grown) :
    r.candidates (utf8 "if") = [.context .conditional] := by
  obtain ⟨later, candidates⟩ := grown.candidates_builtin ContextFunction.conditional.builtin
  have oldest : r.candidates (utf8 "if") = .context .conditional :: later := candidates
  have alone : later = [] := by
    rw [List.eq_nil_iff_forall_not_mem]
    intro f member
    have held : f ∈ r.candidates (utf8 "if") := oldest ▸ List.mem_cons_of_mem _ member
    obtain ⟨d, rfl⟩ := grown.later_defined (utf8 "if") (by rwa [oldest])
    exact (unshadowed d (mem_definitions (mem_of_candidate held))).1 (grown.name_of_candidate held)
  rw [oldest, alone]

end Registry

def Invocation.Open (inv : Invocation) (i : Nat) : Prop :=
  inv.name ≠ utf8 "fn" ∧ (inv.name = utf8 "if" ∨ inv.name = utf8 "while" → i = 0)

theorem Invocation.open_loop (args : List Argument) : Open ⟨utf8 "while", args⟩ 0 := by
  have other : utf8 "while" ≠ utf8 "fn" := by decide +kernel
  exact ⟨other, fun _ => rfl⟩

theorem Invocation.open_conditional (args : List Argument) : Open ⟨utf8 "if", args⟩ 0 := by
  have other : utf8 "if" ≠ utf8 "fn" := by decide +kernel
  exact ⟨other, fun _ => rfl⟩

/-- A call of `let` with the name, which may be evaluated in the scope of the invocation. -/
inductive Invocation.Lets : Invocation → Name → Prop where
  | here (name : Name) (value : Argument) : Lets ⟨utf8 "let", [.ident name, value]⟩ name
  | inside {outer inner : Invocation} {i : Nat} {name : Name}
    (argument : outer.args[i]? = some (.call inner.name inner.args)) (reached : outer.Open i)
    (lets : inner.Lets name) : Lets outer name

theorem Invocation.lets_iff {outer : Invocation} {name : Name} :
    outer.Lets name ↔ (∃ value, outer = ⟨utf8 "let", [.ident name, value]⟩) ∨
      ∃ (i : Nat) (inner : Invocation), outer.args[i]? = some (.call inner.name inner.args) ∧
        outer.Open i ∧ inner.Lets name := by
  constructor
  · intro lets
    cases lets with
    | here _ value => exact Or.inl ⟨value, rfl⟩
    | inside argument reached lets => exact Or.inr ⟨_, _, argument, reached, lets⟩
  · rintro (⟨value, rfl⟩ | ⟨i, inner, argument, reached, lets⟩)
    · exact .here name value
    · exact .inside argument reached lets

def Argument.Lets (a : Argument) (name : Name) : Prop :=
  ∃ inv : Invocation, a = .call inv.name inv.args ∧ inv.Lets name

theorem Invocation.Open.lets {inv : Invocation} {i : Nat} {a : Argument} (reached : inv.Open i)
    (argument : inv.args[i]? = some a) (name : Name) (lets : a.Lets name) : inv.Lets name := by
  obtain ⟨inner, rfl, lets⟩ := lets
  exact .inside argument reached lets

namespace Scope

theorem find?_bind (s : Scope) (name : Name) (c : CellId) (x : Name) :
    (s.bind name c).find? x = if x = name then some c else s.find? x := by
  show (insert name c s.bindings).lookup x = if x = name then some c else s.bindings.lookup x
  induction s.bindings with
  | nil =>
    by_cases same : x = name
    · simp [insert, same]
    · simp [insert, List.lookup_cons, same, beq_false_of_ne same]
  | cons first rest ih =>
    obtain ⟨other, held⟩ := first
    by_cases same : x = name
    · subst same
      simp only [insert]
      split
      · simp
      · split
        · simp
        · rename_i differs _
          simp [List.lookup_cons, beq_false_of_ne differs, ih]
    · simp only [insert, if_neg same] at ih ⊢
      split
      · rename_i replaced
        subst replaced
        simp [List.lookup_cons, beq_false_of_ne same]
      · split
        · simp [List.lookup_cons, beq_false_of_ne same]
        · simp only [List.lookup_cons, ih]

structure Gains (names : Name → Prop) (s t : Scope) : Prop where
  bound : ∀ x, (s.find? x).isSome → (t.find? x).isSome
  same : ∀ x, ¬ names x → t.find? x = s.find? x

theorem Gains.refl (names : Name → Prop) (s : Scope) : s.Gains names s :=
  ⟨fun _ bound => bound, fun _ _ => rfl⟩

theorem Gains.trans {names : Name → Prop} {s t u : Scope} (first : s.Gains names t)
    (second : t.Gains names u) :
    s.Gains names u :=
  ⟨fun x bound => second.bound x (first.bound x bound),
    fun x other => (second.same x other).trans (first.same x other)⟩

theorem gains_bind {names : Name → Prop} (s : Scope) {name : Name} (allowed : names name)
    (c : CellId) :
    s.Gains names (s.bind name c) := by
  constructor
  · intro x bound
    rw [find?_bind]
    split
    · rfl
    · exact bound
  · intro x other
    have differs : x ≠ name := fun same => other (same ▸ allowed)
    rw [find?_bind, if_neg differs]

end Scope

/-- Functions may have been defined, and if none of them is named like a block, some names may have
been bound. -/
def Machine.BindsOnly (names : Name → Prop) (m n : Machine) : Prop :=
  growth.moved m n ∧ (n.registry.Unshadowed → m.scope.Gains names n.scope)

abbrev Confines {α : Type} (names : Name → Prop) (x : Eval α) (m : Machine) : Prop :=
  Keeps (Machine.BindsOnly names) (fun _ _ => True) x m

section Confining

variable {α : Type} {names : Name → Prop} {m : Machine}

theorem Machine.BindsOnly.trans (m n k : Machine) (first : m.BindsOnly names n)
    (second : n.BindsOnly names k) :
    m.BindsOnly names k := by
  refine ⟨growth.trans m n k first.1 second.1, ?_⟩
  intro unshadowed
  exact (first.2 (unshadowed.before second.1.2)).trans (second.2 unshadowed)

theorem Machine.BindsOnly.of_eq {n : Machine} (grown : m.registry.Grown)
    (registry : n.registry = m.registry) (scope : n.scope = m.scope) : m.BindsOnly names n := by
  refine ⟨?_, fun _ => scope ▸ .refl names m.scope⟩
  show n.registry.Grown ∧ m.registry.Extends n.registry
  rw [registry]
  exact ⟨grown, .refl m.registry⟩

theorem Machine.BindsOnly.mono {wider : Name → Prop} (implies : ∀ x, names x → wider x)
    {n : Machine} (confined : m.BindsOnly names n) : m.BindsOnly wider n := by
  refine ⟨confined.1, fun unshadowed => ?_⟩
  have gains := confined.2 unshadowed
  exact ⟨gains.bound, fun x other => gains.same x fun named => other (implies x named)⟩

theorem Touches.confines {x : Eval α} (touches : Touches x m) (grown : m.registry.Grown) :
    Confines names x m := by
  apply touches.looser
  intro n touched
  rw [Machine.Touched] at touched
  rw [touched]
  exact .of_eq grown rfl rfl

theorem touches_unit : Touches Eval.unit m := touches_alloc .unit

theorem touches_lookup (name : Name) : Touches (lookup name) m :=
  keeps_get (keeps_ofExcept (.refl m) fun _ _ => trivial)

theorem confines_checkPatience (grown : m.registry.Grown) : Confines names checkPatience m := by
  unfold checkPatience
  apply keeps_get
  dsimp only
  split
  · exact keeps_pure (.of_eq grown rfl rfl) trivial
  · exact keeps_fail (.of_eq grown rfl rfl)
  · exact keeps_modify (.of_eq grown rfl rfl) trivial

theorem confines_inScope {good : α → Machine → Prop} {x : Eval α} {scope : Scope}
    (grows : Keeps growth.moved good x { m with scope }) : Confines names (inScope scope x) m :=
  keeps_inScope grows (fun _ move => ⟨move, fun _ => .refl names m.scope⟩) fun _ _ _ => trivial

theorem keeps_of_run {moved : Machine → Machine → Prop} {good : α → Machine → Prop} {x y : Eval α}
    (run : x m = y m) (keeps : Keeps moved good y m) : Keeps moved good x m := by
  unfold Keeps at keeps ⊢
  rwa [run]

end Confining

section Evaluating

variable {eval : Argument → Eval CellId} {args : List Argument} {names : Name → Prop}
  {m n : Machine} (each : ∀ a ∈ args, ∀ n, n.registry.Grown → Confines names (eval a) n)
include each

theorem Evaluations.confined {positions : List Nat} {cells : List CellId} (grown : m.registry.Grown)
    (evaluations : Evaluations eval args positions m cells n) : m.BindsOnly names n := by
  induction evaluations with
  | done m => exact .of_eq grown rfl rfl
  | @next i a c rest cells m n k argument run _ ih =>
    have first := each a (List.mem_of_getElem? argument) m grown
    unfold Confines Keeps at first
    rw [run] at first
    exact first.1.trans _ _ _ (ih first.1.1.1)

theorem Attempts.confined {positions : List Nat} {e : Stop} (grown : m.registry.Grown)
    (attempts : Attempts eval args e positions m n) : m.BindsOnly names n := by
  induction attempts with
  | done m => exact .of_eq grown rfl rfl
  | failed argument run =>
    have first := each _ (List.mem_of_getElem? argument) _ grown
    unfold Confines Keeps at first
    rwa [run] at first
  | next argument run _ ih =>
    have first := each _ (List.mem_of_getElem? argument) _ grown
    unfold Confines Keeps at first
    rw [run] at first
    exact first.1.trans _ _ _ (ih first.1.1.1)

/-- A computation that does nothing but evaluate arguments. -/
theorem Sweeps.confines {α : Type} {start : Nat} {good : List Nat → List CellId → α → Prop}
    {x : Eval α} (sweeps : Sweeps eval args start good x m) (grown : m.registry.Grown) :
    Keeps (Machine.BindsOnly names) (fun a _ => ∃ positions cells, good positions cells a) x m := by
  unfold Sweeps at sweeps
  unfold Keeps
  cases run : x m with
  | ok a n =>
    rw [run] at sweeps
    obtain ⟨positions, cells, -, evaluations, ok⟩ := sweeps
    exact ⟨evaluations.confined each grown, positions, cells, ok⟩
  | error e n =>
    rw [run] at sweeps
    obtain ⟨positions, -, attempts⟩ := sweeps
    exact attempts.confined each grown

end Evaluating

section Calling

variable {eval : Invocation → Eval CellId} {names : Name → Prop} {inv : Invocation} {m : Machine}
  {fuel : Nat}

theorem confines_runBind {args : List Prepared} (grown : m.registry.Grown)
    (allowed : ∀ name value, args.map Prepared.raw = [.ident name, value] → names name) :
    Confines names (ContextFunction.runBind args) m := by
  unfold ContextFunction.runBind
  split
  · rename_i target value
    split
    · rename_i name found
      have written : target.raw = .ident name := by
        cases raw : target.raw <;> simp_all [Argument.ident?]
      apply Keeps.bind Machine.BindsOnly.trans
        (keeps_need (fun _ n => n = m) (.of_eq grown rfl rfl) fun _ _ => rfl)
      rintro c n - rfl
      have gains := n.scope.gains_bind (allowed name value.raw (by simp [written])) c
      have bound : Confines names (Eval.bind name c) n :=
        keeps_modify ⟨⟨grown, .refl n.registry⟩, fun _ => gains⟩ trivial
      apply Keeps.bind Machine.BindsOnly.trans bound
      intro _ k move _
      exact touches_unit.confines move.1.1
    · exact keeps_get (keeps_fail (.of_eq grown rfl rfl))
  · exact keeps_throw (.of_eq grown rfl rfl)

theorem confines_runAssign (args : List Prepared) (grown : m.registry.Grown) :
    Confines names (ContextFunction.runAssign args) m := by
  apply Touches.confines _ grown
  unfold ContextFunction.runAssign
  split
  · split
    · apply Keeps.bind Machine.Touched.trans (touches_lookup _)
      intro c n _ _
      apply Keeps.bind Machine.Touched.trans
        (keeps_need (fun _ _ => True) (.refl n) fun _ _ => trivial)
      intro v k _ _
      have assigned := Keeps.bind Machine.Touched.trans (touches_stored (m := k) c v) fun _ j _ _ =>
        touches_unit
      simpa only [bind_assoc] using assigned
    · exact keeps_get (keeps_fail (.refl m))
  · exact keeps_throw (.refl m)

theorem confines_runDefine (args : List Prepared) (grown : m.registry.Grown) :
    Confines names (ContextFunction.runDefine args) m := by
  unfold ContextFunction.runDefine
  split
  · rename_i outline read
    have defined : Confines names (modify fun m => m.define outline) m :=
      keeps_modify ⟨⟨.define grown read _, .add m.registry _⟩, fun _ => .refl names m.scope⟩ trivial
    apply Keeps.bind Machine.BindsOnly.trans defined
    intro _ n move _
    have recorded : Confines names (Eval.record (.defined outline.signature)) n :=
      keeps_modify (.of_eq move.1.1 rfl rfl) trivial
    apply Keeps.bind Machine.BindsOnly.trans recorded
    intro _ k move _
    exact touches_unit.confines move.1.1
  · exact keeps_get (keeps_fail (.of_eq grown rfl rfl))

section Blocks

variable (obeyed : growth.ObeyedBy (evalArgument eval))
include obeyed

theorem confines_runConditional (predicate : Argument) (c : CellId) (body : List Prepared)
    (grown : m.registry.Grown) :
    Confines names (ContextFunction.runConditional (evalArgument eval)
      (⟨predicate, some c⟩ :: body)) m := by
  simp only [ContextFunction.runConditional, need, pure_bind]
  apply Keeps.bind Machine.BindsOnly.trans
    ((touches_expect Datum.boolean? .boolean c).confines grown)
  intro value n move _
  have grown := move.1.1
  split
  · have block : Confines names (inBlock (runBlock (evalArgument eval) body)) n :=
      confines_inScope (grows_runBlock obeyed body grown)
    apply Keeps.bind Machine.BindsOnly.trans block
    intro out k move _
    cases out with
    | none => exact touches_unit.confines move.1.1
    | some c => exact keeps_pure (.of_eq move.1.1 rfl rfl) trivial
  · exact touches_unit.confines grown

theorem confines_runLoop {predicate : Argument} (evaluated : ∀ n, n.registry.Grown →
      Confines names (evalArgument eval predicate) n) (body : List Prepared)
        (grown : m.registry.Grown) :
    Confines names (ContextFunction.runLoop (evalArgument eval) predicate body fuel) m := by
  induction fuel generalizing m with
  | zero => exact keeps_throw (.of_eq grown rfl rfl)
  | succ fuel ih =>
    simp only [ContextFunction.runLoop]
    apply Keeps.bind Machine.BindsOnly.trans (confines_checkPatience grown)
    intro _ n move _
    apply Keeps.bind Machine.BindsOnly.trans (evaluated n move.1.1)
    intro c k move _
    apply Keeps.bind Machine.BindsOnly.trans
      ((touches_expect Datum.boolean? .boolean c).confines move.1.1)
    intro value j move _
    split
    · have block : Confines names (inBlock (runBlock (evalArgument eval) body)) j :=
        confines_inScope (grows_runBlock obeyed body move.1.1)
      apply Keeps.bind Machine.BindsOnly.trans block
      intro out i move _
      split
      · exact ih move.1.1
      · apply keeps_contents
        split
        · exact touches_unit.confines move.1.1
        · exact ih move.1.1
        · exact keeps_pure (.of_eq move.1.1 rfl rfl) trivial
    · exact touches_unit.confines move.1.1

end Blocks

theorem confines_argument (confined : ∀ inv m, m.registry.Grown → Confines inv.Lets (eval inv) m)
    {i : Nat} {a : Argument} (argument : inv.args[i]? = some a) (reached : inv.Open i)
    (grown : m.registry.Grown) :
    Confines inv.Lets (evalArgument eval a) m := by
  cases a with
  | literal value => exact (touches_copied value).confines grown
  | ident name => exact (touches_lookup name).confines grown
  | unknown tag => exact keeps_fail (.of_eq grown rfl rfl)
  | call name args =>
    apply (confined ⟨name, args⟩ m grown).looser
    intro n
    exact Machine.BindsOnly.mono fun x lets => reached.lets argument x ⟨_, rfl, lets⟩

theorem confines_arrival (obeyed : growth.Obeyed eval) {a : Arrival}
    (called : a.function.signature.name = inv.name)
    (conditional : inv.name ≠ utf8 "if") (loop : inv.name ≠ utf8 "while")
    (define : inv.name ≠ utf8 "fn")
    (raws : ∀ c given, a = .context c given → given.map Prepared.raw = inv.args)
    (grown : m.registry.Grown) :
    Confines inv.Lets (a.run eval fuel) m := by
  cases a with
  | system f cells => exact (touches_system f cells).confines grown
  | defined f cells =>
    apply Keeps.bind Machine.BindsOnly.trans (confines_checkPatience grown)
    intro _ n move _
    exact confines_inScope (Discipline.gives_runBody obeyed move.1.1 fun inv _ =>
      Argument.everyOf_of_all (fun _ => trivial) inv.args)
  | context f given =>
    cases f with
    | bindName =>
      apply confines_runBind grown
      intro name value written
      rw [raws _ _ rfl] at written
      obtain ⟨callee, args⟩ := inv
      cases called
      cases written
      exact .here name value
    | assign => exact confines_runAssign given grown
    | conditional => exact absurd called.symm conditional
    | loop => exact absurd called.symm loop
    | define => exact absurd called.symm define

theorem confines_invoke {settings : Settings} {depth : Nat}
    {good : Function × List Pending → Machine → Prop}
    (resolved : Keeps (Machine.BindsOnly names) good (Matching.resolve (evalArgument eval) inv) m)
    (rest : ∀ f pending n, good (f, pending) n → ∀ k : Machine, k.registry.Grown →
      Confines names (dispatch eval fuel f pending) k) :
    Confines names (invoke settings eval fuel depth inv) m := by
  unfold invoke
  apply Keeps.bind Machine.BindsOnly.trans resolved
  rintro ⟨f, pending⟩ n move found
  dsimp only
  split
  · have recorded : Confines names (Eval.record (.invoke inv.name f.origin depth)) n :=
      keeps_modify (.of_eq move.1.1 rfl rfl) trivial
    apply Keeps.bind Machine.BindsOnly.trans recorded
    intro _ k move _
    exact rest f pending n found k move.1.1
  · exact rest f pending n found n move.1.1

theorem confines_raw {settings : Settings} {depth : Nat} (grown : m.registry.Grown)
    {f : ContextFunction} (arity : ∀ count, f.signature.acceptsArity count)
    (raw : ∀ i, f.signature.slot? i = some .raw) (args : List Argument)
    (rest : ∀ n : Machine, n.registry.Grown →
      Confines names (f.run (evalArgument eval) fuel (args.map Prepared.written)) n) :
    Confines names (invoke settings eval fuel depth ⟨f.signature.name, args⟩) m := by
  have resolved :
      Keeps (Machine.BindsOnly names) (fun out _ => out = (.context f, args.map .ofArgument))
      (Matching.resolve (evalArgument eval) ⟨f.signature.name, args⟩) m :=
    keeps_of_run (Matching.resolve_raw (evalArgument eval) grown arity raw args)
      (keeps_pure (.of_eq grown rfl rfl) rfl)
  apply confines_invoke resolved
  rintro _ _ n ⟨⟩ k grown
  rw [dispatch_raw raw]
  exact rest k grown

section Invoking

variable (obeyed : growth.Obeyed eval)
  (confined : ∀ inv m, m.registry.Grown → Confines inv.Lets (eval inv) m)
  {settings : Settings} {depth : Nat} (grown : m.registry.Grown)
include obeyed confined grown

theorem confines_ordinary (conditional : inv.name ≠ utf8 "if") (loop : inv.name ≠ utf8 "while")
    (define : inv.name ≠ utf8 "fn") :
    Confines inv.Lets (invoke settings eval fuel depth inv) m := by
  have each : ∀ a ∈ inv.args, ∀ n, n.registry.Grown →
      Confines inv.Lets (evalArgument eval a) n := by
    intro a member n grown
    obtain ⟨i, argument⟩ := List.mem_iff_getElem?.mp member
    exact confines_argument confined argument
      ⟨define, fun blocks => absurd blocks (by simp [conditional, loop])⟩ grown
  apply confines_invoke ((prolongs_resolve grown).confines each grown)
  rintro f pending n ⟨_, known, -, member, matched⟩ k grown'
  rw [dispatch_eq]
  have kind := grown.eager_or_context inv.name member
  apply Keeps.bind Machine.BindsOnly.trans ((sweeps_gather matched kind).confines each grown')
  rintro a j move ⟨_, _, rfl, -, raws⟩
  exact confines_arrival obeyed (grown.name_of_candidate member) conditional loop define
    raws move.1.1

theorem confines_loop (args : List Argument) :
    Confines (Invocation.Lets ⟨utf8 "while", args⟩)
      (invoke settings eval fuel depth ⟨utf8 "while", args⟩) m := by
  refine confines_raw grown (f := .loop) (fun _ => rfl) ContextFunction.loop_raw args ?_
  intro n grown
  cases args with
  | nil => exact keeps_fail (.of_eq grown rfl rfl)
  | cons predicate body =>
    apply confines_runLoop (Discipline.obeyedBy_evalArgument obeyed) _ _ grown
    intro k grown
    exact confines_argument confined rfl (Invocation.open_loop _) grown

omit obeyed in
theorem keeps_resolve_conditional (unshadowed : m.registry.Unshadowed) (predicate : Argument)
    (body : List Argument) :
    Keeps (Machine.BindsOnly (Invocation.Lets ⟨utf8 "if", predicate :: body⟩))
      (fun out _ => ∃ p : Pending, out = (.context .conditional, p :: body.map .ofArgument) ∧
        p.arg = predicate)
      (Matching.resolve (evalArgument eval) ⟨utf8 "if", predicate :: body⟩) m := by
  have oldest := unshadowed.candidates_if grown
  cases told : Matching.shape? m predicate with
  | some shape =>
    have run := Matching.resolve_told (evalArgument eval) oldest body told
    by_cases boolean : shape = .boolean
    · rw [if_pos boolean] at run
      exact keeps_of_run run (keeps_pure (.of_eq grown rfl rfl) ⟨_, rfl, rfl⟩)
    · rw [if_neg boolean] at run
      exact keeps_of_run run (keeps_get (keeps_fail (.of_eq grown rfl rfl)))
  | none =>
    apply keeps_of_run (Matching.resolve_untold (evalArgument eval) oldest body told)
    apply Keeps.bind Machine.BindsOnly.trans
      (confines_argument confined rfl (Invocation.open_conditional _) grown)
    intro c n move _
    apply keeps_contents
    split
    · exact keeps_pure (.of_eq move.1.1 rfl rfl) ⟨_, rfl, rfl⟩
    · exact keeps_get (keeps_fail (.of_eq move.1.1 rfl rfl))

theorem confines_conditional (args : List Argument) :
    Confines (Invocation.Lets ⟨utf8 "if", args⟩)
      (invoke settings eval fuel depth ⟨utf8 "if", args⟩) m := by
  by_cases unshadowed : m.registry.Unshadowed
  · cases args with
    | nil =>
      have resolved : Keeps (Machine.BindsOnly (Invocation.Lets ⟨utf8 "if", []⟩))
          (fun out _ => out = (.context .conditional, []))
            (Matching.resolve (evalArgument eval) ⟨utf8 "if", []⟩) m :=
        keeps_of_run (Matching.resolve_bare (evalArgument eval) (unshadowed.candidates_if grown))
          (keeps_pure (.of_eq grown rfl rfl) rfl)
      apply confines_invoke resolved
      rintro _ _ n ⟨⟩ k grown
      exact keeps_fail (.of_eq grown rfl rfl)
    | cons predicate body =>
      have argument := Discipline.obeyedBy_evalArgument obeyed
      apply confines_invoke (keeps_resolve_conditional confined grown unshadowed predicate body)
      rintro _ _ n ⟨p, ⟨⟩, rfl⟩ k grown
      rw [dispatch_conditional]
      split
      · rw [pure_bind]
        exact confines_runConditional argument p.arg _ _ grown
      · apply Keeps.bind Machine.BindsOnly.trans
          (confines_argument confined rfl (Invocation.open_conditional _) grown)
        intro c j move _
        exact confines_runConditional argument p.arg _ _ move.1.1
  · -- Where there is an `if` of the program's own, nothing is said about the scope.
    have every : Invocation.Every (growth.literal m) ⟨utf8 "if", args⟩ :=
      Argument.everyOf_of_all (fun _ => trivial) args
    have grows : growth.Gives (invoke settings eval fuel depth ⟨utf8 "if", args⟩) m :=
      Discipline.gives_invoke obeyed grown every
    refine (grows.imp fun _ _ _ _ => trivial).looser fun n move => ⟨move, ?_⟩
    intro unshadowed'
    exact absurd (unshadowed'.before move.2) unshadowed

end Invoking

end Calling

theorem confined_evaluate (settings : Settings) (fuel depth : Nat) (inv : Invocation) (m : Machine)
    (grown : m.registry.Grown) : Confines inv.Lets (evaluate settings fuel depth inv) m := by
  induction fuel generalizing depth inv m with
  | zero => exact keeps_throw (.of_eq grown rfl rfl)
  | succ fuel ih =>
    have obeyed : growth.Obeyed (evaluate settings fuel (depth + 1)) :=
      Discipline.obeyed_evaluate settings fuel _
    have invoked :
        Confines inv.Lets
          (invoke settings (evaluate settings fuel (depth + 1)) fuel (depth + 1) inv) m := by
      obtain ⟨name, args⟩ := inv
      by_cases conditional : name = utf8 "if"
      · subst conditional
        exact confines_conditional obeyed (ih (depth + 1)) grown args
      by_cases loop : name = utf8 "while"
      · subst loop
        exact confines_loop obeyed (ih (depth + 1)) grown args
      by_cases define : name = utf8 "fn"
      · subst define
        exact confines_raw grown (f := .define) (fun _ => rfl) ContextFunction.define_raw args
          fun n grown => confines_runDefine _ grown
      exact confines_ordinary obeyed (ih (depth + 1)) grown conditional loop define
    apply keeps_inCall
    split
    · split
      · exact keeps_fail (.of_eq grown rfl rfl)
      · exact invoked
    · exact invoked

/-- However an evaluation ends, if no program has defined an `if` or a `while` by then, the names
that were bound still are, and what any name is bound to has changed only if the invocation has a
`let` of it that is evaluated in its scope. -/
theorem evaluation_binds_own_lets {r : Machine} (reached : Reached r) (scope : Scope)
    (settings : Settings) (fuel depth : Nat) (inv : Invocation)
    (unshadowed : (after (evaluate settings fuel depth inv) { r with scope }).registry.Unshadowed) :
    let left := (after (evaluate settings fuel depth inv) { r with scope }).scope
    (∀ x, (scope.find? x).isSome → (left.find? x).isSome) ∧ ∀ x, left.find? x ≠ scope.find? x →
      inv.Lets x := by
  have grown : ({ r with scope } : Machine).registry.Grown := reached.sound.registry
  have gains := (confined_evaluate settings fuel depth inv _ grown).move.2 unshadowed
  refine ⟨gains.bound, ?_⟩
  intro x changed
  by_contra other
  exact changed (gains.same x other)

/-- `let(x, 1) fn(f, bool, let(x, 2), return(==(x, 2)))` -/
def rebindInBody : Program :=
  [⟨utf8 "let", [.ident (utf8 "x"), .literal (.number (.ofNat 1))]⟩,
    ⟨utf8 "fn", [.ident (utf8 "f"), .ident (utf8 "bool"),
      .call (utf8 "let") [.ident (utf8 "x"), .literal (.number (.ofNat 2))],
      .call (utf8 "return")
        [.call (utf8 "==") [.ident (utf8 "x"), .literal (.number (.ofNat 2))]]]⟩]

def rebindInBlock : Invocation :=
  ⟨utf8 "if",
    [.call (utf8 "f") [], .call (utf8 "let") [.ident (utf8 "x"), .literal (.number (.ofNat 3))]]⟩

theorem evaluation_binds_own_lets_block :
    let r := ((Interpreter.new 0 false (.ofInput [])).execute 5 .endless rebindInBody).2.machine
    let n := after (evaluate ⟨none, false⟩ 5 0 rebindInBlock) r
    n.registry.Unshadowed ∧ n.scope.find? (utf8 "x") = some 4 := by
  intro r n
  have hosted := Interpreter.Hosted.new 0 false (.ofInput [])
  have reached : Reached r := .between (hosted.execute 5 .endless rebindInBody (by
    simp [rebindInBody, Invocation.Every, Argument.EveryOf, Argument.Every, Datum.Within,
      Datum.cells]))
  have unshadowed : n.registry.Unshadowed := by
    unfold Registry.Unshadowed
    decide +kernel
  have before : r.scope.find? (utf8 "x") = some 4 := by decide +kernel
  obtain ⟨-, own⟩ :=
    evaluation_binds_own_lets reached r.scope ⟨none, false⟩ 5 0 rebindInBlock unshadowed
  refine ⟨unshadowed, ?_⟩
  rw [← before]
  by_contra changed
  rcases Invocation.lets_iff.mp (own (utf8 "x") changed) with
    ⟨_, same⟩ | ⟨i, ⟨name, args⟩, argument, ⟨-, first⟩, lets⟩
  · have other : rebindInBlock.name ≠ utf8 "let" := by decide +kernel
    exact other (congrArg Invocation.name same)
  · -- The only way into the block is the predicate, and there is nothing in it.
    cases first (Or.inl rfl)
    cases argument
    rcases Invocation.lets_iff.mp lets with ⟨_, same⟩ | ⟨i, inner, argument, -⟩
    · exact absurd (congrArg Invocation.args same) (by simp)
    · exact absurd argument (by simp)

end CallScript
