import CallScript.Proofs.Run.Keeping
import CallScript.Run.Evaluator

/- What every run keeps, from what its single actions keep. A discipline names a property of
   machines, a relation between the machines before and after a computation, and the cells, literals
   and functions that a computation may meet; it has a law for each way in which evaluation touches
   a machine. Evaluation then obeys the discipline, since everything it does is made of these
   actions. -/
namespace CallScript

open Eval

mutual

def Argument.Every (p : Datum → Prop) : Argument → Prop
  | .call _ args => Argument.EveryOf p args
  | .literal value => p value
  | .ident _ | .unknown _ => True

def Argument.EveryOf (p : Datum → Prop) : List Argument → Prop
  | [] => True
  | a :: rest => a.Every p ∧ Argument.EveryOf p rest

end

def Invocation.Every (p : Datum → Prop) (inv : Invocation) : Prop := Argument.EveryOf p inv.args

theorem Argument.everyOf_iff {p : Datum → Prop} {args : List Argument} :
    Argument.EveryOf p args ↔ ∀ a ∈ args, a.Every p := by
  induction args with
  | nil => simp [Argument.EveryOf]
  | cons a rest ih => simp [Argument.EveryOf, ih]

theorem Argument.every_call {p : Datum → Prop} {inv : Invocation} :
    (Argument.call inv.name inv.args).Every p ↔ inv.Every p := by
  simp [Argument.Every, Invocation.Every]

mutual

theorem Argument.Every.mono {p q : Datum → Prop} (implies : ∀ d, p d → q d) :
    ∀ {a : Argument}, a.Every p → a.Every q
  | .call _ args, every => by
    simp only [Argument.Every] at every ⊢
    exact Argument.EveryOf.mono implies every
  | .literal value, every => by
    simp only [Argument.Every] at every ⊢
    exact implies value every
  | .ident _, _ | .unknown _, _ => by simp only [Argument.Every]

theorem Argument.EveryOf.mono {p q : Datum → Prop} (implies : ∀ d, p d → q d) :
    ∀ {args : List Argument}, Argument.EveryOf p args → Argument.EveryOf q args
  | [], _ => by simp only [Argument.EveryOf]
  | _ :: _, every => by
    simp only [Argument.EveryOf] at every ⊢
    exact ⟨every.1.mono implies, every.2.mono implies⟩

end

mutual

theorem Argument.every_of_all {p : Datum → Prop} (all : ∀ d, p d) : ∀ a : Argument, a.Every p
  | .call _ args => by
    simp only [Argument.Every]
    exact Argument.everyOf_of_all all args
  | .literal value => by
    simp only [Argument.Every]
    exact all value
  | .ident _ | .unknown _ => by simp only [Argument.Every]

theorem Argument.everyOf_of_all {p : Datum → Prop} (all : ∀ d, p d) :
    ∀ args, Argument.EveryOf p args
  | [] => by simp only [Argument.EveryOf]
  | a :: rest => by
    simp only [Argument.EveryOf]
    exact ⟨Argument.every_of_all all a, Argument.everyOf_of_all all rest⟩

end

def entered (settings : Settings) (eval : Invocation → Eval CellId) (fuel depth : Nat)
    (inv : Invocation) : Eval CellId :=
  inCall inv <|
    match settings.depthLimit with
    | some limit =>
      if limit ≤ depth then fail (.depthExceeded limit)
      else invoke settings eval fuel (depth + 1) inv
    | none => invoke settings eval fuel (depth + 1) inv

theorem evaluate_succ (settings : Settings) (fuel depth : Nat) (inv : Invocation) :
    evaluate settings (fuel + 1) depth inv =
      entered settings (evaluate settings fuel (depth + 1)) fuel depth inv := rfl

/-- Evaluation that is interrupted at the first invocation, of any depth, that starts or ends with a
machine to halt at. The machine it leaves is then one that evaluation passes through, but for the
scope, which is that of the outermost invocation. -/
def evaluateUntil (halt : Machine → Bool) (settings : Settings) :
    Nat → Nat → Invocation → Eval CellId
  | 0, _, _ => throw .outOfFuel
  | fuel + 1, depth, inv =>
    interrupt halt (entered settings (evaluateUntil halt settings fuel (depth + 1)) fuel depth inv)

theorem evaluateUntil_never (settings : Settings) (fuel depth : Nat) :
    evaluateUntil (fun _ => false) settings fuel depth = evaluate settings fuel depth := by
  induction fuel generalizing depth with
  | zero => rfl
  | succ fuel ih =>
    funext inv
    rw [evaluateUntil, interrupt_never, ih, evaluate_succ]

/-- A machine with a new function, and a copy of its scope for the function to keep. -/
def Machine.define (m : Machine) (outline : Outline) : Machine :=
  { m with
    heap := (m.scope.snapshot m.heap).2
    registry := m.registry.add (.defined (outline.close (m.scope.snapshot m.heap).1)) }

structure Discipline where
  sound : Machine → Prop
  moved : Machine → Machine → Prop
  cell : Machine → CellId → Prop
  literal : Machine → Datum → Prop
  function : Machine → Function → Prop
  still : ∀ m, sound m → moved m m
  trans : ∀ m n k, moved m n → moved n k → moved m k
  sound_after : ∀ m n, moved m n → sound n
  cell_after : ∀ m n c, moved m n → cell m c → cell n c
  literal_after : ∀ m n d, moved m n → literal m d → literal n d
  function_after : ∀ m n f, moved m n → function m f → function n f
  cell_scope : ∀ m c scope, cell m c → cell { m with scope } c
  bound : ∀ m name c, sound m → m.scope.find? name = some c → cell m c
  returned : ∀ m c e, sound m → cell m c → m.heap.get c = .flow .returns (some e) → cell m e
  candidate : ∀ m name f, sound m → f ∈ m.registry.candidates name → function m f
  record : ∀ m entry, sound m → moved m { m with log := entry :: m.log }
  spend : ∀ m patience, sound m → moved m { m with patience }
  unit : ∀ m, sound m → Keeps moved (fun c n => cell n c) Eval.unit m
  copied : ∀ m d, sound m → literal m d →
    Keeps moved (fun c n => cell n c) (do alloc (← Eval.copy d)) m
  bind : ∀ m name c, sound m → cell m c → moved m { m with scope := m.scope.bind name c }
  assign : ∀ m c v, sound m → cell m c → cell m v →
    Keeps moved (fun _ _ => True) (do store c (← Eval.copy (← contents v))) m
  define : ∀ m args outline, sound m → Outline.ofArguments args = .ok outline →
    (∀ a ∈ args, a.Every (literal m)) → moved m (m.define outline)
  system : ∀ m (f : SystemFunction) args, sound m → (∀ c ∈ args, cell m c) →
    Keeps moved (fun c n => cell n c) (f.run args) m
  /-- A defined function may start in its closure, and there its body may be run. -/
  enter : ∀ m (f : Definition) args, sound m → function m (.defined f) → (∀ c ∈ args, cell m c) →
    let inner := { m with scope := f.closure.bindAll (f.params.zip args) }
    sound inner ∧ ∀ inv ∈ f.body, inv.Every (literal inner)
  leave : ∀ m n scope, sound m → moved { m with scope } n → moved m { n with scope := m.scope }

namespace Discipline

variable {R : Discipline} {m : Machine} {α β : Type}

abbrev Gives (R : Discipline) (x : Eval CellId) (m : Machine) : Prop :=
  Keeps R.moved (fun c n => R.cell n c) x m

def Obeyed (R : Discipline) (eval : Invocation → Eval CellId) : Prop :=
  ∀ inv m, R.sound m → inv.Every (R.literal m) → R.Gives (eval inv) m

def ObeyedBy (R : Discipline) (eval : Argument → Eval CellId) : Prop :=
  ∀ a m, R.sound m → a.Every (R.literal m) → R.Gives (eval a) m

/-- A pending argument: its literals are allowed, and so is its cell. -/
structure Ready (R : Discipline) (m : Machine) (p : Pending) : Prop where
  arg : p.arg.Every (R.literal m)
  cell : ∀ c, p.cell = some c → R.cell m c

structure Given (R : Discipline) (m : Machine) (p : Prepared) : Prop where
  raw : p.raw.Every (R.literal m)
  cell : ∀ c, p.cell = some c → R.cell m c

theorem stays {n : Machine} (move : R.moved m n) : R.moved n n :=
  R.still n (R.sound_after m n move)

theorem every_after {n : Machine} {a : Argument} (move : R.moved m n)
    (every : a.Every (R.literal m)) :
    a.Every (R.literal n) :=
  every.mono fun d ok => R.literal_after m n d move ok

theorem Ready.after {n : Machine} {p : Pending} (move : R.moved m n) (ready : R.Ready m p) :
    R.Ready n p :=
  ⟨every_after move ready.arg, fun c found => R.cell_after m n c move (ready.cell c found)⟩

theorem Given.after {n : Machine} {p : Prepared} (move : R.moved m n) (given : R.Given m p) :
    R.Given n p :=
  ⟨every_after move given.raw, fun c found => R.cell_after m n c move (given.cell c found)⟩

theorem Ready.forget {p : Pending} (ready : R.Ready m p) : R.Ready m p.forget :=
  ⟨ready.arg, ready.cell⟩

theorem keeps_inBlock {good : α → Machine → Prop} {x : Eval α} (sound : R.sound m)
    (keeps : Keeps R.moved good x m) (persists : ∀ a n scope, good a n → good a { n with scope }) :
    Keeps R.moved good (inBlock x) m := by
  unfold Keeps
  rw [inBlock_eq]
  exact keeps_inScope keeps (fun n move => R.leave m n m.scope sound move)
    fun a n ok => persists a n m.scope ok

theorem keeps_checkPatience (sound : R.sound m) :
    Keeps R.moved (fun _ _ => True) checkPatience m := by
  unfold checkPatience
  apply keeps_get
  dsimp only
  split
  · exact keeps_pure (R.still m sound) trivial
  · exact keeps_fail (R.still m sound)
  · exact keeps_modify (R.spend m _ sound) trivial

theorem keeps_record (entry : LogEntry) (sound : R.sound m) :
    Keeps R.moved (fun _ _ => True) (Eval.record entry) m :=
  keeps_modify (R.record m entry sound) trivial

theorem gives_lookup {name : Name} (sound : R.sound m) : R.Gives (lookup name) m := by
  apply keeps_get
  apply keeps_ofExcept (R.still m sound)
  intro c found
  apply R.bound m name c sound
  unfold Scope.lookup at found
  split at found
  · cases found
    assumption
  · cases found

theorem obeyedBy_evalArgument {eval : Invocation → Eval CellId} (obeyed : R.Obeyed eval) :
    R.ObeyedBy (evalArgument eval) := by
  intro a m sound every
  cases a with
  | literal value => exact R.copied m value sound (by simpa [Argument.Every] using every)
  | ident name => exact gives_lookup sound
  | call name args => exact obeyed ⟨name, args⟩ m sound (Argument.every_call.mp every)
  | unknown tag => exact keeps_fail (R.still m sound)

theorem Ready.asked {p : Pending} (ready : R.Ready m p) (n : Machine) :
    R.Ready m (p.shape? n).2 := by
  unfold Pending.shape?
  split
  · exact ready
  · exact ready
  · exact ⟨ready.arg, ready.cell⟩

section Matching

variable {eval : Argument → Eval CellId} (obeyed : R.ObeyedBy eval)
include obeyed

theorem keeps_force {s : Signature} {last position : Nat} {args : List Pending} (sound : R.sound m)
    (ready : ∀ p ∈ args, R.Ready m p) :
    Keeps R.moved (fun out n => ∀ p ∈ out, R.Ready n p)
      (Matching.force eval s last position args) m := by
  induction args generalizing m position with
  | nil => exact keeps_pure (R.still m sound) (by simp)
  | cons p rest ih =>
    have first := ready p List.mem_cons_self
    have others : ∀ q ∈ rest, R.Ready m q := fun q member => ready q (List.mem_cons_of_mem p member)
    -- The rest is forced from a machine in which the first argument is ready.
    have goOn : ∀ (q : Pending) n, R.moved m n → R.Ready n q →
        Keeps R.moved (fun out n => ∀ p ∈ out, R.Ready n p)
          (do let rest ← Matching.force eval s last (position + 1) rest; return q :: rest) n := by
      intro q n move ready
      apply Keeps.bind R.trans
        (ih (R.sound_after m n move) fun r member => (others r member).after move)
      intro out k move' done
      apply keeps_pure (stays move')
      intro r member
      rcases List.mem_cons.mp member with rfl | member
      · exact ready.after move'
      · exact done r member
    simp only [Matching.force]
    split
    · apply keeps_pure (R.still m sound)
      intro q member
      obtain ⟨r, held, rfl⟩ := List.mem_map.mp member
      exact (ready r held).forget
    · split
      · exact goOn _ m (R.still m sound) first.forget
      · apply Keeps.bind R.trans (obeyed p.arg m sound first.arg)
        intro c n move ok
        refine goOn _ n move ⟨every_after move first.arg, ?_⟩
        intro e same
        cases same
        exact ok
      · exact keeps_throw (R.still m sound)
      · exact goOn _ m (R.still m sound) first.forget

theorem keeps_accepts {s : Signature} {left position : Nat} {args : List Pending}
    (sound : R.sound m) (ready : ∀ p ∈ args, R.Ready m p) :
    Keeps R.moved (fun out n => ∀ p ∈ out.2, R.Ready n p)
      (Matching.accepts eval s left position args) m := by
  induction left generalizing m position args with
  | zero => exact keeps_pure (R.still m sound) ready
  | succ left ih =>
    simp only [Matching.accepts]
    apply Keeps.bind R.trans (keeps_need (fun _ n => n = m) (R.still m sound) fun _ _ => rfl)
    rintro slot n - rfl
    split
    · rename_i required
      apply Keeps.bind R.trans (keeps_need (fun p k => k = n ∧ p ∈ args) (R.still n sound)
        fun p found => ⟨rfl, List.mem_of_getElem? found⟩)
      rintro p k - ⟨rfl, member⟩
      apply keeps_get
      split
      · rename_i shape q asked
        -- Asking for a shape changes what is remembered of it, but neither argument nor cell.
        have ready' : ∀ r ∈ args.set position q, R.Ready k r := by
          intro r held
          rcases List.mem_or_eq_of_mem_set held with held | rfl
          · exact ready r held
          · have := (ready p member).asked k
            rwa [asked] at this
        split
        · exact ih sound ready'
        · exact keeps_pure (R.still k sound) ready'
      · apply Keeps.bind R.trans (keeps_force obeyed sound ready)
        intro forced j move done
        have sound' := R.sound_after _ _ move
        apply Keeps.bind R.trans (keeps_need (fun _ i => i = j) (R.still j sound') fun _ _ => rfl)
        rintro c i - rfl
        apply keeps_contents
        split
        · exact ih sound' done
        · exact keeps_pure (R.still _ sound') done
    · exact ih sound ready

theorem keeps_choose {name : Name} {candidates : List Function} {args : List Pending}
    (sound : R.sound m) (known : ∀ f ∈ candidates, R.function m f)
    (ready : ∀ p ∈ args, R.Ready m p) :
    Keeps R.moved (fun out n => R.function n out.1 ∧ ∀ p ∈ out.2, R.Ready n p)
      (Matching.choose eval name candidates args) m := by
  induction candidates generalizing m args with
  | nil => exact keeps_get (keeps_fail (R.still m sound))
  | cons f rest ih =>
    simp only [Matching.choose]
    split
    · apply Keeps.bind R.trans (keeps_accepts obeyed sound ready)
      intro out n move done
      have sound' := R.sound_after m n move
      split
      · exact keeps_pure (R.still n sound')
          ⟨R.function_after m n f move (known f List.mem_cons_self), done⟩
      · exact ih sound' (fun g member =>
          R.function_after m n g move (known g (List.mem_cons_of_mem f member))) done
    · exact ih sound (fun g member => known g (List.mem_cons_of_mem f member)) ready

theorem keeps_resolve {inv : Invocation} (sound : R.sound m) (every : inv.Every (R.literal m)) :
    Keeps R.moved (fun out n => R.function n out.1 ∧ ∀ p ∈ out.2, R.Ready n p)
      (Matching.resolve eval inv) m := by
  apply keeps_get
  apply keeps_choose obeyed sound
  · intro f member
    exact R.candidate m inv.name f sound member
  · intro p member
    obtain ⟨a, held, rfl⟩ := List.mem_map.mp member
    refine ⟨Argument.everyOf_iff.mp every a held, ?_⟩
    intro c found
    cases found

theorem keeps_evalRemaining {args : List Pending} (sound : R.sound m)
    (ready : ∀ p ∈ args, R.Ready m p) :
    Keeps R.moved (fun cells n => ∀ c ∈ cells, R.cell n c) (evalRemaining eval args) m := by
  apply keeps_mapM R.trans _ (R.still m sound) (fun c n k move ok => R.cell_after n k c move ok)
    fun n k move => stays move
  intro p member n move
  have ready' := (ready p member).after move
  split
  · rename_i c found
    exact keeps_pure (stays move) (ready'.cell c found)
  · exact obeyed p.arg n (R.sound_after m n move) ready'.arg

theorem keeps_prepareOne {p : Pending} (slot : Slot) (sound : R.sound m) (ready : R.Ready m p) :
    Keeps R.moved (fun out n => R.Given n out) (prepareOne eval p slot) m := by
  unfold prepareOne
  split
  · exact keeps_pure (R.still m sound) ⟨ready.arg, by simp⟩
  · split
    · rename_i c found
      refine keeps_pure (R.still m sound) ⟨ready.arg, ?_⟩
      rintro e ⟨⟩
      exact ready.cell c found
    · apply Keeps.bind R.trans (obeyed p.arg m sound ready.arg)
      intro c n move ok
      refine keeps_pure (stays move) ⟨every_after move ready.arg, ?_⟩
      rintro e ⟨⟩
      exact ok

theorem keeps_prepare {s : Signature} {position : Nat} {args : List Pending} (sound : R.sound m)
    (ready : ∀ p ∈ args, R.Ready m p) :
    Keeps R.moved (fun out n => ∀ p ∈ out, R.Given n p) (prepare eval s position args) m := by
  induction args generalizing m position with
  | nil => exact keeps_pure (R.still m sound) (by simp)
  | cons p rest ih =>
    simp only [prepare]
    apply Keeps.bind R.trans (keeps_need (fun _ n => n = m) (R.still m sound) fun _ _ => rfl)
    rintro slot n - rfl
    apply Keeps.bind R.trans (keeps_prepareOne obeyed slot sound (ready p List.mem_cons_self))
    intro first k move given
    apply Keeps.bind R.trans (ih (R.sound_after n k move) fun q member =>
      (ready q (List.mem_cons_of_mem p member)).after move)
    intro out j move' others
    apply keeps_pure (stays move')
    intro q member
    rcases List.mem_cons.mp member with rfl | member
    · exact given.after move'
    · exact others q member

theorem keeps_runBlock {body : List Prepared} (sound : R.sound m)
    (given : ∀ p ∈ body, R.Given m p) :
    Keeps R.moved (fun out n => ∀ c, out = some c → R.cell n c) (runBlock eval body) m := by
  induction body generalizing m with
  | nil => exact keeps_pure (R.still m sound) (by simp)
  | cons s rest ih =>
    simp only [runBlock]
    apply Keeps.bind R.trans (obeyed s.raw m sound (given s List.mem_cons_self).raw)
    intro c n move ok
    have sound' := R.sound_after m n move
    apply keeps_contents
    split
    · refine keeps_pure (R.still n sound') ?_
      rintro e ⟨⟩
      exact ok
    · exact ih sound' fun p member => (given p (List.mem_cons_of_mem s member)).after move

theorem gives_runConditional {args : List Prepared} (sound : R.sound m)
    (given : ∀ p ∈ args, R.Given m p) : R.Gives (ContextFunction.runConditional eval args) m := by
  cases args with
  | nil => exact keeps_fail (R.still m sound)
  | cons condition body =>
    simp only [ContextFunction.runConditional]
    apply Keeps.bind R.trans (keeps_need (fun _ n => n = m) (R.still m sound) fun _ _ => rfl)
    rintro c n - rfl
    apply Keeps.bind R.trans (keeps_expect (fun _ k => k = n) (R.still n sound) fun _ _ => rfl)
    rintro value k - rfl
    split
    · have block := keeps_runBlock obeyed sound fun p member =>
        given p (List.mem_cons_of_mem _ member)
      apply Keeps.bind R.trans (keeps_inBlock sound block fun o n scope ok c found =>
        R.cell_scope n c scope (ok c found))
      intro out j move ok
      cases out with
      | none => exact R.unit j (R.sound_after _ _ move)
      | some c => exact keeps_pure (stays move) (ok c rfl)
    · exact R.unit k sound

theorem gives_runLoop {predicate : Argument} {body : List Prepared} {fuel : Nat} (sound : R.sound m)
    (every : predicate.Every (R.literal m)) (given : ∀ p ∈ body, R.Given m p) :
    R.Gives (ContextFunction.runLoop eval predicate body fuel) m := by
  induction fuel generalizing m with
  | zero => exact keeps_throw (R.still m sound)
  | succ fuel ih =>
    have again : ∀ n, R.moved m n → R.Gives (ContextFunction.runLoop eval predicate body fuel) n :=
      fun n move => ih (R.sound_after m n move) (every_after move every)
        fun p member => (given p member).after move
    simp only [ContextFunction.runLoop]
    apply Keeps.bind R.trans (keeps_checkPatience sound)
    intro _ n move _
    apply Keeps.bind R.trans (obeyed predicate n (R.sound_after m n move) (every_after move every))
    intro c k move' _
    have move := R.trans _ _ _ move move'
    have sound' := R.sound_after m k move
    apply Keeps.bind R.trans (keeps_expect (fun _ j => j = k) (R.still k sound') fun _ _ => rfl)
    rintro value j - rfl
    split
    · have block := keeps_runBlock obeyed sound' fun p member => (given p member).after move
      apply Keeps.bind R.trans (keeps_inBlock sound' block fun o n scope ok c found =>
        R.cell_scope n c scope (ok c found))
      intro out i move' ok
      have move := R.trans _ _ _ move move'
      have sound'' := R.sound_after m i move
      split
      · exact again i move
      · rename_i e
        apply keeps_contents
        split
        · exact R.unit i sound''
        · exact again i move
        · exact keeps_pure (R.still i sound'') (ok e rfl)
    · exact R.unit j sound'

end Matching

theorem gives_runBind {args : List Prepared} (sound : R.sound m) (given : ∀ p ∈ args, R.Given m p) :
    R.Gives (ContextFunction.runBind args) m := by
  unfold ContextFunction.runBind
  split
  · rename_i target value
    split
    · rename_i name _
      apply Keeps.bind R.trans (keeps_need (fun c n => n = m ∧ R.cell m c) (R.still m sound)
        fun c found => ⟨rfl, (given value (by simp)).cell c found⟩)
      rintro c n - ⟨rfl, ok⟩
      have bound : Keeps R.moved (fun _ _ => True) (Eval.bind name c) n :=
        keeps_modify (R.bind n name c sound ok) trivial
      apply Keeps.bind R.trans bound
      intro _ k move _
      exact R.unit k (R.sound_after n k move)
    · exact keeps_get (keeps_fail (R.still m sound))
  · exact keeps_throw (R.still m sound)

theorem gives_runAssign {args : List Prepared} (sound : R.sound m)
    (given : ∀ p ∈ args, R.Given m p) : R.Gives (ContextFunction.runAssign args) m := by
  unfold ContextFunction.runAssign
  split
  · rename_i target value
    split
    · apply Keeps.bind R.trans (gives_lookup sound)
      intro c n move held
      have sound' := R.sound_after m n move
      have given' := (given value (by simp)).after move
      apply Keeps.bind R.trans (keeps_need (fun v k => k = n ∧ R.cell n v) (R.still n sound')
        fun v found => ⟨rfl, given'.cell v found⟩)
      rintro v k - ⟨rfl, ok⟩
      have assigned := Keeps.bind R.trans (R.assign k c v sound' held ok) fun _ j move _ =>
        R.unit j (R.sound_after k j move)
      simpa only [bind_assoc] using assigned
    · exact keeps_get (keeps_fail (R.still m sound))
  · exact keeps_throw (R.still m sound)

theorem gives_runDefine {args : List Prepared} (sound : R.sound m)
    (given : ∀ p ∈ args, R.Given m p) : R.Gives (ContextFunction.runDefine args) m := by
  unfold ContextFunction.runDefine
  split
  · rename_i outline read
    have every : ∀ a ∈ args.map Prepared.raw, a.Every (R.literal m) := by
      intro a member
      obtain ⟨p, held, rfl⟩ := List.mem_map.mp member
      exact (given p held).raw
    have defined : Keeps R.moved (fun _ _ => True) (modify fun m => m.define outline) m :=
      keeps_modify (R.define m _ outline sound read every) trivial
    apply Keeps.bind R.trans defined
    intro _ n move _
    apply Keeps.bind R.trans (keeps_record _ (R.sound_after m n move))
    intro _ k move' _
    exact R.unit k (R.sound_after n k move')
  · exact keeps_get (keeps_fail (R.still m sound))

theorem gives_contextRun {eval : Argument → Eval CellId} (obeyed : R.ObeyedBy eval) {fuel : Nat}
    (f : ContextFunction) {args : List Prepared} (sound : R.sound m)
    (given : ∀ p ∈ args, R.Given m p) : R.Gives (f.run eval fuel args) m := by
  cases f with
  | bindName => exact gives_runBind sound given
  | assign => exact gives_runAssign sound given
  | conditional => exact gives_runConditional obeyed sound given
  | loop =>
    cases args with
    | nil => exact keeps_fail (R.still m sound)
    | cons predicate body =>
      exact gives_runLoop obeyed sound (given predicate List.mem_cons_self).raw
        fun p member => given p (List.mem_cons_of_mem predicate member)
  | define => exact gives_runDefine sound given

section Evaluation

variable {eval : Invocation → Eval CellId} (obeyed : R.Obeyed eval)
include obeyed

theorem gives_runBody {body : List Invocation} (sound : R.sound m)
    (every : ∀ inv ∈ body, inv.Every (R.literal m)) : R.Gives (Definition.runBody eval body) m := by
  induction body generalizing m with
  | nil => exact R.unit m sound
  | cons s rest ih =>
    simp only [Definition.runBody]
    apply Keeps.bind R.trans (obeyed s m sound (every s List.mem_cons_self))
    intro c n move ok
    have sound' := R.sound_after m n move
    apply keeps_contents
    split
    · rename_i e held
      exact keeps_pure (R.still n sound') (R.returned n c e sound' ok held)
    · exact R.unit n sound'
    · exact ih sound' fun inv member => (every inv (List.mem_cons_of_mem s member)).mono
        fun d ok => R.literal_after m n d move ok

theorem gives_call {f : Definition} {args : List CellId} (sound : R.sound m)
    (known : R.function m (.defined f)) (ok : ∀ c ∈ args, R.cell m c) :
    R.Gives (f.call eval args) m := by
  unfold Definition.call
  apply Keeps.bind R.trans (keeps_checkPatience sound)
  intro _ n move _
  have sound' := R.sound_after m n move
  obtain ⟨inner, every⟩ := R.enter n f args sound' (R.function_after m n _ move known)
    fun c member => R.cell_after m n c move (ok c member)
  exact keeps_inScope (gives_runBody obeyed inner every) (fun k => R.leave n k _ sound')
    fun c k ok => R.cell_scope k c _ ok

theorem gives_dispatch {fuel : Nat} {f : Function} {args : List Pending} (sound : R.sound m)
    (known : R.function m f) (ready : ∀ p ∈ args, R.Ready m p) :
    R.Gives (dispatch eval fuel f args) m := by
  have argument := obeyedBy_evalArgument obeyed
  cases f with
  | system s =>
    apply Keeps.bind R.trans (keeps_evalRemaining argument sound ready)
    intro cells n move ok
    exact R.system n s cells (R.sound_after m n move) ok
  | context c =>
    apply Keeps.bind R.trans (keeps_prepare argument sound ready)
    intro given n move ok
    exact gives_contextRun argument c (R.sound_after m n move) ok
  | defined d =>
    apply Keeps.bind R.trans (keeps_evalRemaining argument sound ready)
    intro cells n move ok
    exact gives_call obeyed (R.sound_after m n move) (R.function_after m n _ move known) ok

theorem gives_invoke {settings : Settings} {fuel depth : Nat} {inv : Invocation} (sound : R.sound m)
    (every : inv.Every (R.literal m)) : R.Gives (invoke settings eval fuel depth inv) m := by
  unfold invoke
  apply Keeps.bind R.trans (keeps_resolve (obeyedBy_evalArgument obeyed) sound every)
  rintro ⟨f, args⟩ n move done
  have sound' := R.sound_after m n move
  dsimp only
  split
  · apply Keeps.bind R.trans (keeps_record _ sound')
    intro _ k move' _
    exact gives_dispatch obeyed (R.sound_after n k move') (R.function_after n k _ move' done.1)
      fun p member => (done.2 p member).after move'
  · exact gives_dispatch obeyed sound' done.1 done.2

theorem gives_entered {settings : Settings} {fuel depth : Nat} {inv : Invocation}
    (sound : R.sound m) (every : inv.Every (R.literal m)) :
    R.Gives (entered settings eval fuel depth inv) m := by
  have invoked : R.Gives (invoke settings eval fuel (depth + 1) inv) m :=
    gives_invoke obeyed sound every
  apply keeps_inCall
  split
  · split
    · exact keeps_fail (R.still m sound)
    · exact invoked
  · exact invoked

end Evaluation

theorem obeyed_evaluateUntil (halt : Machine → Bool) (settings : Settings) (fuel depth : Nat) :
    R.Obeyed (evaluateUntil halt settings fuel depth) := by
  induction fuel generalizing depth with
  | zero =>
    intro inv m sound _
    exact keeps_throw (R.still m sound)
  | succ fuel ih =>
    intro inv m sound every
    exact keeps_interrupt (R.still m sound) (gives_entered (ih (depth + 1)) sound every)

theorem obeyed_evaluate (settings : Settings) (fuel depth : Nat) :
    R.Obeyed (evaluate settings fuel depth) := by
  rw [← evaluateUntil_never]
  exact obeyed_evaluateUntil _ settings fuel depth

end Discipline
end CallScript
