import CallScript.Proofs.Run.Keeping

/- Two runs side by side. Both have the same heap, functions and scope; what surrounds them may
   differ in ways that a bond allows. One computation mimics another when it ends like the other, or
   has stopped early; nothing is said about it when the other runs out of fuel. -/
namespace CallScript

open Eval

structure Outer where
  console : Console
  patience : Patience
  log : List LogEntry

namespace Machine

def outer (m : Machine) : Outer := ⟨m.console, m.patience, m.log⟩

/-- Two machines that a program cannot tell apart by its values. -/
structure Alike (m n : Machine) : Prop where
  heap : m.heap = n.heap
  registry : m.registry = n.registry
  scope : m.scope = n.scope

end Machine

structure Bond where
  beside : Outer → Outer → Prop
  /-- How the second run may go on. -/
  onward : Outer → Outer → Prop
  /-- The first run has stopped, and the second has come so far. -/
  stopped : Stop → Outer → Outer → Prop
  /-- Why both runs may stop. -/
  shared : Stop → Prop

namespace Bond

variable {α β : Type}

structure Joined (B : Bond) (m n : Machine) : Prop where
  alike : m.Alike n
  beside : B.beside m.outer n.outer

inductive Agrees (B : Bond) :
    EStateM.Result Stop Machine α → EStateM.Result Stop Machine α → Prop where
  | noFuel (r : EStateM.Result Stop Machine α) (n : Machine) : Agrees B r (.error .outOfFuel n)
  | ok (a : α) {m n : Machine} (joined : B.Joined m n) : Agrees B (.ok a m) (.ok a n)
  | error {e : Stop} (shared : B.shared e) {m n : Machine} (joined : B.Joined m n) :
    Agrees B (.error e m) (.error e n)
  | stoppedOk {e : Stop} {m : Machine} (a : α) {n : Machine}
      (stopped : B.stopped e m.outer n.outer) :
    Agrees B (.error e m) (.ok a n)
  | stoppedError {e : Stop} {m : Machine} (e' : Stop) {n : Machine}
      (stopped : B.stopped e m.outer n.outer) :
    Agrees B (.error e m) (.error e' n)

structure Mimics (B : Bond) (x y : Eval α) : Prop where
  onward : ∀ n, B.onward n.outer (after y n).outer
  agrees : ∀ m n, B.Joined m n → B.Agrees (x m) (y n)

end Bond

/-- A bond that holds through all that evaluation does to what surrounds it. -/
structure Coupling extends Bond where
  onward_refl : ∀ p, onward p p
  onward_trans : ∀ p q r, onward p q → onward q r → onward p r
  ahead : ∀ e o p q, stopped e o p → onward p q → stopped e o q
  /-- The first run stays stopped when its failure is told in other words. -/
  retold : ∀ f g o log p, stopped (.failed f) o p → g.fault = f.fault →
    stopped (.failed g) { o with log } p
  shared_raise : ∀ fault, shared (.failed (.raise fault))
  shared_within : ∀ f h inv, shared (.failed f) → shared (.failed (f.within h inv))
  shared_crashed : shared .crashed
  record : ∀ entry o p, beside o p →
    beside { o with log := entry :: o.log } { p with log := entry :: p.log }
  record_onward : ∀ entry p, onward p { p with log := entry :: p.log }
  read : ∀ o p, beside o p → o.console.readLine.1 = p.console.readLine.1 ∧
    beside { o with console := o.console.readLine.2 } { p with console := p.console.readLine.2 }
  read_onward : ∀ p, onward p { p with console := p.console.readLine.2 }
  write : ∀ text o p, beside o p →
    (o.console.write? text = none ∧ p.console.write? text = none) ∨
      ∃ c d, o.console.write? text = some c ∧ p.console.write? text = some d ∧
        beside { o with console := c } { p with console := d }
  write_onward : ∀ text p d, p.console.write? text = some d → onward p { p with console := d }
  check : toBond.Mimics checkPatience checkPatience

namespace Coupling

variable {α β : Type} {C : Coupling}

theorem agrees_stopped {x y : Eval α} {e : Stop} {m n : Machine}
    (stopped : C.stopped e m.outer n.outer) (mimics : C.Mimics x y) :
    C.Agrees (.error e m) (y n) := by
  have moved := C.ahead _ _ _ _ stopped (mimics.onward n)
  unfold after at moved
  cases run : y n with
  | ok a k =>
    rw [run] at moved
    exact .stoppedOk a moved
  | error e' k =>
    rw [run] at moved
    exact .stoppedError e' moved

theorem mimics_bind {x y : Eval α} {f g : α → Eval β} (first : C.Mimics x y)
    (rest : ∀ a, C.Mimics (f a) (g a)) : C.Mimics (x >>= f) (y >>= g) := by
  constructor
  · intro n
    have move := first.onward n
    unfold after at move ⊢
    cases run : y n with
    | ok a k =>
      rw [run] at move
      rw [bind_ok run]
      exact C.onward_trans _ _ _ move ((rest a).onward k)
    | error e k =>
      rw [run] at move
      rw [bind_error run]
      exact move
  · intro m n joined
    have start := first.agrees m n joined
    generalize left : x m = r at start
    generalize right : y n = s at start
    cases start with
    | noFuel _ k =>
      rw [bind_error right]
      exact .noFuel _ k
    | ok a joined' =>
      rw [bind_ok left, bind_ok right]
      exact (rest a).agrees _ _ joined'
    | error shared joined' =>
      rw [bind_error left, bind_error right]
      exact .error shared joined'
    | stoppedOk a stopped =>
      rw [bind_error left, bind_ok right]
      -- The second run goes on alone, and may do so in any way that is onward.
      exact agrees_stopped stopped (rest a)
    | stoppedError e' stopped =>
      rw [bind_error left, bind_error right]
      exact .stoppedError e' stopped

theorem mimics_pure (a : α) : C.Mimics (pure a) (pure a) :=
  ⟨fun n => C.onward_refl n.outer, fun _ _ joined => .ok a joined⟩

theorem mimics_throw {e : Stop} (shared : C.shared e) : C.Mimics (throw e : Eval α) (throw e) :=
  ⟨fun n => C.onward_refl n.outer, fun _ _ joined => .error shared joined⟩

theorem mimics_fail (fault : Fault) : C.Mimics (fail fault : Eval α) (fail fault) :=
  mimics_throw (C.shared_raise fault)

theorem mimics_crash : C.Mimics (throw .crashed : Eval α) (throw .crashed) :=
  mimics_throw C.shared_crashed

theorem mimics_noFuel (x : Eval α) : C.Mimics x (throw .outOfFuel) :=
  ⟨fun n => C.onward_refl n.outer, fun m n _ => .noFuel (x m) n⟩

theorem mimics_need (o : Option α) : C.Mimics (need o) (need o) := by
  cases o with
  | none => exact mimics_crash
  | some a => exact mimics_pure a

theorem mimics_ofExcept {e : Except Failure α}
    (raised : ∀ f, e = .error f → ∃ fault, f = .raise fault) :
    C.Mimics (ofExcept e) (ofExcept e) := by
  cases e with
  | error f =>
    obtain ⟨fault, rfl⟩ := raised f rfl
    exact mimics_fail fault
  | ok a => exact mimics_pure a

theorem mimics_get {f g : Machine → Eval β} (same : ∀ m n, m.Alike n → f m = f n)
    (rest : ∀ n, C.Mimics (f n) (g n)) : C.Mimics (get >>= f) (get >>= g) := by
  constructor
  · intro n
    exact (rest n).onward n
  · intro m n joined
    have here : (get >>= f) m = f n m := by
      rw [← same m n joined.alike]
      rfl
    rw [here]
    exact (rest n).agrees m n joined

theorem mimics_contents {c : CellId} {f g : Datum → Eval β} (rest : ∀ d, C.Mimics (f d) (g d)) :
    C.Mimics (contents c >>= f) (contents c >>= g) := by
  apply mimics_get (f := fun m => f (m.heap.get c)) (g := fun m => g (m.heap.get c))
  · intro m n alike
    rw [alike.heap]
  · intro n
    exact rest _

theorem mimics_modifyGet {change : Machine → α × Machine}
    (outer : ∀ m, (change m).2.outer = m.outer)
    (alike : ∀ m n, m.Alike n → (change m).1 = (change n).1 ∧ (change m).2.Alike (change n).2) :
    C.Mimics (modifyGet change : Eval α) (modifyGet change) := by
  constructor
  · intro n
    show C.onward n.outer (change n).2.outer
    rw [outer]
    exact C.onward_refl n.outer
  · intro m n joined
    obtain ⟨value, changed⟩ := alike m n joined.alike
    show C.Agrees (.ok (change m).1 (change m).2) (.ok (change n).1 (change n).2)
    rw [value]
    refine .ok _ ⟨changed, ?_⟩
    rw [outer, outer]
    exact joined.beside

theorem mimics_alloc (d : Datum) : C.Mimics (alloc d) (alloc d) := by
  apply mimics_modifyGet
  · intro m
    rfl
  · intro m n alike
    simp only [alike.heap]
    exact ⟨trivial, rfl, alike.registry, alike.scope⟩

theorem mimics_copy (d : Datum) : C.Mimics (Eval.copy d) (Eval.copy d) := by
  apply mimics_modifyGet
  · intro m
    rfl
  · intro m n alike
    simp only [alike.heap]
    exact ⟨trivial, rfl, alike.registry, alike.scope⟩

theorem mimics_modify {change : Machine → Machine} (outer : ∀ m, (change m).outer = m.outer)
    (alike : ∀ m n, m.Alike n → (change m).Alike (change n)) :
    C.Mimics (modify change : Eval Unit) (modify change) :=
  mimics_modifyGet outer fun m n same => ⟨rfl, alike m n same⟩

theorem mimics_store (c : CellId) (d : Datum) : C.Mimics (store c d) (store c d) := by
  apply mimics_modify
  · intro m
    rfl
  · intro m n alike
    exact ⟨by rw [alike.heap], alike.registry, alike.scope⟩

theorem mimics_bindName (name : Name) (c : CellId) :
    C.Mimics (Eval.bind name c) (Eval.bind name c) := by
  apply mimics_modify
  · intro m
    rfl
  · intro m n alike
    exact ⟨alike.heap, alike.registry, by rw [alike.scope]⟩

theorem mimics_expect (read : Datum → Option α) (wanted : Shape) (c : CellId) :
    C.Mimics (expect read wanted c) (expect read wanted c) := by
  apply mimics_contents
  intro d
  apply mimics_ofExcept
  intro f failed
  unfold Datum.expect at failed
  split at failed
  · cases failed
  · cases failed
    exact ⟨_, rfl⟩

theorem mimics_lookup (name : Name) : C.Mimics (lookup name) (lookup name) := by
  apply mimics_get
  · intro m n alike
    rw [alike.scope]
  · intro n
    apply mimics_ofExcept
    intro f failed
    unfold Scope.lookup at failed
    split at failed
    · cases failed
    · cases failed
      exact ⟨_, rfl⟩

theorem mimics_record (entry : LogEntry) : C.Mimics (Eval.record entry) (Eval.record entry) := by
  constructor
  · intro n
    exact C.record_onward entry n.outer
  · intro m n joined
    exact .ok () ⟨⟨joined.alike.heap, joined.alike.registry, joined.alike.scope⟩,
      C.record entry _ _ joined.beside⟩

theorem inScope_run {x : Eval α} (scope : Scope) (m : Machine) :
    inScope scope x m = match x { m with scope } with
      | .ok a n => .ok a { n with scope := m.scope }
      | .error e n => .error e { n with scope := m.scope } := rfl

theorem onward_inScope {x y : Eval α} (mimics : C.Mimics x y) (scope : Scope) (n : Machine) :
    C.onward n.outer (after (inScope scope y) n).outer := by
  have move := mimics.onward { n with scope }
  unfold after at move ⊢
  rw [inScope_run]
  cases run : y { n with scope } with
  | ok a k =>
    rw [run] at move
    exact move
  | error e k =>
    rw [run] at move
    exact move

theorem agrees_inScope {x y : Eval α} (mimics : C.Mimics x y) (scope : Scope) {m n : Machine}
    (joined : C.Joined m n) : C.Agrees (inScope scope x m) (inScope scope y n) := by
  have inside : C.Joined { m with scope } { n with scope } :=
    ⟨⟨joined.alike.heap, joined.alike.registry, rfl⟩, joined.beside⟩
  have back : ∀ {k j : Machine}, C.Joined k j →
      C.Joined { k with scope := m.scope } { j with scope := n.scope } := fun joined' =>
    ⟨⟨joined'.alike.heap, joined'.alike.registry, joined.alike.scope⟩, joined'.beside⟩
  have start := mimics.agrees _ _ inside
  rw [inScope_run, inScope_run]
  generalize x { m with scope } = r at start
  generalize y { n with scope } = s at start
  cases start with
  | noFuel r k => exact .noFuel _ _
  | ok a joined' => exact .ok a (back joined')
  | error shared joined' => exact .error shared (back joined')
  | stoppedOk a stopped => exact .stoppedOk a stopped
  | stoppedError e' stopped => exact .stoppedError e' stopped

theorem mimics_inScope {x y : Eval α} (scope : Scope) (mimics : C.Mimics x y) :
    C.Mimics (inScope scope x) (inScope scope y) :=
  ⟨onward_inScope mimics scope, fun _ _ joined => agrees_inScope mimics scope joined⟩

theorem mimics_inBlock {x y : Eval α} (mimics : C.Mimics x y) :
    C.Mimics (inBlock x) (inBlock y) := by
  constructor
  · intro n
    have move := onward_inScope mimics n.scope n
    unfold after at move ⊢
    rwa [inBlock_eq]
  · intro m n joined
    rw [inBlock_eq, inBlock_eq, joined.alike.scope]
    exact agrees_inScope mimics n.scope joined

def reported (tell : Failure → Machine → Failure × Machine) :
    EStateM.Result Stop Machine α → EStateM.Result Stop Machine α
  | .error (.failed f) n => .error (.failed (tell f n).1) (tell f n).2
  | result => result

section Retelling

variable {tell : Failure → Machine → Failure × Machine}
  (onward : ∀ f n, C.onward n.outer (tell f n).2.outer)
  (alike : ∀ f m n, C.Joined m n → (tell f m).1 = (tell f n).1 ∧ C.Joined (tell f m).2 (tell f n).2)
  (stays : ∀ f m p, C.stopped (.failed f) m.outer p →
    C.stopped (.failed (tell f m).1) (tell f m).2.outer p)
  (shared : ∀ f m, C.shared (.failed f) → C.shared (.failed (tell f m).1))

include onward in
theorem reported_error (e : Stop) (n : Machine) : ∃ e' n', C.onward n.outer n'.outer ∧
    reported tell (.error e n : EStateM.Result Stop Machine α) = .error e' n' := by
  cases e with
  | failed f => exact ⟨_, _, onward f n, rfl⟩
  | crashed => exact ⟨_, _, C.onward_refl _, rfl⟩
  | outOfFuel => exact ⟨_, _, C.onward_refl _, rfl⟩

include stays in
theorem reported_stopped {e : Stop} {m : Machine} {p : Outer} (stopped : C.stopped e m.outer p) :
    ∃ e' m', C.stopped e' m'.outer p ∧
      reported tell (.error e m : EStateM.Result Stop Machine α) = .error e' m' := by
  cases e with
  | failed f => exact ⟨_, _, stays f m p stopped, rfl⟩
  | crashed => exact ⟨_, _, stopped, rfl⟩
  | outOfFuel => exact ⟨_, _, stopped, rfl⟩

include onward alike stays shared in
theorem mimics_reported {x y : Eval α} (mimics : C.Mimics x y) :
    C.Mimics (fun m => reported tell (x m)) (fun m => reported tell (y m)) := by
  constructor
  · intro n
    have move := mimics.onward n
    unfold after at move ⊢
    dsimp only
    generalize y n = r at move
    cases r with
    | ok a k => exact move
    | error e k =>
      obtain ⟨e', k', later, told⟩ := reported_error (α := α) onward e k
      rw [told]
      exact C.onward_trans _ _ _ move later
  · intro m n joined
    have start := mimics.agrees m n joined
    show C.Agrees (reported tell (x m)) (reported tell (y n))
    generalize x m = r at start
    generalize y n = s at start
    cases start with
    | noFuel r k => exact .noFuel _ _
    | ok a joined' => exact .ok a joined'
    | @error e known k j joined' =>
      cases e with
      | failed f =>
        obtain ⟨same, later⟩ := alike f k j joined'
        simp only [reported]
        rw [same]
        exact .error (shared f j known) later
      | crashed => exact .error known joined'
      | outOfFuel => exact .error known joined'
    | stoppedOk a stopped =>
      obtain ⟨e', k', stopped', told⟩ := reported_stopped (α := α) stays stopped
      rw [told]
      exact .stoppedOk a stopped'
    | @stoppedError e k e' j stopped =>
      obtain ⟨e₁, k', stopped', told⟩ := reported_stopped (α := α) stays stopped
      obtain ⟨e₂, j', move, told'⟩ := reported_error (α := α) onward e' j
      rw [told, told']
      exact .stoppedError e₂ (C.ahead _ _ _ _ stopped' move)

end Retelling

theorem inCall_eq (inv : Invocation) (x : Eval α) :
    inCall inv x = fun m => reported (fun f m => (f.within m.heap inv, m)) (x m) := by
  funext m
  unfold inCall
  cases x m with
  | ok a n => rfl
  | error e n => cases e <;> rfl

theorem mimics_inCall {x y : Eval α} (inv : Invocation) (mimics : C.Mimics x y) :
    C.Mimics (inCall inv x) (inCall inv y) := by
  rw [inCall_eq, inCall_eq]
  apply mimics_reported ?_ ?_ ?_ ?_ mimics
  · intro f n
    exact C.onward_refl _
  · intro f m n joined
    exact ⟨by rw [joined.alike.heap], joined⟩
  · intro f m p stopped
    exact C.retold f _ m.outer m.log p stopped rfl
  · intro f m known
    exact C.shared_within f m.heap inv known

theorem mimics_mapM {f g : α → Eval β} {list : List α} (each : ∀ a ∈ list, C.Mimics (f a) (g a)) :
    C.Mimics (list.mapM f) (list.mapM g) := by
  induction list with
  | nil => exact mimics_pure []
  | cons a rest ih =>
    rw [List.mapM_cons, List.mapM_cons]
    apply mimics_bind (each a List.mem_cons_self)
    intro b
    apply mimics_bind (ih fun c member => each c (List.mem_cons_of_mem a member))
    intro bs
    exact mimics_pure _

end Coupling
end CallScript
