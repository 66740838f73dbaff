import CallScript.Run.Machine

/- What a computation does to the machine it runs on, however it ends. `Keeps` is proved of a
   computation from its parts: of a sequence from its steps, of a list of actions from each of
   them. -/
namespace CallScript.Eval

variable {α β : Type} {moved : Machine → Machine → Prop} {m : Machine}

theorem pure_run (a : α) (m : Machine) : (pure a : Eval α) m = .ok a m := rfl

theorem bind_ok {x : Eval α} {a : α} {n : Machine} (run : x m = .ok a n) (f : α → Eval β) :
    (x >>= f) m = f a n := by
  show EStateM.bind x f m = _
  simp only [EStateM.bind, run]

theorem bind_error {x : Eval α} {e : Stop} {n : Machine} (run : x m = .error e n) (f : α → Eval β) :
    (x >>= f) m = .error e n := by
  show EStateM.bind x f m = _
  simp only [EStateM.bind, run]

theorem bind_same {x y : Eval α} {n : Machine} (run : x m = y n) (f : α → Eval β) :
    (x >>= f) m = (y >>= f) n := by
  show EStateM.bind x f m = EStateM.bind y f n
  simp only [EStateM.bind, run]

theorem lookup_found {name : Name} {c : CellId} (found : m.scope.find? name = some c) :
    lookup name m = .ok c m := by
  show ofExcept (m.scope.lookup name) m = _
  rw [Scope.lookup, found]
  rfl

theorem lookup_missing {name : Name} (missing : m.scope.find? name = none) :
    lookup name m = .error (.failed (.raise (.variableNotFound name))) m := by
  show ofExcept (m.scope.lookup name) m = _
  rw [Scope.lookup, missing]
  rfl

def yields (test : α → Machine → Bool) (x : Eval α) (m : Machine) : Bool :=
  match x m with
  | .ok a n => test a n
  | .error _ _ => false

theorem ok_of_yields {test : α → Machine → Bool} {x : Eval α} (passes : yields test x m) :
    ∃ a n, x m = .ok a n ∧ test a n := by
  unfold yields at passes
  cases run : x m with
  | ok a n =>
    rw [run] at passes
    exact ⟨a, n, rfl, passes⟩
  | error e n =>
    rw [run] at passes
    cases passes

/-- The machine a computation leaves is one that `moved` allows, and `good` holds of a value it
gives. -/
def Keeps (moved : Machine → Machine → Prop) (good : α → Machine → Prop) (x : Eval α)
    (m : Machine) : Prop :=
  match x m with
  | .ok a n => moved m n ∧ good a n
  | .error _ n => moved m n

def after (x : Eval α) (m : Machine) : Machine :=
  match x m with
  | .ok _ n => n
  | .error _ n => n

theorem run_after {test : α → Machine → Bool} {x : Eval α} (passes : yields test x m) :
    ∃ a, x m = .ok a (after x m) ∧ test a (after x m) := by
  obtain ⟨a, n, run, passed⟩ := ok_of_yields passes
  have same : after x m = n := by
    unfold after
    rw [run]
  exact ⟨a, same ▸ run, same ▸ passed⟩

theorem Keeps.move {good : α → Machine → Prop} {x : Eval α} (keeps : Keeps moved good x m) :
    moved m (after x m) := by
  unfold Keeps at keeps
  unfold after
  split at keeps
  · exact keeps.1
  · exact keeps

theorem Keeps.good {good : α → Machine → Prop} {x : Eval α} {a : α} {n : Machine}
    (keeps : Keeps moved good x m) (run : x m = .ok a n) : good a n := by
  unfold Keeps at keeps
  rw [run] at keeps
  exact keeps.2

theorem Keeps.imp {good better : α → Machine → Prop} {x : Eval α} (keeps : Keeps moved good x m)
    (implies : ∀ a n, moved m n → good a n → better a n) : Keeps moved better x m := by
  unfold Keeps at keeps ⊢
  split at keeps
  · exact ⟨keeps.1, implies _ _ keeps.1 keeps.2⟩
  · exact keeps

theorem Keeps.looser {moves : Machine → Machine → Prop} {good : α → Machine → Prop} {x : Eval α}
    (keeps : Keeps moved good x m) (implies : ∀ n, moved m n → moves m n) :
    Keeps moves good x m := by
  unfold Keeps at keeps ⊢
  split at keeps
  · exact ⟨implies _ keeps.1, keeps.2⟩
  · exact implies _ keeps

theorem keeps_any (x : Eval α) (m : Machine) : Keeps (fun _ _ => True) (fun _ _ => True) x m := by
  unfold Keeps
  cases x m with
  | ok a n => exact ⟨trivial, trivial⟩
  | error e n => exact trivial

theorem Keeps.and {moves : Machine → Machine → Prop} {good better : α → Machine → Prop} {x : Eval α}
    (first : Keeps moved good x m) (second : Keeps moves better x m) :
    Keeps (fun m n => moved m n ∧ moves m n) (fun a n => good a n ∧ better a n) x m := by
  unfold Keeps at first second ⊢
  split at first
  · rename_i run
    rw [run] at second
    exact ⟨⟨first.1, second.1⟩, first.2, second.2⟩
  · rename_i run
    rw [run] at second
    exact ⟨first, second⟩

theorem keeps_pure {good : α → Machine → Prop} {a : α} (still : moved m m) (ok : good a m) :
    Keeps moved good (pure a) m :=
  ⟨still, ok⟩

theorem keeps_throw {good : α → Machine → Prop} {e : Stop} (still : moved m m) :
    Keeps moved good (throw e) m :=
  still

theorem keeps_fail {good : α → Machine → Prop} {fault : Fault} (still : moved m m) :
    Keeps moved good (fail fault) m :=
  still

theorem keeps_modify {good : Unit → Machine → Prop} {f : Machine → Machine} (move : moved m (f m))
    (ok : good () (f m)) : Keeps moved good (modify f) m :=
  ⟨move, ok⟩

theorem keeps_get {good : β → Machine → Prop} {f : Machine → Eval β}
    (rest : Keeps moved good (f m) m) : Keeps moved good (get >>= f) m :=
  rest

theorem keeps_contents {good : β → Machine → Prop} {c : CellId} {f : Datum → Eval β}
    (rest : Keeps moved good (f (m.heap.get c)) m) : Keeps moved good (contents c >>= f) m :=
  rest

theorem Keeps.bind (trans : ∀ m n k, moved m n → moved n k → moved m k)
    {good : α → Machine → Prop} {better : β → Machine → Prop} {x : Eval α} {f : α → Eval β}
    (first : Keeps moved good x m)
    (rest : ∀ a n, moved m n → good a n → Keeps moved better (f a) n) :
    Keeps moved better (x >>= f) m := by
  unfold Keeps at first ⊢
  split at first
  · rename_i a n run
    have later := rest a n first.1 first.2
    unfold Keeps at later
    rw [bind_ok run]
    split at later
    · exact ⟨trans _ _ _ first.1 later.1, later.2⟩
    · exact trans _ _ _ first.1 later
  · rename_i e n run
    rw [bind_error run]
    exact first

theorem keeps_need (good : α → Machine → Prop) {o : Option α} (still : moved m m)
    (ok : ∀ a, o = some a → good a m) : Keeps moved good (need o) m := by
  cases o with
  | none => exact still
  | some a => exact ⟨still, ok a rfl⟩

theorem keeps_ofExcept {good : α → Machine → Prop} {e : Except Failure α} (still : moved m m)
    (ok : ∀ a, e = .ok a → good a m) : Keeps moved good (ofExcept e) m := by
  cases e with
  | error f => exact still
  | ok a => exact ⟨still, ok a rfl⟩

theorem keeps_inCall {good : α → Machine → Prop} {x : Eval α} {inv : Invocation}
    (keeps : Keeps moved good x m) : Keeps moved good (inCall inv x) m := by
  unfold Keeps at keeps ⊢
  unfold inCall
  cases run : x m with
  | ok a n => simpa [run] using keeps
  | error e n => cases e <;> simpa [run] using keeps

/-- Stops before or after a computation, if the machine is then one to halt at. -/
def interrupt (halt : Machine → Bool) (x : Eval α) : Eval α := fun m =>
  if halt m then .error .outOfFuel m
  else match x m with
    | .ok a n => if halt n then .error .outOfFuel n else .ok a n
    | .error e n => .error e n

theorem interrupt_never (x : Eval α) : interrupt (fun _ => false) x = x := by
  funext m
  simp only [interrupt, Bool.false_eq_true, if_false]
  split
  · rename_i run
    exact run.symm
  · rename_i run
    exact run.symm

theorem keeps_interrupt {good : α → Machine → Prop} {x : Eval α} {halt : Machine → Bool}
    (still : moved m m) (keeps : Keeps moved good x m) : Keeps moved good (interrupt halt x) m := by
  unfold Keeps at keeps ⊢
  unfold interrupt
  by_cases before : halt m = true
  · simpa [before] using still
  · split at keeps
    · rename_i a n run
      by_cases later : halt n = true
      · simpa [before, run, later] using keeps.1
      · simpa [before, run, later] using keeps
    · rename_i e n run
      simpa [before, run] using keeps

theorem keeps_inScope {moves : Machine → Machine → Prop} {good better : α → Machine → Prop}
    {x : Eval α} {scope : Scope} (keeps : Keeps moves good x { m with scope })
    (back : ∀ n, moves { m with scope } n → moved m { n with scope := m.scope })
    (ok : ∀ a n, good a n → better a { n with scope := m.scope }) :
    Keeps moved better (inScope scope x) m := by
  unfold Keeps at keeps ⊢
  cases run : x { m with scope } with
  | ok a n =>
    have here : inScope scope x m = .ok a { n with scope := m.scope } := by
      unfold inScope
      rw [run]
    rw [run] at keeps
    rw [here]
    exact ⟨back n keeps.1, ok a n keeps.2⟩
  | error e n =>
    have here : inScope scope x m = .error e { n with scope := m.scope } := by
      unfold inScope
      rw [run]
    rw [run] at keeps
    rw [here]
    exact back n keeps

theorem inBlock_eq (x : Eval α) (m : Machine) : inBlock x m = inScope m.scope x m := rfl

theorem keeps_expect (good : α → Machine → Prop) {read : Datum → Option α} {wanted : Shape}
    {c : CellId} (still : moved m m) (ok : ∀ a, read (m.heap.get c) = some a → good a m) :
    Keeps moved good (expect read wanted c) m := by
  apply keeps_ofExcept still
  intro a eq
  apply ok
  unfold Datum.expect at eq
  split at eq
  · rename_i found
    cases eq
    exact found
  · cases eq

theorem keeps_mapM (trans : ∀ m n k, moved m n → moved n k → moved m k)
    (good : β → Machine → Prop) {f : α → Eval β} {list : List α} (still : moved m m)
    (persists : ∀ b n k, moved n k → good b n → good b k)
    (stays : ∀ n k, moved n k → moved k k)
    (each : ∀ a ∈ list, ∀ n, moved m n → Keeps moved good (f a) n) :
    Keeps moved (fun bs n => ∀ b ∈ bs, good b n) (list.mapM f) m := by
  induction list generalizing m with
  | nil => exact ⟨still, by simp⟩
  | cons a rest ih =>
    rw [List.mapM_cons]
    apply Keeps.bind trans (each a List.mem_cons_self m still)
    intro b n move first
    apply Keeps.bind trans (ih (stays _ _ move) ?_)
    · intro bs k move' others
      apply keeps_pure (stays _ _ move')
      intro x member
      rcases List.mem_cons.mp member with rfl | member
      · exact persists x n k move' first
      · exact others x member
    · intro e member k move'
      exact each e (List.mem_cons_of_mem a member) k (trans _ _ _ move move')

end CallScript.Eval
