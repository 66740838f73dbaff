import CallScript.Proofs.Run.Foresight
import CallScript.Proofs.Value.Detachment

/- Lists are assigned by value. A call of `=` goes to the assignment of the language whatever
   functions a program has defined, since that is the oldest of its name and takes anything. It
   evaluates the value, and then puts a copy of it in the cell of the variable, which shows it from
   then on, whatever is done to the cells there were before. -/
namespace CallScript

open Eval

namespace Registry

theorem Grown.candidates_builtin {r : Registry} (grown : r.Grown) {f : Function}
    (builtin : f ∈ builtins) :
    ∃ later, r.candidates f.signature.name = f :: later := by
  obtain ⟨defined, functions, -⟩ := grown.functions
  have called : f ∈ builtins.filter (·.signature.name = f.signature.name) :=
    List.mem_filter.mpr ⟨builtin, by simp⟩
  rw [filter_name builtin_names] at called
  have found : builtins.find? (·.signature.name = f.signature.name) = some f := by
    simpa using called
  rw [grown.indexed.candidates_eq, functions, List.filter_append, filter_name builtin_names, found]
  exact ⟨_, rfl⟩

end Registry

namespace Heap

def setAll (h : Heap) (writes : List (CellId × Datum)) : Heap :=
  writes.foldl (fun h w => h.set w.1 w.2) h

theorem size_setAll (h : Heap) (writes : List (CellId × Datum)) :
    (h.setAll writes).size = h.size := by
  induction writes generalizing h with
  | nil => rfl
  | cons w rest ih => exact (ih (h.set w.1 w.2)).trans (size_set h w.1 w.2)

theorem get_setAll (h : Heap) {writes : List (CellId × Datum)} {c : CellId}
    (other : ∀ w ∈ writes, w.1 ≠ c) :
    (h.setAll writes).get c = h.get c := by
  induction writes generalizing h with
  | nil => rfl
  | cons w rest ih =>
    rw [← get_set_ne h w.2 (other w List.mem_cons_self)]
    exact ih (h.set w.1 w.2) fun v member => other v (List.mem_cons_of_mem w member)

def assign (h : Heap) (c : CellId) (d : Datum) : Heap :=
  (((h.copy d).2.set c (h.copy d).1).alloc .unit).2

end Heap

section Calling

variable {m n k : Machine} {name : Name} {target value : Argument} {source c : CellId}

theorem resolve_assign (grown : m.registry.Grown) (eval : Argument → Eval CellId)
    (target value : Argument) :
    Matching.resolve eval ⟨utf8 "=", [target, value]⟩ m =
      .ok (.context .assign, [.ofArgument target, .ofArgument value]) m := by
  have builtin : .context .assign ∈ Registry.builtins := by
    simp [Registry.builtins, ContextFunction.functions]
  obtain ⟨later, candidates⟩ := grown.candidates_builtin builtin
  have called : Matching.resolve eval ⟨utf8 "=", [target, value]⟩ m =
      Matching.choose eval (utf8 "=")
      (m.registry.candidates (utf8 "=")) [.ofArgument target, .ofArgument value] m := rfl
  have oldest : m.registry.candidates (utf8 "=") = .context .assign :: later := candidates
  rw [called, oldest]
  -- It asks for no evaluation: the target is taken as it is written, and any value will do.
  apply Matching.choose_accepted eval rfl
  have first : ContextFunction.assign.signature.slot? 0 = some .raw := rfl
  have second : ContextFunction.assign.signature.slot? 1 = some .any := rfl
  exact congrFun ((Matching.accepts_unasked eval 1 first (by simp)).trans
    (Matching.accepts_unasked eval 0 second (by simp))) m

theorem dispatch_assign (eval : Invocation → Eval CellId) (fuel : Nat) (target value : Argument) :
    dispatch eval fuel (.context .assign) [.ofArgument target, .ofArgument value] =
      evalArgument eval value >>= fun c =>
        ContextFunction.runAssign [⟨target, none⟩, ⟨value, some c⟩] := by
  simp [dispatch, prepare, prepareOne, Pending.ofArgument, ContextFunction.signature,
    Signature.slot?, need, ContextFunction.run]

theorem runAssign_ok {result : CellId}
    (run : ContextFunction.runAssign [⟨.ident name, none⟩, ⟨value, some source⟩] n = .ok result k) :
    ∃ c, n.scope.find? name = some c ∧
      k = { n with heap := n.heap.assign c (n.heap.get source) } := by
  simp only [ContextFunction.runAssign, Argument.ident?] at run
  cases found : n.scope.find? name with
  | none =>
    rw [bind_error (lookup_missing found)] at run
    cases run
  | some c =>
    rw [bind_ok (lookup_found found)] at run
    cases run
    exact ⟨c, rfl, rfl⟩

theorem evaluate_assign {settings : Settings} {fuel depth : Nat} {result : CellId}
    (grown : m.registry.Grown)
    (run : evaluate settings (fuel + 1) depth ⟨utf8 "=", [.ident name, value]⟩ m = .ok result k) :
    ∃ source n c, evalArgument (evaluate settings fuel (depth + 1)) value
        (m.traced settings ⟨utf8 "=", [.ident name, value]⟩ (.context .assign) (depth + 1)) =
          .ok source n ∧
      n.scope.find? name = some c ∧ k = { n with heap := n.heap.assign c (n.heap.get source) } := by
  obtain ⟨f, pending, n, resolved, ran⟩ := evaluate_ok run
  rw [resolve_assign grown] at resolved
  cases resolved
  rw [dispatch_assign] at ran
  cases evaluated : evalArgument (evaluate settings fuel (depth + 1)) value
      (m.traced settings ⟨utf8 "=", [.ident name, value]⟩ (.context .assign) (depth + 1)) with
  | ok source n =>
    rw [bind_ok evaluated] at ran
    obtain ⟨c, found, after⟩ := runAssign_ok ran
    exact ⟨source, n, c, rfl, found, after⟩
  | error stop n =>
    rw [bind_error evaluated] at ran
    cases ran

end Calling

namespace Heap

variable {h : Heap} {c : CellId} {d : Datum}

theorem get_assign_self (sound : h.Sound) (inside : d.Within h.size) (old : c < h.size) :
    (h.assign c d).get c = (h.copy d).1 := by
  have old' : c < (h.copy d).2.size := Nat.lt_of_lt_of_le old (sound.copies inside).extends.size_le
  rw [assign, get_alloc_old _ _ (by simpa using old'), get_set_self _ _ old']

theorem get_assign_new (old : c < h.size) {x : CellId} (above : h.size ≤ x)
    (below : x < (h.copy d).2.size) :
    (h.assign c d).get x = (h.copy d).2.get x := by
  have other : c ≠ x := Nat.ne_of_lt (Nat.lt_of_lt_of_le old above)
  rw [assign, get_alloc_old _ _ (by simpa using below), get_set_ne _ _ other]

theorem size_assign : (h.assign c d).size = (h.copy d).2.size + 1 := by
  simp [assign]

/-- After an assignment, the cell leads to new cells only. It shows what the value did, also after
other cells there were before have been given other contents. -/
theorem Sound.assigned (sound : h.Sound) (inside : d.Within h.size) (old : c < h.size) :
    (∀ x, Relation.TransGen (h.assign c d).Holds c x → h.size ≤ x) ∧
      ∀ writes : List (CellId × Datum), (∀ w ∈ writes, w.1 < h.size ∧ w.1 ≠ c) →
        ((h.assign c d).setAll writes).render (((h.assign c d).setAll writes).get c) =
          h.render d := by
  have copies := sound.copies inside
  constructor
  · intro x path
    exact (copies.leads_new sound inside (fun y => get_assign_new old)
      (get_assign_self sound inside old) path).1
  · intro writes others
    have kept : ((h.assign c d).setAll writes).get c = (h.copy d).1 := by
      rw [get_setAll _ fun w member => (others w member).2, get_assign_self sound inside old]
    rw [kept]
    apply copies.render_kept sound inside
    · intro y above below
      have other : ∀ w ∈ writes, w.1 ≠ y := fun w member =>
        Nat.ne_of_lt (Nat.lt_of_lt_of_le (others w member).1 above)
      rw [get_setAll _ other, get_assign_new old above below]
    · have := copies.extends.size_le
      rw [size_setAll, size_assign]
      omega

end Heap

theorem Machine.Sound.traced {m : Machine} (sound : m.Sound) (settings : Settings)
    (inv : Invocation) (f : Function) (depth : Nat) : m.Grows (m.traced settings inv f depth) := by
  unfold Machine.traced
  split
  · exact soundness.record m _ sound
  · exact sound.still

theorem Machine.Sound.grows_argument {m n : Machine} (sound : m.Sound) {settings : Settings}
    {inv : Invocation} {f : Function} {fuel depth : Nat} {e : Argument} {source : CellId}
    (finite : e.Every (·.Within m.heap.size))
    (evaluated : evalArgument (evaluate settings fuel depth) e (m.traced settings inv f depth) =
      .ok source n) :
    m.Grows n := by
  have traced := sound.traced settings inv f depth
  have kept : soundness.Gives (evalArgument (evaluate settings fuel depth) e)
      (m.traced settings inv f depth) :=
    Discipline.obeyedBy_evalArgument (Discipline.obeyed_evaluate settings fuel depth) e
      _ traced.sound (Discipline.every_after traced finite)
  unfold Discipline.Gives Keeps at kept
  rw [evaluated] at kept
  exact traced.trans _ _ _ kept.1

/-- In a heap in which no list contains itself, copying a value changes no cell. The list cells of
the copy are new, no two positions of it have the same cell, and no other cells are made; it shows
like the value, and is equal to it exactly if the value is equal to itself. So after a call of `=`
that succeeds, the cell of the variable leads to new cells only, and it shows what the value did,
also after other cells there were before have been given other contents. -/
theorem lists_copied_by_value :
    (∀ (h : Heap) (d : Datum), h.Sound → d.Within h.size →
      h.Extends (h.copy d).2 ∧
        (∀ path c, (h.copy d).2.At (h.copy d).1.elements path c →
          h.size ≤ c ∧ c < (h.copy d).2.size) ∧
        (∀ path path' c, (h.copy d).2.At (h.copy d).1.elements path c →
          (h.copy d).2.At (h.copy d).1.elements path' c → path = path') ∧
        (∀ c, h.size ≤ c → c < (h.copy d).2.size → ∃ path,
          (h.copy d).2.At (h.copy d).1.elements path c) ∧
        (h.copy d).2.render (h.copy d).1 = h.render d ∧
        ((h.copy d).2.equal (h.copy d).1 d = true ↔ h.equal d d = true)) ∧
    ∀ (settings : Settings) (fuel depth : Nat) (m k : Machine) (x : Name) (e : Argument)
      (result : CellId),
      m.Sound → e.Every (·.Within m.heap.size) →
      evaluate settings (fuel + 1) depth ⟨utf8 "=", [.ident x, e]⟩ m = .ok result k →
      ∃ source n c, evalArgument (evaluate settings fuel (depth + 1)) e
          (m.traced settings ⟨utf8 "=", [.ident x, e]⟩ (.context .assign) (depth + 1)) =
            .ok source n ∧
        m.heap.size ≤ n.heap.size ∧ k.scope.find? x = some c ∧
        (∀ y, Relation.TransGen k.heap.Holds c y → n.heap.size ≤ y) ∧
        k.heap.render (k.heap.get c) = n.heap.render (n.heap.get source) ∧
        ∀ writes : List (CellId × Datum), (∀ w ∈ writes, w.1 < n.heap.size ∧ w.1 ≠ c) →
          (k.heap.setAll writes).render ((k.heap.setAll writes).get c) =
            k.heap.render (k.heap.get c) := by
  constructor
  · intro h d sound inside
    have copies := sound.copies inside
    have still := Heap.Extends.refl (h.copy d).2
    refine ⟨copies.extends, fun path c => copies.at_new still, fun path path' c =>
      copies.at_unique still,
      fun c => copies.exists_at still,
      copies.render_kept sound inside (fun _ _ _ => rfl) copies.extends.size_le, ?_⟩
    rw [sound.equal_copy inside]
  · intro settings fuel depth m k x e result sound finite run
    obtain ⟨source, n, c, evaluated, found, rfl⟩ := evaluate_assign sound.registry run
    have grows := sound.grows_argument finite evaluated
    have old := grows.sound.scope.find found
    obtain ⟨new, shown⟩ := grows.sound.heap.assigned (grows.sound.heap.closed source) old
    have first := shown [] (by simp)
    refine ⟨source, n, c, evaluated, grows.size_le, found, new, first, ?_⟩
    intro writes others
    exact (shown writes others).trans first.symm

/-- `let(x, list(1)) let(y, list(x, x))` -/
def listTwice : Program :=
  [⟨utf8 "let", [.ident (utf8 "x"), .call (utf8 "list") [.literal (.number (.ofNat 1))]]⟩,
    ⟨utf8 "let", [.ident (utf8 "y"), .call (utf8 "list") [.ident (utf8 "x"), .ident (utf8 "x")]]⟩]

theorem lists_copied_by_value_own_element :
    let m := ((Interpreter.new 0 false (.ofInput [])).execute 4 .endless listTwice).2.machine
    (m.scope.find? (utf8 "y")).map m.heap.get = some (.list [5, 5]) ∧
    (∀ path path' c, (m.heap.copy (.list [5, 5])).2.At (m.heap.copy (.list [5, 5])).1.elements path
      c →
      (m.heap.copy (.list [5, 5])).2.At (m.heap.copy (.list [5, 5])).1.elements path' c →
      path = path') ∧
    ∃ result k c, evaluate ⟨none, false⟩ 2 0 ⟨utf8 "=", [.ident (utf8 "x"), .ident (utf8 "y")]⟩ m =
      .ok result k ∧ k.scope.find? (utf8 "x") = some c ∧
      ∀ writes : List (CellId × Datum), (∀ w ∈ writes, w.1 < m.heap.size ∧ w.1 ≠ c) →
        (k.heap.setAll writes).render ((k.heap.setAll writes).get c) = utf8 "[[1], [1]]" := by
  intro m
  have hosted := Interpreter.Hosted.new 0 false (.ofInput [])
  have sound : m.Sound := (hosted.execute 4 .endless listTwice (by
    simp [listTwice, Invocation.Every, Argument.EveryOf, Argument.Every, Datum.Within,
      Datum.cells])).sound
  have inside : (Datum.list [5, 5]).Within m.heap.size := by
    unfold Datum.Within
    decide +kernel
  obtain ⟨result, k, run, shows⟩ := ok_of_yields
    (x := evaluate ⟨none, false⟩ 2 0 ⟨utf8 "=", [.ident (utf8 "x"), .ident (utf8 "y")]⟩) (m := m)
    (by decide +kernel : yields (fun _ k => (k.scope.find? (utf8 "x")).any
      fun c => k.heap.render (k.heap.get c) = utf8 "[[1], [1]]") _ m = true)
  obtain ⟨copied, assigned⟩ := lists_copied_by_value
  obtain ⟨-, -, apart, -⟩ := copied m.heap (.list [5, 5]) sound.heap inside
  obtain ⟨source, n, c, -, grown, found, -, -, kept⟩ :=
    assigned _ _ _ m k _ _ result sound (by simp [Argument.Every]) run
  refine ⟨by decide +kernel, apart, result, k, c, run, found, ?_⟩
  intro writes others
  rw [kept writes fun w member =>
    ⟨Nat.lt_of_lt_of_le (others w member).1 grown, (others w member).2⟩]
  simpa [found] using shows

end CallScript
