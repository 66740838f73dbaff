import Mathlib.Data.List.ReduceOption
import CallScript.Proofs.Run.Sweep
import CallScript.Run.Evaluator

/- Matching a call evaluates an initial part of its arguments, whichever candidates it tries: a
   candidate that looks at the shape of an argument takes no argument before it raw, and only the
   first candidate takes any argument raw. Preparing the arguments of the function that was found
   then evaluates the others that it does not take raw. -/
namespace CallScript

open Eval

/-- The pending arguments of a call, an initial part of which has been evaluated. -/
structure Cached (args : List Argument) (known : List CellId) (pending : List Pending) : Prop where
  arg : pending.map Pending.arg = args
  cell : pending.map Pending.cell =
    known.map some ++ List.replicate (args.length - known.length) none

namespace Cached

variable {args : List Argument} {known : List CellId} {pending : List Pending}

theorem initial (args : List Argument) : Cached args [] (args.map .ofArgument) := by
  constructor
  · simp [Pending.ofArgument, Function.comp_def]
  · simp [Pending.ofArgument, Function.comp_def, List.map_const']

theorem congr {others : List Pending} (cached : Cached args known pending)
    (arg : others.map Pending.arg = pending.map Pending.arg)
    (cell : others.map Pending.cell = pending.map Pending.cell) : Cached args known others :=
  ⟨arg.trans cached.arg, cell.trans cached.cell⟩

theorem forget (cached : Cached args known pending) :
    Cached args known (pending.map Pending.forget) := by
  apply cached.congr
  · simp [Pending.forget, Function.comp_def]
  · simp [Pending.forget, Function.comp_def]

theorem cons_cases {p : Pending} {rest : List Pending} (cached : Cached args known (p :: rest)) :
    ∃ others, args = p.arg :: others ∧
      ((∃ c more, known = c :: more ∧ p.cell = some c ∧ Cached others more rest) ∨
        known = [] ∧ p.cell = none ∧ Cached others [] rest) := by
  obtain ⟨arg, cell⟩ := cached
  rw [List.map_cons] at arg cell
  refine ⟨rest.map Pending.arg, arg.symm, ?_⟩
  cases known with
  | nil =>
    right
    rw [← arg] at cell
    simp only [List.map_nil, List.nil_append, List.length_nil, List.length_cons, Nat.sub_zero,
      List.replicate_succ, List.cons.injEq] at cell
    exact ⟨rfl, cell.1, rfl, by simpa using cell.2⟩
  | cons c more =>
    left
    rw [← arg] at cell
    simp only [List.map_cons, List.cons_append, List.length_cons, List.cons.injEq,
      Nat.add_sub_add_right] at cell
    exact ⟨c, more, rfl, cell.1, rfl, cell.2⟩

theorem held {p : Pending} {c : CellId} {rest : List Pending} (cell : p.cell = some c)
    (cached : Cached args known rest) : Cached (p.arg :: args) (c :: known) (p :: rest) := by
  constructor
  · simp [cached.arg]
  · simp [cached.cell, cell]

theorem set {position : Nat} {p q : Pending} (cached : Cached args known pending)
    (found : pending[position]? = some p) (arg : q.arg = p.arg) (cell : q.cell = p.cell) :
    Cached args known (pending.set position q) := by
  obtain ⟨inside, rfl⟩ := List.getElem?_eq_some_iff.mp found
  apply cached.congr
  · rw [List.map_set, arg, ← List.getElem_map Pending.arg (h := by simpa using inside)]
    exact List.set_getElem_self _
  · rw [List.map_set, cell, ← List.getElem_map Pending.cell (h := by simpa using inside)]
    exact List.set_getElem_self _

theorem at_position {position : Nat} {p : Pending} {rest : List Pending}
    (cached : Cached (args.drop position) known (p :: rest)) :
    args[position]? = some p.arg ∧ args.drop position = p.arg :: args.drop (position + 1) ∧
      ((∃ c more, known = c :: more ∧ p.cell = some c ∧
        Cached (args.drop (position + 1)) more rest) ∨
        known = [] ∧ p.cell = none ∧ Cached (args.drop (position + 1)) [] rest) := by
  obtain ⟨others, here, cases⟩ := cached.cons_cases
  have argument : args[position]? = some p.arg := by
    have := congrArg List.head? here
    simpa using this
  have after : args.drop (position + 1) = others := by
    rw [← List.tail_drop, here, List.tail_cons]
  rw [after]
  exact ⟨argument, here, cases⟩

theorem length_eq (cached : Cached args known pending) : pending.length = args.length := by
  rw [← cached.arg, List.length_map]

theorem known_le (cached : Cached args known pending) : known.length ≤ args.length := by
  have := congrArg List.length cached.cell
  simp only [List.length_map, List.length_append, List.length_replicate, cached.length_eq] at this
  omega

theorem nil_known (cached : Cached args known []) : known = [] := by
  have := cached.cell
  cases known with
  | nil => rfl
  | cons c more => simp at this

end Cached

namespace Signature

/-- No slot is raw. -/
def Eager (s : Signature) : Prop := ∀ i, s.slot? i ≠ some .raw

def Settled (s : Signature) : Prop :=
  ∀ i shape, s.slot? i = some (.shape shape) → ∀ j ≤ i, s.slot? j ≠ some .raw

def evaluated (s : Signature) (count : Nat) : List Nat :=
  (List.range count).filter fun i => s.slot? i ≠ some .raw

theorem Eager.settled {s : Signature} (eager : s.Eager) : s.Settled := fun _ _ _ j _ => eager j

end Signature

section Matching

variable {eval : Argument → Eval CellId} {args : List Argument} {m : Machine} {s : Signature}

theorem sweeps_force {last position : Nat} {known : List CellId} {rest : List Pending}
    (cached : Cached (args.drop position) known rest)
    (evaluated : ∀ j, position ≤ j → j ≤ last → s.slot? j ≠ some .raw) :
    Sweeps eval args (position + known.length) (fun positions new out =>
      positions = List.range' (position + known.length) new.length ∧
        Cached (args.drop position) (known ++ new) out ∧
        (new = [] ∨ position + known.length + new.length ≤ last + 1))
      (Matching.force eval s last position rest) m := by
  induction rest generalizing m position known with
  | nil =>
    apply sweeps_pure
    simp [cached]
  | cons p rest ih =>
    obtain ⟨argument, here, cases⟩ := cached.at_position
    have evaluated' : ∀ j, position + 1 ≤ j → j ≤ last → s.slot? j ≠ some .raw :=
      fun j le => evaluated j (by omega)
    simp only [Matching.force]
    split
    · apply sweeps_pure
      simpa using cached.forget
    · rcases cases with ⟨c, more, rfl, cell, later⟩ | ⟨rfl, cell, later⟩
      · simp only [cell]
        have start : position + (c :: more).length = position + 1 + more.length := by
          rw [List.length_cons]; omega
        rw [start]
        apply (ih later evaluated').map
        rintro positions new out ⟨rfl, cached, bound⟩
        refine ⟨rfl, ?_, bound⟩
        rw [here]
        exact Cached.held (p := p.forget) cell cached
      · simp only [cell]
        split
        · rename_i raw
          exact absurd raw (evaluated position (Nat.le_refl _) (by omega))
        · -- From here on no argument has been evaluated, so the positions go on one by one.
          apply (sweeps_argument argument).bind
          rintro positions cells c n ⟨rfl, rfl⟩
          refine ⟨position + 1, by omega, by simp, ?_⟩
          apply (ih later evaluated').map
          rintro positions new out ⟨rfl, cached, bound⟩
          refine ⟨by simp [List.range'_succ], ?_, ?_⟩
          · rw [here]
            exact Cached.held (p := { p.forget with cell := some c }) rfl cached
          · right
            simp only [List.length_nil, List.singleton_append, List.length_cons] at bound ⊢
            rcases bound with rfl | bound
            · rw [List.length_nil]; omega
            · omega
        · exact sweeps_throw
        · rename_i held
          cases held

/-- Pending arguments of which only those were evaluated that the signature evaluates. -/
structure Matched (args : List Argument) (s : Signature) (known : List CellId)
    (pending : List Pending) : Prop where
  cached : Cached args known pending
  evaluated : ∀ j < known.length, s.slot? j ≠ some .raw

theorem prolongs_force (settled : s.Settled) {position : Nat} {required : Shape}
    (slot : s.slot? position = some (.shape required)) {known : List CellId}
    {pending : List Pending} (matched : Matched args s known pending) :
    Prolongs eval args known (fun known out => Matched args s known out)
      (Matching.force eval s position 0 pending) m := by
  have before : ∀ j, 0 ≤ j → j ≤ position → s.slot? j ≠ some .raw :=
    fun j _ le => settled position required slot j le
  have suffix : Cached (args.drop 0) known pending := matched.cached
  unfold Prolongs
  rw [← Nat.zero_add known.length]
  apply (sweeps_force suffix before).imp
  rintro positions new out ⟨rfl, cached, bound⟩
  refine ⟨rfl, cached, ?_⟩
  intro j below
  by_cases old : j < known.length
  · exact matched.evaluated j old
  · apply before j (Nat.zero_le _)
    rw [List.length_append] at below
    rcases bound with rfl | bound
    · exact absurd below old
    · omega

theorem prolongs_accepts (settled : s.Settled) {left position : Nat} {known : List CellId}
    {pending : List Pending} (matched : Matched args s known pending) :
    Prolongs eval args known (fun known out => Matched args s known out.2)
      (Matching.accepts eval s left position pending) m := by
  induction left generalizing m position known pending with
  | zero => exact prolongs_pure matched
  | succ left ih =>
    simp only [Matching.accepts]
    apply sweeps_need
    intro slot found
    split
    · rename_i required
      apply sweeps_need
      intro p here
      apply sweeps_get
      split
      · rename_i shape q asked
        -- Asking for a shape changes neither the argument nor its cell.
        have same : q.arg = p.arg ∧ q.cell = p.cell := by
          have : q = (p.shape? m).2 := by rw [asked]
          rw [this]
          unfold Pending.shape?
          split
          · exact ⟨rfl, rfl⟩
          · exact ⟨rfl, rfl⟩
          · exact ⟨rfl, rfl⟩
        have matched' : Matched args s known (pending.set position q) :=
          ⟨matched.cached.set here same.1 same.2, matched.evaluated⟩
        split
        · exact ih matched'
        · exact prolongs_pure matched'
      · show Prolongs eval args known
            (fun known (out : Bool × List Pending) => Matched args s known out.2) _ m
        apply Prolongs.bind (prolongs_force settled found matched)
        intro known' out n matched'
        apply sweeps_need
        intro c held
        apply sweeps_contents
        split
        · exact ih matched'
        · exact prolongs_pure matched'
    · exact ih matched

/-- The first candidate may have raw slots, as long as it is the only one. -/
theorem prolongs_choose {name : Name} {candidates : List Function} {known : List CellId}
    {pending : List Pending} (cached : Cached args known pending)
    (first : ∀ f ∈ candidates.head?, f.signature.Settled ∧
      ∀ j < known.length, f.signature.slot? j ≠ some .raw)
    (others : ∀ f ∈ candidates.tail, f.signature.Eager) :
    Prolongs eval args known (fun known out => out.1 ∈ candidates ∧
      Matched args out.1.signature known out.2)
        (Matching.choose eval name candidates pending) m := by
  induction candidates generalizing m known pending with
  | nil => exact sweeps_get sweeps_throw
  | cons f rest ih =>
    obtain ⟨settled, evaluated⟩ := first f rfl
    -- The other candidates are eager, whatever has been evaluated before they are tried.
    have later : ∀ known' pending' n, Cached args known' pending' →
        Prolongs eval args known' (fun known out => out.1 ∈ f :: rest ∧
          Matched args out.1.signature known out.2)
            (Matching.choose eval name rest pending') n := by
      intro known' pending' n cached'
      refine Sweeps.imp (ih cached' ?_ ?_) ?_
      · intro g member
        have eager := others g (List.mem_of_mem_head? member)
        exact ⟨eager.settled, fun j _ => eager j⟩
      · intro g member
        exact others g (List.mem_of_mem_tail member)
      · rintro positions new out ⟨rfl, member, matched⟩
        exact ⟨rfl, List.mem_cons_of_mem f member, matched⟩
    simp only [Matching.choose]
    split
    · apply Prolongs.bind (prolongs_accepts settled ⟨cached, evaluated⟩)
      intro known' out n matched
      split
      · exact prolongs_pure ⟨List.mem_cons_self, matched⟩
      · exact later _ _ _ matched.cached
    · exact later _ _ _ cached

theorem sweeps_evalRemaining {position : Nat} {known : List CellId} {rest : List Pending}
    (cached : Cached (args.drop position) known rest) :
    Sweeps eval args (position + known.length) (fun positions new out =>
      positions = List.range' (position + known.length) (rest.length - known.length) ∧
        out = known ++ new ∧ out.length = rest.length) (evalRemaining eval rest) m := by
  unfold evalRemaining
  induction rest generalizing m position known with
  | nil =>
    rw [cached.nil_known]
    exact sweeps_pure ⟨rfl, rfl, rfl⟩
  | cons p rest ih =>
    obtain ⟨argument, here, cases⟩ := cached.at_position
    rw [List.mapM_cons]
    rcases cases with ⟨c, more, rfl, cell, later⟩ | ⟨rfl, cell, later⟩
    · have start : position + (c :: more).length = position + 1 + more.length := by
        rw [List.length_cons]; omega
      simp only [cell, pure_bind]
      rw [start]
      apply (ih later).map
      rintro positions new out ⟨rfl, rfl, size⟩
      exact ⟨by simp, rfl, by simpa using size⟩
    · simp only [cell]
      apply (sweeps_argument argument).bind
      rintro positions cells c n ⟨rfl, rfl⟩
      refine ⟨position + 1, by omega, by simp, ?_⟩
      apply (ih later).map
      rintro positions new out ⟨rfl, rfl, size⟩
      refine ⟨?_, rfl, by simpa using size⟩
      simp [List.range'_succ]

structure Laid (s : Signature) (position : Nat) (args : List Argument) (cells : List CellId)
    (out : List Prepared) : Prop where
  raws : out.map Prepared.raw = args
  cells : (out.map Prepared.cell).reduceOption = cells
  taken : (out.map Prepared.cell).map Option.isSome =
    (List.range' position args.length).map fun i => decide (s.slot? i ≠ some .raw)

theorem Laid.evaluated {position : Nat} {cells : List CellId} {out : List Prepared}
    (laid : Laid s (position + 1) args cells out) (takes : s.slot? position ≠ some .raw)
    (a : Argument) (c : CellId) :
    Laid s position (a :: args) (c :: cells) (⟨a, some c⟩ :: out) := by
  refine ⟨by simp [laid.raws], ?_, ?_⟩
  · rw [List.map_cons, List.reduceOption_cons_of_some, laid.cells]
  · rw [List.map_cons, List.map_cons, laid.taken]
    simp [List.range'_succ, takes]

theorem Laid.passed {position : Nat} {cells : List CellId} {out : List Prepared}
    (laid : Laid s (position + 1) args cells out) (raw : s.slot? position = some .raw)
    (a : Argument) :
    Laid s position (a :: args) cells (⟨a, none⟩ :: out) := by
  refine ⟨by simp [laid.raws], ?_, ?_⟩
  · rw [List.map_cons, List.reduceOption_cons_of_none, laid.cells]
  · rw [List.map_cons, List.map_cons, laid.taken]
    simp [List.range'_succ, raw]

theorem prepareOne_held {p : Pending} {c : CellId} {slot : Slot} (cell : p.cell = some c)
    (takes : slot ≠ .raw) :
    prepareOne eval p slot = pure ⟨p.arg, some c⟩ := by
  unfold prepareOne
  split
  · exact absurd rfl takes
  · simp [cell]

theorem prepareOne_open {p : Pending} {slot : Slot} (cell : p.cell = none) (takes : slot ≠ .raw) :
    prepareOne eval p slot = eval p.arg >>= fun c => pure ⟨p.arg, some c⟩ := by
  unfold prepareOne
  split
  · exact absurd rfl takes
  · simp [cell]

theorem sweeps_prepare {position : Nat} {known : List CellId} {rest : List Pending}
    (cached : Cached (args.drop position) known rest)
    (evaluated : ∀ j, position ≤ j → j < position + known.length → s.slot? j ≠ some .raw) :
    Sweeps eval args (position + known.length) (fun positions new out =>
      positions = (List.range' (position + known.length) (rest.length - known.length)).filter
          (fun i => s.slot? i ≠ some .raw) ∧
        Laid s position (args.drop position) (known ++ new) out)
      (prepare eval s position rest) m := by
  induction rest generalizing m position known with
  | nil =>
    have none : args.drop position = [] := cached.arg.symm
    rw [cached.nil_known, none]
    exact sweeps_pure ⟨rfl, rfl, rfl, rfl⟩
  | cons p rest ih =>
    obtain ⟨argument, here, cases⟩ := cached.at_position
    simp only [prepare]
    apply sweeps_need
    intro slot found
    rw [here]
    rcases cases with ⟨c, more, rfl, cell, later⟩ | ⟨rfl, cell, later⟩
    · have start : position + (c :: more).length = position + 1 + more.length := by
        rw [List.length_cons]; omega
      have takes : s.slot? position ≠ some .raw := evaluated position (Nat.le_refl _) (by omega)
      have evaluated' : ∀ j, position + 1 ≤ j → j < position + 1 + more.length →
          s.slot? j ≠ some .raw :=
        fun j le below => evaluated j (by omega) (by omega)
      rw [prepareOne_held cell (by simpa [found] using takes), pure_bind, start]
      apply (ih later evaluated').map
      rintro positions new out ⟨rfl, laid⟩
      exact ⟨by simp, laid.evaluated takes p.arg c⟩
    · have nothing : ∀ j, position + 1 ≤ j → j < position + 1 + ([] : List CellId).length →
          s.slot? j ≠ some .raw := by
        intro j le below
        rw [List.length_nil] at below
        omega
      by_cases raw : slot = .raw
      · -- A raw argument is passed over.
        subst raw
        have one : Sweeps eval args (position + 0) (fun positions cells out => positions = [] ∧
            cells = [] ∧ out = ⟨p.arg, none⟩) (prepareOne eval p .raw) m := sweeps_pure
              ⟨rfl, rfl, rfl⟩
        apply one.bind
        rintro positions cells first n ⟨rfl, rfl, rfl⟩
        refine ⟨position + 1, by omega, by simp, ?_⟩
        apply (ih later nothing).map
        rintro positions new out ⟨rfl, laid⟩
        exact ⟨by simp [List.range'_succ, found], laid.passed found p.arg⟩
      · have takes : s.slot? position ≠ some .raw := by simpa [found] using raw
        rw [prepareOne_open cell raw, bind_assoc]
        apply (sweeps_argument argument).bind
        rintro positions cells c n ⟨rfl, rfl⟩
        refine ⟨position + 1, by omega, by simp, ?_⟩
        rw [pure_bind]
        apply (ih later nothing).map
        rintro positions new out ⟨rfl, laid⟩
        exact ⟨by simp [List.range'_succ, takes], laid.evaluated takes p.arg c⟩

end Matching

end CallScript
