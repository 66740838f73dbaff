import CallScript.Program.Reader

/- Reading goes on in the same way wherever it starts. A reader that starts later in a text, or
   after other statements, differs in its positions and in the statements before it, and in nothing
   else. Positions are only reported: whatever they are changed to, the reader takes the same steps;
   and if they are all moved by the same number of bytes, so are those of its rejections. -/
namespace CallScript

def OpenCall.later (bytes : Nat) (call : OpenCall) : OpenCall :=
  { call with start := call.start + bytes }

def Mode.later (bytes : Nat) : Mode → Mode
  | .blank => .blank
  | .comment => .comment
  | .word start text => .word (start + bytes) text
  | .operator start text => .operator (start + bytes) text
  | .slash start text => .slash (start + bytes) text
  | .number start text fraction => .number (start + bytes) text fraction
  | .point start text => .point (start + bytes) text
  | .string start text => .string (start + bytes) text
  | .escape start text => .escape (start + bytes) text

def OpenCall.renumber (g : Nat → Nat) (call : OpenCall) : OpenCall :=
  { call with start := g call.start }

def Mode.renumber (g : Nat → Nat) : Mode → Mode
  | .blank => .blank
  | .comment => .comment
  | .word start text => .word (g start) text
  | .operator start text => .operator (g start) text
  | .slash start text => .slash (g start) text
  | .number start text fraction => .number (g start) text fraction
  | .point start text => .point (g start) text
  | .string start text => .string (g start) text
  | .escape start text => .escape (g start) text

def Rejection.later (bytes : Nat) (e : Rejection) : Rejection :=
  { e with position := e.position + bytes }

/-- Two ways of reading that differ in positions. Both go on, the second with what `move` makes of
the first; or both reject, with rejections that `rel` allows. -/
inductive Parallel {α : Type} (rel : Rejection → Rejection → Prop) (move : α → α) :
    Except Rejection α → Except Rejection α → Prop where
  | ok (a : α) : Parallel rel move (.ok a) (.ok (move a))
  | error {e e' : Rejection} (related : rel e e') : Parallel rel move (.error e) (.error e')

namespace Parallel

variable {α β : Type} {rel : Rejection → Rejection → Prop} {move : α → α} {x y : Except Rejection α}

theorem eq_mapped {shift : Rejection → Rejection}
    (parallel : Parallel (fun e e' => e' = shift e) move x y) :
    y = (x.map move).mapError shift := by
  cases parallel with
  | ok a => rfl
  | error related =>
    rw [related]
    rfl

theorem ite {p : Prop} [Decidable p] {x' y' : Except Rejection α} (yes : Parallel rel move x y)
    (no : Parallel rel move x' y') :
    Parallel rel move (if p then x else x') (if p then y else y') := by
  by_cases holds : p
  · rwa [if_pos holds, if_pos holds]
  · rwa [if_neg holds, if_neg holds]

theorem bind {moveLater : β → β} {f : α → Except Rejection β} (first : Parallel rel move x y)
    (rest : ∀ a, x = .ok a → Parallel rel moveLater (f a) (f (move a))) :
    Parallel rel moveLater (x >>= f) (y >>= f) := by
  cases first with
  | ok a => exact rest a rfl
  | error related => exact .error related

end Parallel

namespace Reader

def later (bytes : Nat) (before : List Invocation) (r : Reader) : Reader :=
  ⟨r.position + bytes, r.done ++ before, r.stack.map (·.later bytes), r.mode.later bytes⟩

def renumber (g : Nat → Nat) (before : List Invocation) (r : Reader) : Reader :=
  ⟨g r.position, r.done ++ before, r.stack.map (·.renumber g), r.mode.renumber g⟩

/-- Rejections are compared in the same way whatever position they are reported at. -/
def Carries (g : Nat → Nat) (rel : Rejection → Rejection → Prop) : Prop :=
  ∀ position fault incomplete, rel ⟨position, fault, incomplete⟩ ⟨g position, fault, incomplete⟩

variable (g : Nat → Nat) (before : List Invocation) (r : Reader)

theorem read_append (first second : Bytes) :
    r.read (first ++ second) = r.read first >>= (·.read second) := by
  simp [read, List.foldlM_append]

theorem renumber_stack_isEmpty : (r.renumber g before).stack.isEmpty = r.stack.isEmpty := by
  simp [renumber]

theorem addArgument_renumber (a : Argument) :
    (r.renumber g before).addArgument a = (r.addArgument a).renumber g before := by
  obtain ⟨position, done, stack, mode⟩ := r
  cases stack with
  | nil => rfl
  | cons top rest => rfl

theorem close_renumber : (r.renumber g before).close = r.close.renumber g before := by
  obtain ⟨position, done, stack, mode⟩ := r
  cases stack with
  | nil => rfl
  | cons inner rest =>
    cases rest with
    | nil => rfl
    | cons outer rest => rfl

section Steps

variable {rel : Rejection → Rejection → Prop} (carries : Carries g rel)
include carries

theorem parallel_comma : Parallel rel (renumber g before) r.comma (r.renumber g before).comma := by
  obtain ⟨position, done, stack, mode⟩ := r
  cases stack with
  | nil => exact .ok _
  | cons top rest => exact .ite (.error (carries _ _ _)) (.ok _)

omit carries in
theorem parallel_endName {here there : Nat} (name : Name)
    (related : ∀ fault, rel ⟨here, fault, false⟩ ⟨there, fault, false⟩) :
    Parallel rel (renumber g before) (r.endName here name)
      ((r.renumber g before).endName there name) := by
  unfold endName
  rw [addArgument_renumber, renumber_stack_isEmpty]
  exact .ite (.error (related _)) (.ok _)

theorem parallel_endNumber (start : Nat) (text : Bytes) :
    Parallel rel (renumber g before) (r.endNumber start text)
      ((r.renumber g before).endNumber (g start) text) := by
  unfold endNumber
  split
  · rw [addArgument_renumber]
    exact .ok _
  · exact .error (carries _ _ _)

theorem parallel_stepBlank (c : UInt8) :
    Parallel rel (renumber g before) (r.stepBlank c) ((r.renumber g before).stepBlank c) := by
  unfold stepBlank
  rw [renumber_stack_isEmpty, close_renumber]
  apply Parallel.ite (.ok _)
  apply Parallel.ite (.ok _)
  apply Parallel.ite (.ok _)
  apply Parallel.ite (.ok _)
  apply Parallel.ite (.error (carries _ _ _))
  apply Parallel.ite (.ok _)
  apply Parallel.ite (parallel_comma g before r carries)
  apply Parallel.ite (.ok _)
  apply Parallel.ite (.ok _)
  exact .error (carries _ _ _)

theorem parallel_named (name : Name) (c : UInt8) :
    Parallel rel (renumber g before) (r.endName r.position name >>= (·.stepBlank c))
      ((r.renumber g before).endName (r.renumber g before).position name >>= (·.stepBlank c)) :=
  (parallel_endName g before r name fun fault => carries _ fault _).bind
    fun q _ => parallel_stepBlank g before q carries c

theorem parallel_stepOperator (start : Nat) (text : Bytes) (c : UInt8) :
    Parallel rel (renumber g before) (r.stepOperator start text c)
      ((r.renumber g before).stepOperator (g start) text c) := by
  unfold stepOperator
  rw [renumber_stack_isEmpty]
  apply Parallel.ite (.ok _)
  apply Parallel.ite (.ok _)
  apply Parallel.ite (.ok _)
  apply Parallel.ite (.ok _)
  exact parallel_named g before r carries _ c

theorem parallel_stepNumber (start : Nat) (text : Bytes) (fraction : Bool) (c : UInt8) :
    Parallel rel (renumber g before) (r.stepNumber start text fraction c)
      ((r.renumber g before).stepNumber (g start) text fraction c) := by
  unfold stepNumber
  apply Parallel.ite (.ok _)
  apply Parallel.ite (.ok _)
  apply Parallel.ite (.error (carries _ _ _))
  exact (parallel_endNumber g before r carries start _).bind fun q _ =>
    parallel_stepBlank g before q carries c

/-- A name that a comment ends has been over for a byte when that is seen. -/
theorem parallel_advance (c : UInt8)
    (slashed : ∀ start text, r.mode = .slash start text →
      ∀ fault, rel ⟨r.position - 1, fault, false⟩ ⟨g r.position - 1, fault, false⟩) :
    Parallel rel (renumber g before) (r.advance c) ((r.renumber g before).advance c) := by
  have same : (r.renumber g before).mode = r.mode.renumber g := rfl
  unfold advance
  rw [same]
  cases mode : r.mode with
  | blank => exact parallel_stepBlank g before r carries c
  | comment =>
    simp only [Mode.renumber]
    split
    · exact .ok _
    · exact .ok _
  | word start text =>
    apply Parallel.ite (.ok _)
    apply Parallel.ite (.ok _)
    exact parallel_named g before r carries _ c
  | operator start text => exact parallel_stepOperator g before r carries start text c
  | slash start text =>
    apply Parallel.ite
    · apply Parallel.ite (.ok _)
      exact (parallel_endName g before r _ (slashed start text mode)).bind fun q _ => .ok _
    · exact parallel_stepOperator g before r carries start _ c
  | number start text fraction => exact parallel_stepNumber g before r carries start text fraction c
  | point start text => exact .ite (.ok _) (.error (carries _ _ _))
  | string start text =>
    apply Parallel.ite
    · rw [addArgument_renumber]
      exact .ok _
    · exact .ite (.ok _) (.ok _)
  | escape start text => exact .ok _

theorem parallel_endBlank :
    Parallel rel (before.reverse ++ ·) r.endBlank (r.renumber g before).endBlank := by
  obtain ⟨position, done, stack, mode⟩ := r
  cases stack with
  | nil =>
    simp only [endBlank, renumber, List.map_nil, List.reverse_append]
    exact .ok _
  | cons top rest => exact .error (carries _ _ _)

theorem parallel_endInName (start : Nat) (name : Name) :
    Parallel rel (before.reverse ++ ·) (r.endInName start name)
      ((r.renumber g before).endInName (g start) name) := by
  unfold endInName
  rw [renumber_stack_isEmpty, addArgument_renumber]
  exact .ite (.error (carries _ _ _)) (parallel_endBlank g before _ carries)

theorem parallel_finish :
    Parallel rel (before.reverse ++ ·) r.finish (r.renumber g before).finish := by
  have same : (r.renumber g before).mode = r.mode.renumber g := rfl
  unfold finish
  rw [same]
  cases r.mode with
  | blank => exact parallel_endBlank g before r carries
  | comment => exact parallel_endBlank g before r carries
  | word start text => exact parallel_endInName g before r carries start _
  | operator start text => exact parallel_endInName g before r carries start _
  | slash start text => exact parallel_endInName g before r carries start _
  | number start text fraction =>
    exact (parallel_endNumber g before r carries start _).bind fun q _ =>
      parallel_endBlank g before q carries
  | point start text => exact .error (carries _ _ _)
  | string start text => exact .error (carries _ _ _)
  | escape start text => exact .error (carries _ _ _)

end Steps

theorem later_eq (bytes : Nat) (before : List Invocation) :
    later bytes before = renumber (· + bytes) before := by
  funext r
  obtain ⟨position, done, stack, mode⟩ := r
  cases mode with
  | _ => rfl

def Begun (r : Reader) : Prop := ∀ start text, r.mode = .slash start text → 0 < r.position

theorem begun_start : start.Begun := nofun

theorem begun_step {r q : Reader} {c : UInt8} (stepped : r.step c = .ok q) : q.Begun := by
  intro _ _ _
  unfold step at stepped
  cases advanced : r.advance c with
  | error e =>
    rw [advanced] at stepped
    cases stepped
  | ok q' =>
    rw [advanced] at stepped
    cases stepped
    exact Nat.succ_pos _

theorem carries_later (bytes : Nat) : Carries (· + bytes) fun e e' => e' = e.later bytes :=
  fun _ _ _ => rfl

theorem parallel_step_later (bytes : Nat) (before : List Invocation) {r : Reader} (begun : r.Begun)
    (c : UInt8) :
    Parallel (fun e e' => e' = e.later bytes) (later bytes before) (r.step c)
      ((r.later bytes before).step c) := by
  rw [later_eq]
  refine (parallel_advance _ before r (carries_later bytes) c ?_).bind fun q _ => ?_
  · intro start text mode fault
    have positive := begun start text mode
    show Rejection.mk (r.position + bytes - 1) fault false = ⟨r.position - 1 + bytes, fault, false⟩
    rw [Nat.sub_add_comm positive]
  · have moved : { q.renumber (· + bytes) before with
        position := (q.renumber (· + bytes) before).position + 1 } =
        renumber (· + bytes) before { q with position := q.position + 1 } := by
      simp only [renumber, Nat.add_right_comm]
    rw [moved]
    exact .ok _

theorem parallel_read_later (bytes : Nat) (before : List Invocation) {r : Reader} (begun : r.Begun)
    (text : Bytes) :
    Parallel (fun e e' => e' = e.later bytes) (later bytes before) (r.read text)
      ((r.later bytes before).read text) := by
  induction text generalizing r with
  | nil => exact .ok r
  | cons c rest ih =>
    unfold read at ih ⊢
    rw [List.foldlM_cons, List.foldlM_cons]
    exact (parallel_step_later bytes before begun c).bind fun q stepped => ih (begun_step stepped)

/-- What is read later in a text, after other statements, is what is read at its beginning. -/
theorem read_later (bytes : Nat) (before : List Invocation) (text : Bytes) :
    ((start.later bytes before).read text >>= finish) =
      ((Program.ofText text).map (before.reverse ++ ·)).mapError (·.later bytes) := by
  refine ((parallel_read_later bytes before begun_start text).bind fun r _ => ?_).eq_mapped
  rw [later_eq]
  exact parallel_finish _ before r (carries_later bytes)

end Reader
end CallScript
