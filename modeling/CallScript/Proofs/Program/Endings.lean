import CallScript.Program.Reader

/- Where a reader stands in a text, and what becomes of it if the text or the line ends there. The
   positions that it keeps lie in what it has read, and so do those of its rejections. The end of a
   line leaves it where the end of the text would have done, or in an invocation; only after a name
   outside of all invocations the text may still go on, but not on another line. -/
namespace CallScript

def Mode.start? : Mode → Option Nat
  | .blank | .comment => none
  | .word start _ | .operator start _ | .slash start _ | .number start _ _ | .point start
      _ | .string start _
  | .escape start _ => some start

def Mode.isLiteral : Mode → Bool
  | .number _ _ _ | .point _ _ | .string _ _ | .escape _ _ => true
  | _ => false

namespace Reader

open Lexical

/-- A reader that has read so many bytes: the positions that it keeps lie in them, and it reads a
literal only in an invocation. -/
structure At (count : Nat) (r : Reader) : Prop where
  position : r.position = count
  token : ∀ start ∈ r.mode.start?, start ≤ count
  stack : ∀ call ∈ r.stack, call.start ≤ count
  literal : r.mode.isLiteral = true → r.stack ≠ []

/-- What a byte after so many others leads to: a reader that has still to count it, or a rejection
of something read so far, which more text does not mend. -/
def Placed (count : Nat) : Except Rejection Reader → Prop
  | .ok r => r.At count
  | .error e => e.position ≤ count ∧ e.incomplete = false

variable {count : Nat} {r : Reader}

theorem Placed.ite {p : Prop} [Decidable p] {x y : Except Rejection Reader}
    (yes : p → Placed count x) (no : ¬ p → Placed count y) : Placed count (if p then x else y) := by
  by_cases holds : p
  · rw [if_pos holds]
    exact yes holds
  · rw [if_neg holds]
    exact no holds

theorem Placed.bind {x : Except Rejection Reader} {f : Reader → Except Rejection Reader}
    (first : Placed count x) (rest : ∀ q, q.At count → Placed count (f q)) :
    Placed count (x >>= f) := by
  cases x with
  | ok q => exact rest q first
  | error e => exact first

theorem at_start : start.At 0 :=
  ⟨rfl, by simp [start, Mode.start?], by simp [start], by simp [start, Mode.isLiteral]⟩

theorem At.mono {larger : Nat} (placed : r.At count) (le : count ≤ larger) :
    At larger { r with position := larger } :=
  ⟨rfl, fun start member => Nat.le_trans (placed.token start member) le,
    fun call member => Nat.le_trans (placed.stack call member) le, placed.literal⟩

/-- Between tokens, and in comments, no position is kept but those of the open invocations. -/
theorem At.between (placed : r.At count) {mode : Mode} (none : mode.start? = none) :
    At count { r with mode } := by
  refine ⟨placed.position, by simp [none], placed.stack, ?_⟩
  cases mode with
  | blank | comment => simp [Mode.isLiteral]
  | _ => simp [Mode.start?] at none

theorem At.inToken (placed : r.At count) {mode : Mode} {first : Nat}
    (same : mode.start? = some first) (le : first ≤ count)
    (inside : mode.isLiteral = true → r.stack ≠ []) : At count { r with mode } := by
  refine ⟨placed.position, ?_, placed.stack, inside⟩
  intro start member
  rw [same] at member
  cases member
  exact le

theorem At.addArgument (placed : r.At count) (a : Argument) : (r.addArgument a).At count := by
  unfold Reader.addArgument
  split
  · exact placed
  · rename_i top rest held
    refine ⟨placed.position, by simp [Mode.start?], ?_, by simp⟩
    intro call member
    rcases List.mem_cons.mp member with same | member
    · rw [same]
      exact placed.stack top (by simp [held])
    · exact placed.stack call (by simp [held, member])

theorem At.openCall (placed : r.At count) {first : Nat} (le : first ≤ count) (name : Name) :
    (r.openCall first name).At count := by
  refine ⟨placed.position, by simp [Reader.openCall, Mode.start?], ?_, by simp [Reader.openCall]⟩
  intro call member
  rcases List.mem_cons.mp member with same | member
  · rw [same]
    exact le
  · exact placed.stack call member

theorem At.close (placed : r.At count) : r.close.At count := by
  unfold Reader.close
  split
  · exact placed
  · exact ⟨placed.position, by simp [Mode.start?], by simp, by simp [Mode.isLiteral]⟩
  · rename_i inner outer rest held
    apply At.addArgument
    refine ⟨placed.position, placed.token, ?_, by simp⟩
    intro call member
    exact placed.stack call (by simp [held, List.mem_cons.mp member])

theorem At.comma (placed : r.At count) : Placed count r.comma := by
  unfold Reader.comma
  split
  · exact placed
  · rename_i top rest held
    split
    · exact ⟨Nat.le_of_eq placed.position, rfl⟩
    · refine ⟨placed.position, placed.token, ?_, by simp⟩
      intro call member
      rcases List.mem_cons.mp member with same | member
      · rw [same]
        exact placed.stack top (by simp [held])
      · exact placed.stack call (by simp [held, member])

theorem At.endName (placed : r.At count) {here : Nat} (le : here ≤ count) (name : Name) :
    Placed count (r.endName here name) := by
  unfold Reader.endName
  split
  · exact ⟨le, rfl⟩
  · exact placed.addArgument _

theorem At.endNumber (placed : r.At count) {first : Nat} (le : first ≤ count) (text : Bytes) :
    Placed count (r.endNumber first text) := by
  unfold Reader.endNumber
  split
  · exact placed.addArgument _
  · exact ⟨le, rfl⟩

theorem At.stepBlank (placed : r.At count) (c : UInt8) : Placed count (r.stepBlank c) := by
  have here := Nat.le_of_eq placed.position
  unfold Reader.stepBlank
  refine .ite (fun _ => placed.between rfl) fun _ => ?_
  refine .ite (fun _ => placed.inToken rfl here nofun) fun _ => ?_
  refine .ite (fun _ => placed.inToken rfl here nofun) fun _ => ?_
  refine .ite (fun _ => placed.inToken rfl here nofun) fun _ => ?_
  refine .ite (fun _ => ⟨here, rfl⟩) fun inside => ?_
  have inside : r.stack ≠ [] := by simpa using inside
  refine .ite (fun _ => placed.close) fun _ => ?_
  refine .ite (fun _ => placed.comma) fun _ => ?_
  refine .ite (fun _ => placed.inToken rfl here fun _ => inside) fun _ => ?_
  refine .ite (fun _ => placed.inToken rfl here fun _ => inside) fun _ => ?_
  exact ⟨here, rfl⟩

theorem At.stepOperator (placed : r.At count) {first : Nat} (le : first ≤ count) (text : Bytes)
    (c : UInt8) :
    Placed count (r.stepOperator first text c) := by
  unfold Reader.stepOperator
  refine .ite (fun _ => placed.inToken rfl le nofun) fun _ => ?_
  refine .ite (fun _ => placed.inToken rfl le nofun) fun _ => ?_
  refine .ite (fun _ => placed.openCall le _) fun _ => ?_
  refine .ite (fun number => placed.inToken rfl le fun _ => ?_) fun _ => ?_
  · simp only [Bool.and_eq_true, Bool.not_eq_true', List.isEmpty_eq_false_iff] at number
    exact number.2
  · exact (placed.endName (Nat.le_of_eq placed.position) _).bind fun q later => later.stepBlank c

theorem At.stepNumber (placed : r.At count) (literal : r.mode.isLiteral = true) {first : Nat}
    (le : first ≤ count) (text : Bytes) (fraction : Bool) (c : UInt8) :
    Placed count (r.stepNumber first text fraction c) := by
  have inside := placed.literal literal
  unfold Reader.stepNumber
  refine .ite (fun _ => placed.inToken rfl le fun _ => inside) fun _ => ?_
  refine .ite (fun _ => placed.inToken rfl le fun _ => inside) fun _ => ?_
  refine .ite (fun _ => ⟨le, rfl⟩) fun _ => ?_
  exact (placed.endNumber le _).bind fun q later => later.stepBlank c

theorem At.advance (placed : r.At count) (c : UInt8) : Placed count (r.advance c) := by
  have le : ∀ {first}, r.mode.start? = some first → first ≤ count := fun same => placed.token _ same
  have inside := placed.literal
  unfold Reader.advance
  cases mode : r.mode with
  | blank => exact placed.stepBlank c
  | comment =>
    dsimp only
    split
    · exact placed.between rfl
    · exact placed
  | word first text =>
    rw [mode] at le
    refine .ite (fun _ => placed.inToken rfl (le rfl) nofun) fun _ => ?_
    refine .ite (fun _ => placed.openCall (le rfl) _) fun _ => ?_
    exact (placed.endName (Nat.le_of_eq placed.position) _).bind fun q later => later.stepBlank c
  | operator first text =>
    rw [mode] at le
    exact placed.stepOperator (le rfl) text c
  | slash first text =>
    rw [mode] at le
    refine .ite (fun _ => ?_) fun _ => placed.stepOperator (le rfl) _ c
    refine .ite (fun _ => placed.between rfl) fun _ => ?_
    have before : r.position - 1 ≤ count := by
      have := placed.position
      omega
    exact (placed.endName before _).bind fun q later => later.between rfl
  | number first text fraction =>
    rw [mode] at le
    exact placed.stepNumber (by rw [mode]; rfl) (le rfl) text fraction c
  | point first text =>
    rw [mode] at le inside
    exact .ite (fun _ => placed.inToken rfl (le rfl) fun _ => inside rfl) fun _ => ⟨le rfl, rfl⟩
  | string first text =>
    rw [mode] at le inside
    refine .ite (fun _ => placed.addArgument _) fun _ => ?_
    exact .ite (fun _ => placed.inToken rfl (le rfl) fun _ => inside rfl)
      fun _ => placed.inToken rfl (le rfl) fun _ => inside rfl
  | escape first text =>
    rw [mode] at le inside
    exact placed.inToken rfl (le rfl) fun _ => inside rfl

theorem At.read (placed : r.At count) (text : Bytes) :
    Placed (count + text.length) (r.read text) := by
  induction text generalizing r count with
  | nil => exact placed
  | cons c rest ih =>
    have sum : count + (c :: rest).length = count + 1 + rest.length := by
      rw [List.length_cons]
      omega
    unfold Reader.read at ih ⊢
    rw [List.foldlM_cons, sum]
    unfold Reader.step
    have stepped := placed.advance c
    cases advanced : r.advance c with
    | error e =>
      rw [advanced] at stepped
      exact ⟨Nat.le_trans stepped.1 (by omega), stepped.2⟩
    | ok q =>
      rw [advanced] at stepped
      have counted : At (count + 1) { q with position := q.position + 1 } := by
        rw [stepped.position]
        exact stepped.mono (Nat.le_succ count)
      exact ih counted

/-- What becomes of a reader at the end of the text, and at the end of a line. -/
inductive Ending (r : Reader) : Prop where
  | complete (outside : r.stack = []) (finished : r.finish = .ok r.done.reverse)
    (advanced : r.advance Bytes.newline = .ok { r with mode := .blank })
  | wrong {e : Rejection} (final : e.incomplete = false) (finished : r.finish = .error e)
    (advanced : r.advance Bytes.newline = .error e)
  | named {first : Nat} {name : Name}
      (finished : r.finish = lacking first (.parenthesisExpected name))
    (advanced : r.advance Bytes.newline = reject r.position (.parenthesisExpected name))
  | within {q : Reader} {first : Nat} {fault : ParseFault}
      (finished : r.finish = lacking first fault)
    (other : ∀ name, fault ≠ .parenthesisExpected name) (advanced : r.advance Bytes.newline = .ok q)
    (inside : q.stack ≠ []) (mode : q.mode = .blank ∨ ∃ start text, q.mode = .string start text)

theorem addArgument_inside (inside : r.stack ≠ []) (a : Argument) :
    (r.addArgument a).stack ≠ [] ∧ (r.addArgument a).mode = .blank := by
  unfold Reader.addArgument
  cases held : r.stack with
  | nil => exact absurd held inside
  | cons top rest => simp

theorem endBlank_inside (inside : r.stack ≠ []) :
    ∃ first name, r.endBlank = lacking first (.unclosedInvocation name) := by
  unfold endBlank
  cases held : r.stack with
  | nil => exact absurd held inside
  | cons top rest => exact ⟨_, _, rfl⟩

theorem ending_blank (finished : r.finish = r.endBlank)
    (advanced : r.advance Bytes.newline = .ok { r with mode := .blank }) : r.Ending := by
  by_cases outside : r.stack = []
  · refine .complete outside ?_ advanced
    rw [finished, endBlank, outside]
  · obtain ⟨first, name, ended⟩ := endBlank_inside outside
    exact .within (finished.trans ended) nofun advanced outside (Or.inl rfl)

theorem ending_argument (inside : r.stack ≠ []) (a : Argument)
    (finished : r.finish = (r.addArgument a).endBlank)
    (advanced : r.advance Bytes.newline = (r.addArgument a).stepBlank Bytes.newline) :
    r.Ending := by
  obtain ⟨still, _⟩ := addArgument_inside inside a
  obtain ⟨first, name, ended⟩ := endBlank_inside still
  exact .within (finished.trans ended) nofun advanced still (Or.inl rfl)

theorem ending_name {first : Nat} {name : Name} (finished : r.finish = r.endInName first name)
    (advanced : r.advance Bytes.newline =
      (r.endName r.position name >>= (·.stepBlank Bytes.newline))) :
    r.Ending := by
  by_cases outside : r.stack = []
  · simp only [endInName, outside, List.isEmpty_nil, if_true] at finished
    simp only [Reader.endName, outside, List.isEmpty_nil, if_true] at advanced
    exact .named finished advanced
  · have some : r.stack.isEmpty = false := by simpa using outside
    simp only [endInName, some] at finished
    simp only [Reader.endName, some] at advanced
    exact ending_argument outside _ finished advanced

theorem At.ending (placed : r.At count) : r.Ending := by
  -- Numbers and strings are read in invocations only, so that they cannot end a text.
  have inside := placed.literal
  cases mode : r.mode with
  | blank => exact ending_blank (by rw [finish, mode]) (by rw [Reader.advance, mode]; rfl)
  | comment => exact ending_blank (by rw [finish, mode]) (by rw [Reader.advance, mode]; rfl)
  | word first text => exact ending_name (by rw [finish, mode]) (by rw [Reader.advance, mode]; rfl)
  | operator first text =>
    exact ending_name (by rw [finish, mode]) (by rw [Reader.advance, mode]; rfl)
  | slash first text => exact ending_name (by rw [finish, mode]) (by rw [Reader.advance, mode]; rfl)
  | number first text fraction =>
    rw [mode] at inside
    have finished : r.finish = (r.endNumber first text.reverse >>= endBlank) := by rw [finish, mode]
    have advanced : r.advance Bytes.newline =
        (r.endNumber first text.reverse >>= (·.stepBlank Bytes.newline)) := by
      rw [Reader.advance, mode]
      rfl
    unfold Reader.endNumber at finished advanced
    cases value : Number.parse? text.reverse with
    | some value =>
      simp only [value] at finished advanced
      exact ending_argument (inside rfl) _ finished advanced
    | none =>
      simp only [value] at finished advanced
      exact .wrong rfl finished advanced
  | point first text =>
    exact .wrong rfl (by rw [finish, mode]; rfl) (by rw [Reader.advance, mode]; rfl)
  | string first text =>
    rw [mode] at inside
    have finished : r.finish = lacking first .unclosedString := by rw [finish, mode]
    have advanced : r.advance Bytes.newline =
        .ok { r with mode := .string first (Bytes.newline :: text) } := by
      rw [Reader.advance, mode]
      rfl
    exact .within finished nofun advanced (inside rfl) (Or.inr ⟨_, _, rfl⟩)
  | escape first text =>
    rw [mode] at inside
    have finished : r.finish = lacking first .unclosedString := by rw [finish, mode]
    have advanced : r.advance Bytes.newline =
        .ok { r with mode := .string first (unescape Bytes.newline :: text) } := by
          rw [Reader.advance, mode]
    exact .within finished nofun advanced (inside rfl) (Or.inr ⟨_, _, rfl⟩)

end Reader
end CallScript
