import Mathlib.Data.List.Forall2
import CallScript.Proofs.Run.Keeping
import CallScript.Run.Matching

/- What can be told about a call without evaluating its arguments. Answers that are kept are those
   that would be given again, so prediction only depends on the shapes of the arguments: the first
   function that they do not rule out decides. Matching goes the same way as long as it can do
   without evaluation. -/
namespace CallScript

open Eval

theorem ResultType.eq_shape {result : ResultType} {t : Shape} (shaped : result.shape? = some t) :
    result = .shape t := by
  cases result with
  | any => cases shaped
  | shape found =>
    cases shaped
    rfl

namespace Signature

def judge (s : Signature) : Nat → List (Option Shape) → Verdict
  | _, [] => .accepted
  | position, shape :: rest =>
    match s.slot? position with
    | some (.shape required) =>
      match shape with
      | none => .undecided
      | some found => if found = required then s.judge (position + 1) rest else .rejected
    | _ => s.judge (position + 1) rest

def verdict (s : Signature) (shapes : List (Option Shape)) : Verdict :=
  if s.acceptsArity shapes.length then s.judge 0 shapes else .rejected

end Signature

namespace Matching

def contender? (functions : List Function) (shapes : List (Option Shape)) : Option Function :=
  functions.find? fun f => f.signature.verdict shapes ≠ .rejected

def promise? (shapes : List (Option Shape)) (f : Function) : Option ResultType :=
  if f.signature.verdict shapes = .accepted then some f.signature.returns else none

theorem contender?_ruledOut {f : Function} {rest : List Function} {shapes : List (Option Shape)}
    (rejected : f.signature.verdict shapes = .rejected) :
    contender? (f :: rest) shapes = contender? rest shapes := by
  simp [contender?, rejected]

theorem contender?_first {f : Function} {rest : List Function} {shapes : List (Option Shape)}
    (fits : f.signature.verdict shapes ≠ .rejected) : contender? (f :: rest) shapes = some f := by
  simp [contender?, fits]

def Honest (questions : List Question) (answers : Answers) : Prop :=
  List.Forall₂ (fun question known => ∀ answer, known = some answer → answer = question ())
    questions answers

theorem honest_unasked (questions : List Question) : Honest questions (unasked questions) := by
  induction questions with
  | nil => exact .nil
  | cons question rest ih => exact .cons (by simp) ih

/-- A question that has been asked may as well have been. -/
theorem compare_asked {s : Signature} {position : Nat} {required : Shape} {question : Question}
    {known : Option (Option Shape)} {questions : List Question} {answers : Answers}
    (slot : s.slot? position = some (.shape required))
    (honest : ∀ answer, known = some answer → answer = question ()) :
    compare s position (question :: questions) (known :: answers) =
      compare s position (question :: questions) (some (question ()) :: answers) := by
  cases known with
  | none => simp only [compare, slot]
  | some answer => rw [honest answer rfl]

theorem compare_judge (s : Signature) (position : Nat) {questions : List Question}
    {answers : Answers} (honest : Honest questions answers) :
    (compare s position questions answers).1 =
      s.judge position (questions.map fun question => question ()) ∧
      Honest questions (compare s position questions answers).2 := by
  induction honest generalizing position with
  | nil => exact ⟨rfl, .nil⟩
  | @cons question known questions answers first others ih =>
    obtain ⟨same, later⟩ := ih (position + 1)
    cases slot : s.slot? position with
    | none =>
      simp only [compare, Signature.judge, List.map_cons, slot]
      exact ⟨same, .cons first later⟩
    | some kind =>
      cases kind with
      | raw | any =>
        simp only [compare, Signature.judge, List.map_cons, slot]
        exact ⟨same, .cons first later⟩
      | shape required =>
        rw [compare_asked slot first]
        simp only [compare, Signature.judge, List.map_cons, slot]
        cases told : question () with
        | none => exact ⟨rfl, .cons (by simp [told]) others⟩
        | some shape =>
          dsimp only
          split
          · exact ⟨same, .cons (by simp [told]) later⟩
          · exact ⟨rfl, .cons (by simp [told]) others⟩

/-- The first function that the shapes do not rule out decides what is predicted. -/
theorem settle_eq {questions : List Question} {answers : Answers} (functions : List Function)
    (honest : Honest questions answers) :
    settle questions (functions.map Function.signature) answers =
      (contender? functions (questions.map fun question => question ())).bind
        (promise? (questions.map fun question => question ())) := by
  induction functions generalizing answers with
  | nil => rfl
  | cons f rest ih =>
    obtain ⟨same, later⟩ := compare_judge f.signature 0 honest
    rw [List.map_cons, settle]
    by_cases arity : f.signature.acceptsArity questions.length
    · have whole : f.signature.verdict (questions.map fun question => question ()) =
          (compare f.signature 0 questions answers).1 := by
        rw [same, Signature.verdict, List.length_map, if_pos arity]
      rw [if_pos arity]
      cases compared : compare f.signature 0 questions answers with
      | mk verdict answers' =>
        rw [compared] at whole later
        cases verdict with
        | accepted =>
          rw [contender?_first (by simp [whole])]
          simp [promise?, whole]
        | undecided =>
          rw [contender?_first (by simp [whole])]
          simp [promise?, whole]
        | rejected =>
          rw [contender?_ruledOut whole]
          exact ih later
    · rw [if_neg arity, contender?_ruledOut]
      · exact ih honest
      · rw [Signature.verdict, List.length_map, if_neg arity]

theorem questions_ask (m : Machine) (args : List Argument) :
    (questions m args).map (fun question => question ()) = args.map (shape? m) := by
  induction args with
  | nil => simp [questions]
  | cons a rest ih => simp [questions, ih]

theorem shape?_call (m : Machine) (name : Name) (args : List Argument) :
    shape? m (.call name args) =
      ((contender? (m.registry.candidates name) (args.map (shape? m))).bind
        (promise? (args.map (shape? m)))).bind ResultType.shape? := by
  rw [shape?, settle_eq _ (honest_unasked _), questions_ask]

theorem predict_eq (m : Machine) (inv : Invocation) :
    predict m inv = (contender? (m.registry.candidates inv.name) (inv.args.map (shape? m))).bind
      (promise? (inv.args.map (shape? m))) := by
  rw [predict, settle_eq _ (honest_unasked _), questions_ask]

end Matching

theorem map_set_same {α β : Type} {g : α → β} {list : List α} {i : Nat} {a b : α}
    (found : list[i]? = some a) (same : g b = g a) : (list.set i b).map g = list.map g := by
  obtain ⟨inside, rfl⟩ := List.getElem?_eq_some_iff.mp found
  rw [List.map_set, same, ← List.getElem_map g (h := by simpa using inside)]
  exact List.set_getElem_self _

namespace Pending

def now (m : Machine) (p : Pending) : Option Shape :=
  match p.cell with
  | some c => some (m.heap.get c).shape
  | none => Matching.shape? m p.arg

/-- A prediction that is kept would be made again. -/
def Honest (m : Machine) (p : Pending) : Prop :=
  p.cell = none → ∀ shape, p.predicted = some shape → shape = Matching.shape? m p.arg

variable {m : Machine} {p : Pending}

theorem honest_ofArgument (m : Machine) (a : Argument) : (ofArgument a).Honest m := by
  intro _ shape found
  cases found

theorem honest_forget (m : Machine) (p : Pending) : p.forget.Honest m := by
  intro _ shape found
  cases found

theorem asked_same (m : Machine) (p : Pending) :
    (p.shape? m).2.arg = p.arg ∧ (p.shape? m).2.cell = p.cell := by
  unfold shape?
  split
  · exact ⟨rfl, rfl⟩
  · exact ⟨rfl, rfl⟩
  · exact ⟨rfl, rfl⟩

theorem Honest.shape_eq (honest : p.Honest m) : (p.shape? m).1 = p.now m := by
  unfold shape? now
  split
  · rename_i c _ cell
    rw [cell]
  · rename_i shape cell predicted
    rw [cell]
    exact honest cell shape predicted
  · rename_i cell _
    rw [cell]

theorem Honest.asked (honest : p.Honest m) : (p.shape? m).2.Honest m := by
  unfold shape?
  split
  · exact honest
  · exact honest
  · intro _ shape found
    exact (Option.some.inj found).symm

theorem honest_set {pending : List Pending} {position : Nat} (honest : ∀ q ∈ pending, q.Honest m)
    (here : pending[position]? = some p) :
    ∀ q ∈ pending.set position (p.shape? m).2, q.Honest m := by
  intro q held
  rcases List.mem_or_eq_of_mem_set held with held | rfl
  · exact honest q held
  · exact (honest p (List.mem_of_getElem? here)).asked

end Pending

namespace Matching

/- One step of matching, at the machine where it is taken. -/
section Steps

variable (eval : Argument → Eval CellId) {s : Signature} (left : Nat) {position : Nat}
  {pending : List Pending} {p : Pending} {required : Shape} {m : Machine}

theorem accepts_unasked {slot : Slot} (found : s.slot? position = some slot)
    (free : ∀ shape, slot ≠ .shape shape) :
    accepts eval s (left + 1) position pending = accepts eval s left (position + 1) pending := by
  rw [accepts, found]
  cases slot with
  | raw => rfl
  | any => rfl
  | shape required => exact absurd rfl (free required)

theorem accepts_told (found : s.slot? position = some (.shape required))
    (here : pending[position]? = some p) {shape : Shape} (told : (p.shape? m).1 = some shape) :
    accepts eval s (left + 1) position pending m =
      if shape = required then accepts eval s left (position + 1)
        (pending.set position (p.shape? m).2) m
      else .ok (false, pending.set position (p.shape? m).2) m := by
  cases asked : p.shape? m with
  | mk answer q =>
    rw [asked] at told
    cases told
    simp only [accepts, found, here, need, pure_bind]
    rw [bind_ok (rfl : (get : Eval Machine) m = .ok m m), asked]
    dsimp only
    split
    · rfl
    · rfl

theorem accepts_untold (found : s.slot? position = some (.shape required))
    (here : pending[position]? = some p) (untold : (p.shape? m).1 = none) :
    accepts eval s (left + 1) position pending m = (do
      let args ← force eval s position 0 pending
      let c ← need (args[position]?.bind Pending.cell)
      let d ← contents c
      if d.shape = required then accepts eval s left (position + 1) args
      else return (false, args)) m := by
  cases asked : p.shape? m with
  | mk answer q =>
    rw [asked] at untold
    cases untold
    simp only [accepts, found, here, need, pure_bind]
    rw [bind_ok (rfl : (get : Eval Machine) m = .ok m m), asked]

variable {name : Name} {f : Function} {rest : List Function} {out : List Pending} {n : Machine}

theorem choose_accepted (arity : f.signature.acceptsArity pending.length)
    (run : accepts eval f.signature pending.length 0 pending m = .ok (true, out) n) :
    choose eval name (f :: rest) pending m = .ok (f, out) n := by
  rw [choose, if_pos arity, bind_ok run]
  rfl

theorem choose_rejected (arity : f.signature.acceptsArity pending.length)
    (run : accepts eval f.signature pending.length 0 pending m = .ok (false, out) n) :
    choose eval name (f :: rest) pending m = choose eval name rest out n := by
  rw [choose, if_pos arity, bind_ok run]

theorem choose_ruledOut (arity : ¬ f.signature.acceptsArity pending.length) :
    choose eval name (f :: rest) pending = choose eval name rest pending := by
  rw [choose, if_neg arity]

theorem honest_force {last : Nat} :
    Keeps (fun _ _ => True) (fun out _ => ∀ p ∈ out, ∀ n, p.Honest n)
      (force eval s last position pending) m := by
  induction pending generalizing m position with
  | nil => exact keeps_pure trivial (by simp)
  | cons p rest ih =>
    have goOn : ∀ (q : Pending) k, q.predicted = none →
        Keeps (fun _ _ => True) (fun out _ => ∀ p ∈ out, ∀ n, p.Honest n)
        (do let rest ← force eval s last (position + 1) rest; return q :: rest) k := by
      intro q k forgotten
      apply Keeps.bind (fun _ _ _ _ _ => trivial) ih
      intro out j _ honest
      refine keeps_pure trivial fun r member n => ?_
      rcases List.mem_cons.mp member with rfl | member
      · intro _ shape found
        rw [forgotten] at found
        cases found
      · exact honest r member n
    simp only [force]
    split
    · refine keeps_pure trivial fun q member n => ?_
      obtain ⟨r, _, rfl⟩ := List.mem_map.mp member
      exact r.honest_forget n
    · split
      · exact goOn _ m rfl
      · apply Keeps.bind (fun _ _ _ _ _ => trivial) (keeps_any _ m)
        intro c k _ _
        exact goOn _ k rfl
      · exact keeps_throw trivial
      · exact goOn _ m rfl

theorem honest_accepts (honest : ∀ p ∈ pending, p.Honest m) :
    Keeps (fun _ _ => True) (fun out n => ∀ p ∈ out.2, p.Honest n)
      (accepts eval s left position pending) m := by
  induction left generalizing m position pending with
  | zero => exact keeps_pure trivial honest
  | succ left ih =>
    simp only [accepts]
    apply Keeps.bind (fun _ _ _ _ _ => trivial)
      (keeps_need (fun _ n => n = m) trivial fun _ _ => rfl)
    intro slot n _ same
    subst same
    split
    · apply Keeps.bind (fun _ _ _ _ _ => trivial)
        (keeps_need (fun p k => k = n ∧ pending[position]? = some p) trivial fun p found =>
          ⟨rfl, found⟩)
      intro p k _ both
      obtain ⟨rfl, found⟩ := both
      apply keeps_get
      split
      · rename_i shape q asked
        have kept := Pending.honest_set honest found
        rw [asked] at kept
        split
        · exact ih kept
        · exact keeps_pure trivial kept
      · apply Keeps.bind (fun _ _ _ _ _ => trivial) (honest_force eval)
        intro out j _ honest
        apply Keeps.bind (fun _ _ _ _ _ => trivial) (keeps_any _ j)
        intro c i _ _
        apply keeps_contents
        split
        · exact ih fun p member => honest p member i
        · exact keeps_pure trivial fun p member => honest p member i
    · exact ih honest

end Steps

end Matching
end CallScript
