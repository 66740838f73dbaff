import CallScript.Proofs.Run.Builtins
import CallScript.Proofs.Run.Prediction

/- Matching without an index and without kept predictions. The plain resolver goes through all
   functions in the order in which they were added, compares their names, and works out the shape of
   an argument anew each time it needs it. Calls are matched as if it did the work. -/
namespace CallScript

open Eval

namespace Plain

/-- The declared result of the first function of a name that the shapes do not rule out, if they
certainly fit. -/
def promised (name : Name) (shapes : List (Option Shape)) : List Function → Option ResultType
  | [] => none
  | f :: rest =>
    if f.signature.name = name then
      match f.signature.verdict shapes with
      | .accepted => some f.signature.returns
      | .undecided => none
      | .rejected => promised name shapes rest
    else promised name shapes rest

mutual

def shape? (m : Machine) : Argument → Option Shape
  | .literal value => some value.shape
  | .ident name => (m.scope.find? name).map fun c => (m.heap.get c).shape
  | .call name args =>
    (promised name (shapes m args) m.registry.functions.toList).bind ResultType.shape?
  | .unknown _ => none

def shapes (m : Machine) : List Argument → List (Option Shape)
  | [] => []
  | a :: rest => shape? m a :: shapes m rest

end

abbrev Entry := Argument × Option CellId

def Entry.shape? (m : Machine) : Entry → Option Shape
  | (_, some c) => some (m.heap.get c).shape
  | (a, none) => Plain.shape? m a

def evaluated (eval : Argument → Eval CellId) (slot : Option Slot) : Entry → Eval Entry
  | (a, some c) => return (a, some c)
  | (a, none) =>
    match slot with
    | some .raw => return (a, none)
    | some _ => return (a, some (← eval a))
    | none => throw .crashed

def force (eval : Argument → Eval CellId) (s : Signature) (last : Nat) :
    Nat → List Entry → Eval (List Entry)
  | _, [] => return []
  | position, entry :: rest => do
    if last < position then return entry :: rest
    let first ← evaluated eval (s.slot? position) entry
    let others ← force eval s last (position + 1) rest
    return first :: others

def accepts (eval : Argument → Eval CellId) (s : Signature) :
    Nat → Nat → List Entry → Eval (Bool × List Entry)
  | 0, _, entries => return (true, entries)
  | left + 1, position, entries => do
    match ← need (s.slot? position) with
    | .shape required =>
      match (← need entries[position]?).shape? (← get) with
      | some shape =>
        if shape = required then accepts eval s left (position + 1) entries
        else return (false, entries)
      | none =>
        let entries ← force eval s position 0 entries
        let c ← need (entries[position]?.bind Prod.snd)
        if (← contents c).shape = required then accepts eval s left (position + 1) entries
        else return (false, entries)
    | _ => accepts eval s left (position + 1) entries

def choose (eval : Argument → Eval CellId) (name : Name) :
    List Function → List Entry → Eval (Function × List Entry)
  | [], entries => do
    let m ← get
    fail (.functionNotFound name (entries.map (Entry.shape? m)))
  | f :: rest, entries => do
    if f.signature.name = name ∧ f.signature.acceptsArity entries.length then
      match ← accepts eval f.signature entries.length 0 entries with
      | (true, entries) => return (f, entries)
      | (false, entries) => choose eval name rest entries
    else choose eval name rest entries

def resolve (eval : Argument → Eval CellId) (inv : Invocation) : Eval (Function × List Entry) := do
  let functions := (← get).registry.functions.toList
  choose eval inv.name functions (inv.args.map fun a => (a, none))

theorem promised_eq (name : Name) (shapes : List (Option Shape)) (functions : List Function) :
    promised name shapes functions =
      (Matching.contender? (functions.filter (·.signature.name = name)) shapes).bind
        (Matching.promise? shapes) := by
  induction functions with
  | nil => rfl
  | cons f rest ih =>
    by_cases same : f.signature.name = name
    · rw [List.filter_cons_of_pos (by simpa using same), promised, if_pos same]
      cases judged : f.signature.verdict shapes with
      | accepted =>
        rw [Matching.contender?_first (by simp [judged])]
        simp [Matching.promise?, judged]
      | undecided =>
        rw [Matching.contender?_first (by simp [judged])]
        simp [Matching.promise?, judged]
      | rejected =>
        rw [Matching.contender?_ruledOut judged]
        exact ih
    · rw [List.filter_cons_of_neg (by simpa using same), promised, if_neg same]
      exact ih

mutual

theorem shape?_eq {m : Machine} (indexed : m.registry.Indexed) :
    ∀ a, shape? m a = Matching.shape? m a
  | .literal value => by rw [shape?, Matching.shape?]
  | .ident name => by rw [shape?, Matching.shape?]
  | .unknown tag => by rw [shape?, Matching.shape?]
  | .call name args => by
    rw [shape?, Matching.shape?_call, promised_eq, shapes_eq indexed args, indexed.candidates_eq]

theorem shapes_eq {m : Machine} (indexed : m.registry.Indexed) :
    ∀ args, shapes m args = args.map (Matching.shape? m)
  | [] => by rw [shapes, List.map_nil]
  | a :: rest => by rw [shapes, List.map_cons, shape?_eq indexed a, shapes_eq indexed rest]

end

section Agreement

variable {α β γ δ : Type} {m : Machine}

/-- Both computations end alike, with results that differ by the view only. -/
def Agrees (view : α → β) (good : α → Machine → Prop) (x : Eval α) (y : Eval β) (m : Machine) :
    Prop :=
  match x m with
  | .ok a n => y m = .ok (view a) n ∧ good a n
  | .error e n => y m = .error e n

theorem agrees_pure {view : α → β} {good : α → Machine → Prop} {a : α} {b : β} (same : b = view a)
    (ok : good a m) :
    Agrees view good (pure a) (pure b) m := by
  rw [same]
  exact ⟨rfl, ok⟩

theorem agrees_get {view : α → β} {good : α → Machine → Prop} {f : Machine → Eval α}
    {g : Machine → Eval β} (rest : Agrees view good (f m) (g m) m) :
    Agrees view good (get >>= f) (get >>= g) m :=
  rest

theorem agrees_contents {view : α → β} {good : α → Machine → Prop} {c : CellId} {f : Datum → Eval α}
    {g : Datum → Eval β} (rest : Agrees view good (f (m.heap.get c)) (g (m.heap.get c)) m) :
    Agrees view good (contents c >>= f) (contents c >>= g) m :=
  rest

theorem agrees_need {view : α → β} {o : Option α} {o' : Option β} (same : o' = o.map view) :
    Agrees view (fun a n => n = m ∧ o = some a) (need o) (need o') m := by
  rw [same]
  cases o with
  | none => rfl
  | some a => exact ⟨rfl, rfl, rfl⟩

theorem agrees_of_keeps {moved : Machine → Machine → Prop} {good : α → Machine → Prop} {x : Eval α}
    (keeps : Keeps moved good x m) : Agrees id (fun _ n => moved m n) x x m := by
  unfold Keeps at keeps
  unfold Agrees
  cases run : x m with
  | ok a n =>
    rw [run] at keeps
    exact ⟨rfl, keeps.1⟩
  | error e n => rfl

theorem Agrees.bind {view : α → β} {good : α → Machine → Prop} {next : γ → δ}
    {better : γ → Machine → Prop} {x : Eval α} {y : Eval β} {f : α → Eval γ} {g : β → Eval δ}
    (first : Agrees view good x y m)
    (rest : ∀ a n, good a n → Agrees next better (f a) (g (view a)) n) :
    Agrees next better (x >>= f) (y >>= g) m := by
  unfold Agrees at first ⊢
  cases run : x m with
  | ok a n =>
    rw [run] at first
    rw [bind_ok run, bind_ok first.1]
    exact rest a n first.2
  | error e n =>
    rw [run] at first
    rw [bind_error run]
    exact bind_error first g

theorem Agrees.run_eq {view : α → β} {good : α → Machine → Prop} {x : Eval α} {y : Eval β}
    (agrees : Agrees view good x y m) : (do return view (← x)) m = y m := by
  unfold Agrees at agrees
  cases run : x m with
  | ok a n =>
    rw [run] at agrees
    rw [bind_ok run, agrees.1]
    rfl
  | error e n =>
    rw [run] at agrees
    rw [bind_error run, agrees]

end Agreement

def entry (p : Pending) : Entry := (p.arg, p.cell)

theorem entry_shape {m : Machine} {p : Pending} (indexed : m.registry.Indexed)
    (honest : p.Honest m) : (entry p).shape? m = (p.shape? m).1 := by
  rw [honest.shape_eq]
  unfold entry Pending.now
  cases p.cell with
  | some c => rfl
  | none => exact shape?_eq indexed p.arg

theorem entry_asked (m : Machine) (p : Pending) : entry (p.shape? m).2 = entry p := by
  obtain ⟨arg, cell⟩ := p.asked_same m
  rw [entry, arg, cell]
  rfl

/-- The registry is in order, and predictions that are kept would be made again. -/
structure Faithful (m : Machine) (pending : List Pending) : Prop where
  indexed : m.registry.Indexed
  honest : ∀ p ∈ pending, p.Honest m

section Simulation

variable {eval : Argument → Eval CellId} {m : Machine} {s : Signature} {pending : List Pending}

variable (registers : registration.ObeyedBy eval)
include registers

theorem agrees_force {last position : Nat} (indexed : m.registry.Indexed) :
    Agrees (List.map entry) (fun out n => Faithful n out)
      (Matching.force eval s last position pending)
      (force eval s last position (pending.map entry)) m := by
  induction pending generalizing m position with
  | nil => exact agrees_pure rfl ⟨indexed, by simp⟩
  | cons p rest ih =>
    -- The first argument is done with, and the others follow.
    have goOn : ∀ (q : Pending) (e : Entry) n, n.registry.Indexed → e = entry q →
        q.predicted = none → Agrees (List.map entry) (fun out n => Faithful n out)
          (do let rest ← Matching.force eval s last (position + 1) rest; return q :: rest)
          (do let others ← force eval s last (position + 1) (rest.map entry); return e :: others)
            n := by
      intro q e n indexed same forgotten
      apply (ih indexed).bind
      intro out k faithful
      refine agrees_pure (by rw [same, List.map_cons]) ⟨faithful.indexed, ?_⟩
      intro r member
      rcases List.mem_cons.mp member with rfl | member
      · intro _ shape found
        rw [forgotten] at found
        cases found
      · exact faithful.honest r member
    rw [List.map_cons]
    simp only [Matching.force, force]
    split
    · refine agrees_pure ?_ ⟨indexed, ?_⟩
      · rw [← List.map_cons, List.map_map]
        rfl
      · intro q member
        obtain ⟨r, _, rfl⟩ := List.mem_map.mp member
        exact r.honest_forget m
    · cases cell : p.cell with
      | some c =>
        have known : entry p = (p.arg, some c) := by rw [entry, cell]
        simp only [known, evaluated, pure_bind]
        exact goOn p.forget _ m indexed known.symm rfl
      | none =>
        have unknown : entry p = (p.arg, none) := by rw [entry, cell]
        rw [unknown]
        cases slot : s.slot? position with
        | none => exact rfl
        | some kind =>
          -- Whatever is not raw is evaluated.
          have taken : Agrees (List.map entry) (fun out n => Faithful n out)
              (do
                let c ← eval p.arg
                let rest ← Matching.force eval s last (position + 1) rest
                return { p.forget with cell := some c } :: rest)
              (do
                let c ← eval p.arg
                let others ← force eval s last (position + 1) (rest.map entry)
                return (p.arg, some c) :: others) m := by
            apply (agrees_of_keeps
              (registers p.arg m trivial (Argument.every_of_all (fun _ => trivial) _))).bind
            intro c n grows
            exact goOn { p.forget with cell := some c } _ n (indexed.extends grows) rfl rfl
          cases kind with
          | raw =>
            simp only [evaluated, pure_bind]
            exact goOn p.forget _ m indexed unknown.symm rfl
          | any =>
            simp only [evaluated, bind_assoc, pure_bind]
            exact taken
          | shape required =>
            simp only [evaluated, bind_assoc, pure_bind]
            exact taken

theorem agrees_accepts {left position : Nat} (faithful : Faithful m pending) :
    Agrees (fun out => (out.1, out.2.map entry)) (fun out n => Faithful n out.2)
      (Matching.accepts eval s left position pending)
        (accepts eval s left position (pending.map entry)) m := by
  induction left generalizing m position pending with
  | zero => exact agrees_pure rfl faithful
  | succ left ih =>
    simp only [Matching.accepts, accepts]
    apply (agrees_need (id_map (s.slot? position)).symm).bind
    rintro slot n ⟨rfl, _⟩
    cases slot with
    | raw => exact ih faithful
    | any => exact ih faithful
    | shape required =>
      apply (agrees_need (List.getElem?_map (f := entry))).bind
      rintro p k ⟨rfl, here⟩
      have honest := faithful.honest p (List.mem_of_getElem? here)
      apply agrees_get
      rw [entry_shape faithful.indexed honest]
      cases asked : p.shape? k with
      | mk answer q =>
        cases answer with
        | some shape =>
          -- The answer is kept, which the plain resolver does not see.
          have kept : Faithful k (pending.set position q) := by
            have honest := Pending.honest_set faithful.honest here
            rw [asked] at honest
            exact ⟨faithful.indexed, honest⟩
          have unseen : pending.map entry = (pending.set position q).map entry := by
            have same := entry_asked k p
            rw [asked] at same
            exact (map_set_same here same).symm
          dsimp only
          split
          · rw [unseen]
            exact ih kept
          · exact agrees_pure (by rw [unseen]) kept
        | none =>
          apply (agrees_force registers faithful.indexed).bind
          intro out j faithful
          have cell : (out.map entry)[position]?.bind Prod.snd =
              (out[position]?.bind Pending.cell).map id := by
            rw [List.getElem?_map, Option.bind_map, Option.map_id, id]
            rfl
          apply (agrees_need cell).bind
          rintro c i ⟨rfl, _⟩
          apply agrees_contents
          split
          · exact ih faithful
          · exact agrees_pure rfl faithful

theorem agrees_choose {name : Name} {functions : List Function} (faithful : Faithful m pending) :
    Agrees (fun out => (out.1, out.2.map entry)) (fun _ _ => True)
      (Matching.choose eval name (functions.filter (·.signature.name = name)) pending)
      (choose eval name functions (pending.map entry)) m := by
  induction functions generalizing m pending with
  | nil =>
    apply agrees_get
    have shapes : (pending.map entry).map (Entry.shape? m) = pending.map fun p =>
      (p.shape? m).1 := by
      rw [List.map_map]
      exact List.map_congr_left fun p member =>
        entry_shape faithful.indexed (faithful.honest p member)
    rw [shapes]
    rfl
  | cons f rest ih =>
    simp only [choose, List.length_map]
    by_cases same : f.signature.name = name
    · rw [List.filter_cons_of_pos (by simpa using same)]
      by_cases arity : f.signature.acceptsArity pending.length
      · simp only [Matching.choose, if_pos arity, if_pos (And.intro same arity)]
        apply (agrees_accepts registers faithful).bind
        intro out n faithful
        obtain ⟨accepted, forced⟩ := out
        cases accepted with
        | true => exact agrees_pure rfl trivial
        | false => exact ih faithful
      · rw [if_neg fun both => arity both.2, Matching.choose_ruledOut eval arity]
        exact ih faithful
    · rw [List.filter_cons_of_neg (by simpa using same), if_neg fun both => same both.1]
      exact ih faithful

theorem agrees_resolve {inv : Invocation} (indexed : m.registry.Indexed) :
    Agrees (fun out => (out.1, out.2.map entry)) (fun _ _ => True) (Matching.resolve eval inv)
      (resolve eval inv) m := by
  apply agrees_get
  have faithful : Faithful m (inv.args.map .ofArgument) := by
    refine ⟨indexed, fun p member => ?_⟩
    obtain ⟨a, _, rfl⟩ := List.mem_map.mp member
    exact Pending.honest_ofArgument m a
  have entries : (inv.args.map fun a => (a, none)) =
      (inv.args.map Pending.ofArgument).map entry := by
    rw [List.map_map]
    rfl
  rw [indexed.candidates_eq, entries]
  exact agrees_choose registers faithful

end Simulation

end Plain

/-- A call is matched as the plain resolver matches it: with the same function or error, the same
cells for its arguments, and the same machine afterwards. -/
theorem resolver_equals_plain (added : List Function) (m : Machine) (settings : Settings)
    (fuel depth : Nat) (inv : Invocation) :
    let eval := evalArgument (evaluate settings fuel depth)
    let start := { m with registry := added.foldl Registry.add .initial }
    (do
      let out ← Matching.resolve eval inv
      return (out.1, out.2.map Plain.entry)) start = Plain.resolve eval inv start := by
  intro eval start
  have registers : registration.ObeyedBy eval :=
    Discipline.obeyedBy_evalArgument (Discipline.obeyed_evaluate settings fuel depth)
  have indexed : start.registry.Indexed := (Registry.Indexed.empty.addAll _).addAll added
  exact (Plain.agrees_resolve registers indexed).run_eq

end CallScript
