import CallScript.Function.Definition
import CallScript.Proofs.Value.Images

/- What reading the arguments of a definition gives. Parameters are read from the pairs they are
   written as, and the body from its statements; nothing else is read. -/
namespace CallScript.Outline

def pairs (written : List (Name × Name)) : List Argument :=
  written.flatMap fun p => [.ident p.1, .ident p.2]

def statements (body : List Invocation) : List Argument :=
  body.map fun inv => .call inv.name inv.args

def Declared (written : Name × Name) (param : Name × Slot) : Prop :=
  param.1 = written.1 ∧ ∃ t, ResultType.ofTypeName? written.2 = some t ∧ param.2 = t.slot

theorem pairs_cons (p : Name × Name) (written : List (Name × Name)) :
    pairs (p :: written) = .ident p.1 :: .ident p.2 :: pairs written := rfl

theorem statements_cons (inv : Invocation) (body : List Invocation) :
    statements (inv :: body) = .call inv.name inv.args :: statements body := rfl

theorem readParams_ok {name : Name} {args rest : List Argument} {params : List (Name × Slot)}
    (read : readParams name args = .ok (params, rest)) :
    ∃ written, args = pairs written ++ rest ∧ List.Forall₂ Declared written params := by
  fun_induction readParams name args generalizing params rest with
  | case1 => cases read
  | case2 param typeName others t known ih =>
    cases later : readParams name others with
    | error fault => simp [later, bind, Except.bind] at read
    | ok found =>
      simp only [later, bind, Except.bind, Except.ok.injEq, Prod.mk.injEq] at read
      obtain ⟨rfl, rfl⟩ := read
      obtain ⟨written, rfl, declared⟩ := ih later
      exact ⟨(param, typeName) :: written, rfl, .cons ⟨rfl, t, known, rfl⟩ declared⟩
  | case3 =>
    cases read
    exact ⟨[], rfl, .nil⟩

theorem readParams_pairs (name : Name) {written : List (Name × Name)} {params : List (Name × Slot)}
    (declared : List.Forall₂ Declared written params) (body : List Invocation) :
    readParams name (pairs written ++ statements body) = .ok (params, statements body) := by
  induction declared with
  | nil =>
    cases body with
    | nil => rfl
    | cons inv body => simp [pairs, statements_cons, readParams]
  | @cons p q written params first _ ih =>
    obtain ⟨param, slot⟩ := q
    obtain ⟨rfl, t, known, rfl⟩ := first
    simp [pairs_cons, readParams, known, ih, bind, Except.bind]

theorem readBody_ok {name : Name} {args : List Argument} {body : List Invocation}
    (read : readBody name args = .ok body) : args = statements body := by
  fun_induction readBody name args generalizing body with
  | case1 =>
    cases read
    rfl
  | case2 callee args rest ih =>
    cases later : readBody name rest with
    | error fault => simp [later, bind, Except.bind] at read
    | ok found =>
      simp only [later, bind, Except.bind, Except.ok.injEq] at read
      subst read
      rw [statements_cons, ← ih later]
  | case3 => cases read

theorem readBody_statements (name : Name) (body : List Invocation) :
    readBody name (statements body) = .ok body := by
  induction body with
  | nil => rfl
  | cons inv body ih => simp [statements_cons, readBody, ih, bind, Except.bind]

theorem Declared.ne_raw {written : Name × Name} {param : Name × Slot}
    (declared : Declared written param) :
    param.2 ≠ .raw := by
  obtain ⟨-, t, -, slot⟩ := declared
  rw [slot]
  cases t with
  | any => exact Slot.noConfusion
  | shape s => exact Slot.noConfusion

theorem ofArguments_ok {args : List Argument} {outline : Outline}
    (read : ofArguments args = .ok outline) :
    ∃ typeName others body, args = .ident outline.name :: .ident typeName :: others ∧
      ResultType.ofTypeName? typeName = some outline.returns ∧
      readParams outline.name others = .ok (outline.params, body) ∧ body ≠ [] ∧
      readBody outline.name body = .ok outline.body := by
  unfold ofArguments at read
  split at read
  · rename_i first second others
    split at read
    · rename_i name
      split at read
      · rename_i typeName
        split at read
        · cases read
        · rename_i returns known
          cases params : readParams name others with
          | error fault => simp [params, bind, Except.bind] at read
          | ok found =>
            simp only [params, bind, Except.bind] at read
            split at read
            · cases read
            · rename_i some
              cases statements : readBody name found.2 with
              | error fault => simp [statements] at read
              | ok body =>
                simp only [statements, Except.ok.injEq] at read
                subst read
                exact ⟨typeName, others, found.2, rfl, known, params, by simpa using some,
                  statements⟩
      · cases read
    · cases read
  · cases read

theorem statement_mem {args : List Argument} {outline : Outline}
    (read : ofArguments args = .ok outline) {inv : Invocation} (member : inv ∈ outline.body) :
    Argument.call inv.name inv.args ∈ args := by
  obtain ⟨typeName, others, body, rfl, -, params, -, statement⟩ := ofArguments_ok read
  obtain ⟨written, rfl, -⟩ := readParams_ok params
  obtain rfl := readBody_ok statement
  have listed : Argument.call inv.name inv.args ∈ statements outline.body :=
    List.mem_map_of_mem member
  exact List.mem_cons_of_mem _ (List.mem_cons_of_mem _ (List.mem_append_right _ listed))

theorem slot_ne_raw {args : List Argument} {outline : Outline}
    (read : ofArguments args = .ok outline) :
    ∀ slot ∈ outline.signature.slots, slot ≠ .raw := by
  obtain ⟨_, _, _, -, -, params, -, -⟩ := ofArguments_ok read
  obtain ⟨written, -, declared⟩ := readParams_ok params
  intro slot member
  obtain ⟨p, held, rfl⟩ := List.mem_map.mp member
  obtain ⟨q, -, first⟩ := exists_left_of_mem declared held
  exact first.ne_raw

end CallScript.Outline
