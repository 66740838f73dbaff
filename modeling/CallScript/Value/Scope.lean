import CallScript.Value.Heap

/- A scope binds names to cells. Its bindings are kept in the order of their names, each name once,
   so two scopes with the same bindings are equal. -/
namespace CallScript

structure Scope where
  bindings : List (Name × CellId)
  deriving DecidableEq, Repr

namespace Scope

def empty : Scope := ⟨[]⟩

def size (s : Scope) : Nat := s.bindings.length

def names (s : Scope) : List Name := s.bindings.map Prod.fst

def find? (s : Scope) (name : Name) : Option CellId := s.bindings.lookup name

def insert (name : Name) (cell : CellId) : List (Name × CellId) → List (Name × CellId)
  | [] => [(name, cell)]
  | (other, held) :: rest =>
    if name = other then (name, cell) :: rest
    else if name < other then (name, cell) :: (other, held) :: rest
    else (other, held) :: insert name cell rest

def bind (s : Scope) (name : Name) (cell : CellId) : Scope := ⟨insert name cell s.bindings⟩

def bindAll (s : Scope) (pairs : List (Name × CellId)) : Scope :=
  pairs.foldl (fun s (name, cell) => s.bind name cell) s

end Scope

def constants : List (Name × Datum) :=
  [(utf8 "true", .boolean true), (utf8 "false", .boolean false),
    (utf8 "break", .flow .breaks none), (utf8 "continue", .flow .continues none)]

def Scope.root (h : Heap) : Scope × Heap :=
  constants.foldl (fun (s, h) (name, d) =>
    let (c, h) := h.alloc d
    (s.bind name c, h)) (.empty, h)

/-- A heap being copied: the new cells made so far, each beside the cell it stands for. -/
structure Duplication where
  heap : Heap
  images : List (CellId × CellId)
  deriving DecidableEq, Repr

namespace Duplication

def cells (copy : CellId → Duplication → CellId × Duplication) :
    List CellId → Duplication → List CellId × Duplication
  | [], s => ([], s)
  | c :: rest, s =>
    let (dup, s) := copy c s
    let (dups, s) := cells copy rest s
    (dup :: dups, s)

/-- A new cell for `c`, entered as its image before its contents are copied, so that sharing and
cycles are kept. -/
def reserve (c : CellId) (s : Duplication) : CellId × Duplication :=
  let (dup, heap) := s.heap.alloc .unit
  (dup, ⟨heap, (c, dup) :: s.images⟩)

def cell : Nat → CellId → Duplication → CellId × Duplication
  | 0, c, s => (c, s)
  | budget + 1, c, s =>
    match s.images.lookup c with
    | some dup => (dup, s)
    | none =>
      let (dup, s) := reserve c s
      match s.heap.get c with
      | .list elements =>
        let (dups, s) := cells (cell budget) elements s
        (dup, { s with heap := s.heap.set dup (.list dups) })
      | d => (dup, { s with heap := s.heap.set dup d })

def bindings (budget : Nat) (list : List (Name × CellId)) (s : Duplication) :
    List (Name × CellId) × Duplication :=
  let (dups, s) := cells (cell budget) (list.map Prod.snd) s
  ((list.map Prod.fst).zip dups, s)

end Duplication

/-- A copy of a scope down to the elements of its lists. Names and elements share a cell in the copy
exactly when they did before, and nothing is shared with the scope itself. -/
def Scope.snapshot (s : Scope) (h : Heap) : Scope × Heap :=
  let (list, done) := Duplication.bindings (h.size + 1) s.bindings ⟨h, []⟩
  (⟨list⟩, done.heap)

end CallScript
