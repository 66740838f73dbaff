import CallScript.Number.Printer
import CallScript.Value.Datum

/- The heap gives every cell its contents. Cells are never freed: a new cell is named by the number
   of cells there were before it. Functions that follow list elements take a budget of nested lists;
   on a heap in which no list contains itself, the number of cells is budget enough. -/
namespace CallScript

structure Heap where
  cells : Array Datum
  deriving DecidableEq, Repr

namespace Heap

def empty : Heap := ⟨#[]⟩

def size (h : Heap) : Nat := h.cells.size

def get (h : Heap) (c : CellId) : Datum := h.cells[c]?.getD .unit

def set (h : Heap) (c : CellId) (d : Datum) : Heap := ⟨h.cells.setIfInBounds c d⟩

def alloc (h : Heap) (d : Datum) : CellId × Heap := (h.size, ⟨h.cells.push d⟩)

@[simp] theorem size_set (h : Heap) (c : CellId) (d : Datum) : (h.set c d).size = h.size := by
  simp [set, size]

@[simp] theorem size_alloc (h : Heap) (d : Datum) : (h.alloc d).2.size = h.size + 1 := by
  simp [alloc, size]

@[simp] theorem alloc_fst (h : Heap) (d : Datum) : (h.alloc d).1 = h.size := rfl

theorem get_set_self (h : Heap) {c : CellId} (d : Datum) (inside : c < h.size) :
    (h.set c d).get c = d := by
  simp only [size] at inside
  simp [get, set, inside]

theorem get_set_ne (h : Heap) {c e : CellId} (d : Datum) (ne : c ≠ e) :
    (h.set c d).get e = h.get e := by
  simp [get, set, ne]

@[simp] theorem get_alloc_self (h : Heap) (d : Datum) : (h.alloc d).2.get h.size = d := by
  simp [get, alloc, size]

theorem get_alloc_old (h : Heap) {c : CellId} (d : Datum) (old : c < h.size) :
    (h.alloc d).2.get c = h.get c := by
  simp only [size] at old
  simp only [get, alloc]
  rw [Array.getElem?_push_lt old, Array.getElem?_eq_getElem old]

def renderWithin (h : Heap) : Nat → Datum → Bytes
  | _, .string text => text
  | _, .number value => value.render
  | _, .boolean true => utf8 "true"
  | _, .boolean false => utf8 "false"
  | _, .unit => utf8 "()"
  | _, .flow kind _ => kind.name
  | 0, .list _ => []
  | budget + 1, .list elements =>
    ascii '[' :: Bytes.join (utf8 ", ") (elements.map fun c => h.renderWithin budget (h.get c)) ++
      [ascii ']']

def render (h : Heap) (d : Datum) : Bytes := h.renderWithin (h.size + 1) d

def equalWithin (h : Heap) : Nat → Datum → Datum → Bool
  | _, .string a, .string b => a == b
  | _, .number a, .number b => a.equals b
  | _, .boolean a, .boolean b => a == b
  | _, .unit, .unit => true
  | _, .flow .returns a, .flow .returns b => a == b
  | _, .flow j _, .flow k _ => j == k
  | budget + 1, .list as, .list bs =>
    as.length == bs.length &&
      (as.zip bs).all fun (a, b) => h.equalWithin budget (h.get a) (h.get b)
  | _, _, _ => false

/-- Values are compared by contents, but returns by the cell they carry. -/
def equal (h : Heap) (a b : Datum) : Bool := h.equalWithin (h.size + 1) a b

def copyCells (copy : Datum → Heap → Datum × Heap) : List CellId → Heap → List CellId × Heap
  | [], h => ([], h)
  | c :: rest, h =>
    let (d, h) := copy (h.get c) h
    let (dup, h) := h.alloc d
    let (dups, h) := copyCells copy rest h
    (dup :: dups, h)

def copyWithin : Nat → Datum → Heap → Datum × Heap
  | budget + 1, .list elements, h =>
    let (dups, h) := copyCells (copyWithin budget) elements h
    (.list dups, h)
  | _, d, h => (d, h)

/-- A value equal to the given one whose lists share no cell with it. A carried cell is shared. -/
def copy (h : Heap) (d : Datum) : Datum × Heap := copyWithin (h.size + 1) d h

def searchAny (search : CellId → List CellId → Bool × List CellId) :
    List CellId → List CellId → Bool × List CellId
  | [], seen => (false, seen)
  | c :: rest, seen =>
    match search c seen with
    | (true, seen) => (true, seen)
    | (false, seen) => searchAny search rest seen

/-- Depth first search for a cell along list elements; lists already seen are not entered again. -/
def search (h : Heap) (target : CellId) : Nat → CellId → List CellId → Bool × List CellId
  | 0, _, seen => (false, seen)
  | budget + 1, c, seen =>
    if c = target then (true, seen)
    else match h.get c with
      | .list elements =>
        if c ∈ seen then (false, seen)
        else searchAny (h.search target budget) elements (c :: seen)
      | _ => (false, seen)

def reaches (h : Heap) (c target : CellId) : Bool := (h.search target (h.size + 1) c []).1

end Heap
end CallScript
