import CallScript.Text.Bytes

/- The lines a user entered, and a cursor for walking through them. The line being edited when the
   walk began comes after the last entry. The cursor is at no line before there is an entry. -/
namespace CallScript

structure History where
  /-- Oldest first. -/
  entries : List Bytes
  position : Int
  draft : Bytes
  browsing : Bool
  deriving DecidableEq, Repr

namespace History

def empty : History := ⟨[], -1, [], false⟩

/-- The last entries; a limit that is not positive keeps all. -/
def trim (limit : Int) (entries : List Bytes) : List Bytes :=
  if 0 < limit then entries.drop (entries.length - limit.toNat) else entries

def add (limit : Int) (h : History) (entry : Bytes) : History :=
  if entry.isEmpty then h
  else
    let entries := trim limit (h.entries ++ [entry])
    { h with entries, position := entries.length, browsing := false }

def start (h : History) (draft : Bytes) : History :=
  if h.browsing then h else { h with draft, browsing := true, position := h.entries.length }

def entry (h : History) (position : Int) : Bytes :=
  if position < 0 then [] else h.entries[position.toNat]?.getD []

def up (h : History) : Bytes × History :=
  if h.entries.isEmpty then ([], h)
  else
    let position := if 0 < h.position then h.position - 1 else h.position
    (h.entry position, { h with position })

def down (h : History) : Bytes × History :=
  if h.entries.isEmpty then ([], h)
  else if h.position < h.entries.length - 1 then
    (h.entry (h.position + 1), { h with position := h.position + 1 })
  else (h.draft, { h with position := h.entries.length, browsing := false })

end History
end CallScript
