import CallScript.Screen.Wrap

/- The part of the screen that shows a stretch of the transcript. -/
namespace CallScript

structure Pane where
  width : Int
  height : Nat
  lines : List Bytes
  offset : Nat
  deriving DecidableEq, Repr

namespace Pane

def initial : Pane := ⟨80, 20, [], 0⟩

def bottom (p : Pane) : Nat := p.lines.length - p.height

def showEnd (p : Pane) (text : Bytes) : Pane :=
  let p := { p with lines := Bytes.splitAt Bytes.newline text.plainNewlines }
  { p with offset := p.bottom }

def pageUp (p : Pane) : Pane := { p with offset := min (p.offset - p.height) p.bottom }

def pageDown (p : Pane) : Pane :=
  if p.bottom ≤ p.offset then p else { p with offset := min (p.offset + p.height) p.bottom }

def view (p : Pane) : Bytes :=
  let shown := (p.lines.drop p.offset).take p.height
  let text := Bytes.join [Bytes.newline] (shown.map Bytes.expandTabs)
  let lines := Bytes.splitAt Bytes.newline (text.wrap p.width.toNat)
  let filled := lines ++ List.replicate (p.height - lines.length) []
  Bytes.join [Bytes.newline] ((Bytes.padLines p.width.toNat filled).take p.height)

end Pane
end CallScript
