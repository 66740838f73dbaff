import CallScript.Text.Quoted
import CallScript.Value.Heap
import CallScript.Program.Basic

/- Programs as source text. A literal that the language has no notation for is written like a
   value. -/
namespace CallScript

namespace Argument

def callText (name : Name) (args : List Bytes) : Bytes :=
  name ++ ascii '(' :: Bytes.join (utf8 ", ") args ++ [ascii ')']

def literalText (h : Heap) (d : Datum) (printable : Nat → Bool := isPrintable) : Bytes :=
  match d with
  | .string text => text.quote printable
  | d => h.render d

mutual

def render (h : Heap) (printable : Nat → Bool := isPrintable) : Argument → Bytes
  | .call name args => callText name (renderAll h printable args)
  | .ident name => name
  | .literal value => literalText h value printable
  | .unknown _ => utf8 "?"

def renderAll (h : Heap) (printable : Nat → Bool) : List Argument → List Bytes
  | [] => []
  | a :: rest => a.render h printable :: renderAll h printable rest

end

end Argument

def Invocation.render (h : Heap) (inv : Invocation) (printable : Nat → Bool := isPrintable) :
    Bytes :=
  Argument.callText inv.name (Argument.renderAll h printable inv.args)

end CallScript
