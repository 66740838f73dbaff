import CallScript.Value.Scope
import CallScript.Program.Printer
import CallScript.Function.Signature

/- Functions that programs define: a name, a result type, parameters with their types, and a
   body. -/
namespace CallScript

/-- A defined function. Its closure is a copy of the scope it was defined in. -/
structure Definition where
  signature : Signature
  params : List Name
  body : List Invocation
  closure : Scope
  deriving DecidableEq, Repr

structure Outline where
  name : Name
  returns : ResultType
  params : List (Name × Slot)
  body : List Invocation
  deriving DecidableEq, Repr

inductive DefinitionFault where
  | headerMissing
  | nameNotIdentifier (found : Argument)
  | resultNotIdentifier (name : Name) (found : Argument)
  | unknownResult (name typeName : Name)
  | unknownParameter (name typeName param : Name)
  | bodyMissing (name : Name)
  | notInvocation (name : Name) (found : Argument)
  deriving DecidableEq, Repr

def DefinitionFault.detail (h : Heap) : DefinitionFault → Bytes
  | .headerMissing => utf8 "fn: expected a name and a return type"
  | .nameNotIdentifier found => utf8 "fn: name must be an identifier, got " ++ found.render h
  | .resultNotIdentifier name found =>
    utf8 "fn " ++ name ++ utf8 ": return type must be an identifier, got " ++ found.render h
  | .unknownResult name typeName => utf8 "fn " ++ name ++ utf8 ": unknown type " ++ typeName.quote
  | .unknownParameter name typeName param =>
    utf8 "fn " ++ name ++ utf8 ": unknown type " ++ typeName.quote ++
      utf8 " for parameter " ++ param
  | .bodyMissing name => utf8 "fn " ++ name ++ utf8 ": missing body"
  | .notInvocation name found =>
    utf8 "fn " ++ name ++ utf8 ": body statement " ++ found.render h ++ utf8 " is not an invocation"

def typeNames : List (Name × ResultType) :=
  [(utf8 "str", .shape .string), (utf8 "string", .shape .string), (utf8 "num", .shape .number),
    (utf8 "number", .shape .number), (utf8 "bool", .shape .boolean),
    (utf8 "boolean", .shape .boolean), (utf8 "void", .shape .unit), (utf8 "unit", .shape .unit),
    (utf8 "list", .shape .list), (utf8 "any", .any)]

def ResultType.ofTypeName? (name : Name) : Option ResultType := typeNames.lookup name

def ResultType.slot : ResultType → Slot
  | .any => .any
  | .shape s => .shape s

namespace Outline

/-- Parameters are taken in pairs of identifiers, as long as there are such pairs; the rest is the
body. -/
def readParams (name : Name) :
    List Argument → Except DefinitionFault (List (Name × Slot) × List Argument)
  | .ident param :: .ident typeName :: rest =>
    match ResultType.ofTypeName? typeName with
    | none => .error (.unknownParameter name typeName param)
    | some t => do
      let (params, body) ← readParams name rest
      .ok ((param, t.slot) :: params, body)
  | rest => .ok ([], rest)

def readBody (name : Name) : List Argument → Except DefinitionFault (List Invocation)
  | [] => .ok []
  | .call callee args :: rest => do
    let body ← readBody name rest
    .ok (⟨callee, args⟩ :: body)
  | found :: _ => .error (.notInvocation name found)

def ofArguments : List Argument → Except DefinitionFault Outline
  | first :: second :: rest =>
    match first with
    | .ident name =>
      match second with
      | .ident typeName =>
        match ResultType.ofTypeName? typeName with
        | none => .error (.unknownResult name typeName)
        | some returns => do
          let (params, rest) ← readParams name rest
          if rest.isEmpty then .error (.bodyMissing name)
          else
            let body ← readBody name rest
            .ok ⟨name, returns, params, body⟩
      | found => .error (.resultNotIdentifier name found)
    | found => .error (.nameNotIdentifier found)
  | _ => .error .headerMissing

def signature (o : Outline) : Signature := ⟨o.name, o.params.map Prod.snd, false, o.returns⟩

def close (o : Outline) (closure : Scope) : Definition :=
  ⟨o.signature, o.params.map Prod.fst, o.body, closure⟩

end Outline
end CallScript
