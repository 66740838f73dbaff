import CallScript.Document.Token

/- The nodes of a document: scalars, sequences, mappings, and references to nodes that were
   named before. -/
namespace CallScript

/-- A node of a document. A plain scalar is written without quotes, and a tag says what a scalar
is. A reference inside the node that it refers to has no target. -/
inductive Node where
  | scalar (text : Bytes) (plain : Bool) (tag : Option Bytes)
  | sequence (items : List Node)
  | mapping (entries : List (Node × Node))
  | reference (name : Bytes) (target : Option Node)
  deriving Repr

namespace Document

def nothing : Node := .scalar [] true none

def standardAddress : Bytes := utf8 "tag:yaml.org,2002:"

def standardHandles : List (Bytes × Bytes) := [(utf8 "!", utf8 "!"), (utf8 "!!", standardAddress)]

/-- A tag in its short form. A lone exclamation mark says nothing. -/
def shortTag? (tag : Bytes) : Option Bytes :=
  if tag = utf8 "!" then none
  else if standardAddress.isPrefixOf tag then some (utf8 "!!" ++ tag.drop standardAddress.length)
  else some tag

/-- A document while it is read: its tokens, its named nodes, and the handles of its tags. A name
has no node while that is read; names are never removed, and the last one counts. -/
structure Reading where
  tokens : Tokens
  names : List (Bytes × Option Node) := []
  handles : List (Bytes × Bytes) := []

abbrev Read := StateT Reading Option

namespace Read

def peek : Read Token := do
  let r ← get
  match r.tokens.peek? with
  | some (token, tokens) =>
    set { r with tokens }
    pure token
  | none => failure

def skip : Read Unit := modify fun r => { r with tokens := r.tokens.tail }

def tagOf (handle suffix : List Char) : Read Bytes := do
  let suffix := bytesOf suffix
  if handle.isEmpty then pure suffix
  else match (← get).handles.lookup (bytesOf handle) with
    | some expansion => pure (expansion ++ suffix)
    | none => failure

def tag? : Read (Option Bytes) := do
  match ← peek with
  | .tag handle suffix =>
    skip
    some <$> tagOf handle suffix
  | _ => pure none

def anchor? : Read (Option Bytes) := do
  match ← peek with
  | .anchor name =>
    skip
    pure (some (bytesOf name))
  | _ => pure none

def properties : Read (Option Bytes × Option Bytes) := do
  match ← anchor? with
  | some name => return (some name, ← tag?)
  | none =>
    match ← tag? with
    | some tag => return (← anchor?, some tag)
    | none => return (none, none)

def named (name : Option Bytes) (read : Read Node) : Read Node := do
  match name with
  | none => read
  | some name =>
    let before := (← get).names.length
    modify fun r => { r with names := (name, none) :: r.names }
    let node ← read
    modify fun r => { r with names := r.names.set (r.names.length - 1 - before) (name, some node) }
    pure node

def referenceTo (name : Bytes) : Read Node := do
  match (← get).names.lookup name with
  | some target => pure (.reference name target)
  | none => failure

end Read

open Read

/-- Whether a token stands after a missing node of a mapping outside of brackets. -/
def endsBlockNode : Token → Bool
  | .key | .value | .blockEnd => true
  | _ => false

def endsSequenceNode : Token → Bool
  | .comma | .sequenceEnd => true
  | _ => false

def endsMappingNode : Token → Bool
  | .comma | .mappingEnd => true
  | _ => false

mutual

/-- Reads a node. Sequences and mappings outside of brackets cannot stand inside of them, and the
entries of a sequence need not be indented where it is a value. The first argument bounds the
tokens to read. -/
def node : Nat → Bool → Bool → Read Node
  | 0, _, _ => failure
  | fuel + 1, block, unindented => do
    match ← peek with
    | .reference name =>
      skip
      referenceTo (bytesOf name)
    | _ =>
      let (name, tag) ← properties
      match ← peek with
      | .scalar text plain =>
        skip
        named name (pure (.scalar (bytesOf text) plain (tag.bind shortTag?)))
      | .sequenceStart =>
        skip
        named name (.sequence <$> bracketItems fuel true)
      | .mappingStart =>
        skip
        named name (.mapping <$> bracketEntries fuel true)
      | token =>
        if token = .entry && unindented then named name (.sequence <$> unindentedItems fuel)
        else if token = .blockSequence && block then
          skip
          named name (.sequence <$> blockItems fuel)
        else if token = .blockMapping && block then
          skip
          named name (.mapping <$> blockEntries fuel)
        else if name.isSome || tag.isSome then
          named name (pure (.scalar [] true (tag.bind shortTag?)))
        else failure

def blockItems : Nat → Read (List Node)
  | 0 => failure
  | fuel + 1 => do
    match ← peek with
    | .entry =>
      skip
      let item ← match ← peek with
        | .entry | .blockEnd => pure nothing
        | _ => node fuel true false
      return item :: (← blockItems fuel)
    | .blockEnd =>
      skip
      pure []
    | _ => failure

def unindentedItems : Nat → Read (List Node)
  | 0 => failure
  | fuel + 1 => do
    match ← peek with
    | .entry =>
      skip
      let token ← peek
      let item ←
        if token = .entry || endsBlockNode token then pure nothing else node fuel true false
      return item :: (← unindentedItems fuel)
    | _ => pure []

def blockEntries : Nat → Read (List (Node × Node))
  | 0 => failure
  | fuel + 1 => do
    match ← peek with
    | .key =>
      skip
      let key ← if endsBlockNode (← peek) then pure nothing else node fuel true true
      let value ←
        if (← peek) = .value then
          skip
          if endsBlockNode (← peek) then pure nothing else node fuel true true
        else pure nothing
      return (key, value) :: (← blockEntries fuel)
    | .blockEnd =>
      skip
      pure []
    | _ => failure

def bracketItems : Nat → Bool → Read (List Node)
  | 0, _ => failure
  | fuel + 1, isFirst => do
    if (← peek) = .sequenceEnd then
      skip
      return []
    if !isFirst then
      if (← peek) = .comma then skip else failure
    match ← peek with
    | .sequenceEnd =>
      skip
      pure []
    | .key =>
      skip
      let token ← peek
      let key ←
        if token = .value || endsSequenceNode token then
          skip
          pure nothing
        else node fuel false false
      let value ←
        if (← peek) = .value then
          skip
          if endsSequenceNode (← peek) then pure nothing else node fuel false false
        else pure nothing
      return .mapping [(key, value)] :: (← bracketItems fuel false)
    | _ =>
      let item ← node fuel false false
      return item :: (← bracketItems fuel false)

def bracketEntries : Nat → Bool → Read (List (Node × Node))
  | 0, _ => failure
  | fuel + 1, isFirst => do
    if (← peek) = .mappingEnd then
      skip
      return []
    if !isFirst then
      if (← peek) = .comma then skip else failure
    match ← peek with
    | .mappingEnd =>
      skip
      pure []
    | .key =>
      skip
      let token ← peek
      let key ←
        if token = .value || endsMappingNode token then pure nothing else node fuel false false
      let value ←
        if (← peek) = .value then
          skip
          if endsMappingNode (← peek) then pure nothing else node fuel false false
        else pure nothing
      return (key, value) :: (← bracketEntries fuel false)
    | _ =>
      let key ← node fuel false false
      let _ ← peek
      return (key, nothing) :: (← bracketEntries fuel false)

end

def directives : Nat → Bool → Read Unit
  | 0, _ => failure
  | fuel + 1, versioned => do
    match ← peek with
    | .version major minor =>
      if versioned || major ≠ 1 || minor ≠ 1 then failure
      skip
      directives fuel true
    | .tagHandle handle expansion =>
      let handle := bytesOf handle
      if ((← get).handles.lookup handle).isSome then failure
      skip
      modify fun r => { r with handles := (handle, bytesOf expansion) :: r.handles }
      directives fuel versioned
    | _ => modify fun r => { r with handles := r.handles ++ standardHandles }

def endsDocument : Token → Bool
  | .version _ _ | .tagHandle _ _ | .documentStart | .documentEnd | .streamEnd => true
  | _ => false

/-- Reads the first document of a text; a text without one holds nothing. What follows the document
is not looked at, beyond the tokens that show where it ends. -/
def document (fuel : Nat) : Read Node := do
  match ← peek with
  | .streamEnd => pure nothing
  | first =>
    let root ←
      if first ≠ .documentEnd && endsDocument first then do
        directives fuel false
        if (← peek) ≠ .documentStart then failure
        skip
        if endsDocument (← peek) then pure nothing else node fuel true false
      else do
        modify fun r => { r with handles := standardHandles }
        node fuel true false
    let _ ← peek
    pure root

def parse? (text : Bytes) : Option Node := do
  let spots ← spots? text
  ((document (8 * spots.length + 8)).run { tokens := { text := spots } }).map Prod.fst

end Document
end CallScript
