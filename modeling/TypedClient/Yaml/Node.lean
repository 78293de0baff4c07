import TypedClient.Yaml.Token

/-!
# Nodes

The grammar of the tokens: a document is one node, and a node is a scalar, a list
of entries, a list of keys with values, or the repetition of an anchored node.
Nothing where a node is expected is an empty scalar. A text holds one document.
-/

namespace TypedClient.Yaml

/-- A node, over the names `α` of its anchors. -/
inductive Node (α : Type) where
  /-- The node that the anchor names. -/
  | alias (anchor : α)
  /-- A scalar; the flag tells whether it is written plain. -/
  | scalar (anchor : Option α) (tag : Option Tag) (text : String) (plain : Bool)
  /-- A list of entries. -/
  | sequence (anchor : Option α) (tag : Option Tag) (entries : List (Node α))
  /-- A list of keys with values. -/
  | mapping (anchor : Option α) (tag : Option Tag) (entries : List (Node α × Node α))
  deriving Inhabited

/-- A node whose anchors are names. -/
abbrev NamedNode := Node (List Char)

namespace Node

/-- The scalar that stands where there is nothing. -/
def empty : NamedNode := .scalar none none "" true

/-- What may stand in front of a node. -/
structure Properties where
  /-- Its anchor. -/
  anchor : Option (List Char) := none
  /-- Its tag as it is written. -/
  tag : Option (List Char × Tag) := none

/-- Read an anchor and a tag, in either order and both optional. -/
def readProperties : List Token → Properties × List Token
  | .anchor a :: .tag h s :: rest => (⟨some a, some (h, s)⟩, rest)
  | .anchor a :: rest => (⟨some a, none⟩, rest)
  | .tag h s :: .anchor a :: rest => (⟨some a, some (h, s)⟩, rest)
  | .tag h s :: rest => (⟨none, some (h, s)⟩, rest)
  | tokens => ({}, tokens)

/-- Handles with what they stand for. -/
abbrev Handles := List (List Char × Tag)

/-- The full tag for a written one: the stem of its handle and its suffix. A tag
without a handle is full already. -/
def fullTag (handles : Handles) (tag : Option (List Char × Tag)) : Option (Option Tag) :=
  match tag with
  | none => some none
  | some ([], suffix) => some (some suffix)
  | some (handle, suffix) => (handles.lookup handle).map fun stem => some (stem ++ suffix)

/-- Where a node stands: inside brackets, in a block, or as the value of a key, where
entries need no further indentation. -/
inductive Place where
  | flow
  | block
  | member
  deriving DecidableEq

/-- Whether a token ends an entry of a block. -/
def endsEntry : List Token → Bool
  | .blockEntry :: _ | .blockEnd :: _ => true
  | _ => false

/-- Whether a token ends an entry that is not indented. -/
def endsFlatEntry : List Token → Bool
  | .blockEntry :: _ | .blockEnd :: _ | .key :: _ | .value :: _ => true
  | _ => false

/-- Whether a token ends a key or value of a block. -/
def endsMember : List Token → Bool
  | .key :: _ | .value :: _ | .blockEnd :: _ => true
  | _ => false

/-- Whether a token ends a value inside brackets. -/
def endsFlowValue (close : Token) : List Token → Bool
  | .flowEntry :: _ => true
  | token :: _ => token = close
  | [] => false

/-- Whether a token ends a key inside brackets. -/
def endsFlowKey (close : Token) : List Token → Bool
  | .value :: _ => true
  | tokens => endsFlowValue close tokens

mutual

/-- Read a node. -/
def readNode (handles : Handles) : Nat → Place → List Token → Option (NamedNode × List Token)
  | 0, _, _ => none
  | fuel + 1, place, tokens =>
    match tokens with
    | .alias name :: rest => some (.alias name, rest)
    | _ => do
      let (properties, rest) := readProperties tokens
      let tag ← fullTag handles properties.tag
      let anchor := properties.anchor
      match rest, place with
      | .blockEntry :: _, .member => do
        let (entries, after) ← readFlatEntries handles fuel rest
        return (.sequence anchor tag entries, after)
      | .scalar text plain :: after, _ => return (.scalar anchor tag text plain, after)
      | .flowSequenceStart :: inside, _ => do
        let (entries, after) ← readFlowEntries handles fuel true inside
        return (.sequence anchor tag entries, after)
      | .flowMappingStart :: inside, _ => do
        let (entries, after) ← readFlowMembers handles fuel true inside
        return (.mapping anchor tag entries, after)
      | .blockSequenceStart :: inside, .block | .blockSequenceStart :: inside, .member => do
        let (entries, after) ← readEntries handles fuel inside
        return (.sequence anchor tag entries, after)
      | .blockMappingStart :: inside, .block | .blockMappingStart :: inside, .member => do
        let (entries, after) ← readMembers handles fuel inside
        return (.mapping anchor tag entries, after)
      | _, _ =>
        if anchor.isSome || tag.isSome then return (.scalar anchor tag "" true, rest) else none

/-- Read the entries of a block. -/
def readEntries (handles : Handles) : Nat → List Token → Option (List NamedNode × List Token)
  | 0, _ => none
  | fuel + 1, tokens =>
    match tokens with
    | .blockEnd :: rest => some ([], rest)
    | .blockEntry :: rest => do
      let (first, rest) ←
        if endsEntry rest then pure (empty, rest) else readNode handles fuel .block rest
      let (others, rest) ← readEntries handles fuel rest
      return (first :: others, rest)
    | _ => none

/-- Read entries that are not indented. -/
def readFlatEntries (handles : Handles) : Nat → List Token → Option (List NamedNode × List Token)
  | 0, _ => none
  | fuel + 1, tokens =>
    match tokens with
    | .blockEntry :: rest => do
      let (first, rest) ←
        if endsFlatEntry rest then pure (empty, rest) else readNode handles fuel .block rest
      let (others, rest) ← readFlatEntries handles fuel rest
      return (first :: others, rest)
    | rest => some ([], rest)

/-- Read the keys and values of a block. -/
def readMembers (handles : Handles) :
    Nat → List Token → Option (List (NamedNode × NamedNode) × List Token)
  | 0, _ => none
  | fuel + 1, tokens =>
    match tokens with
    | .blockEnd :: rest => some ([], rest)
    | .key :: rest => do
      let (key, rest) ←
        if endsMember rest then pure (empty, rest) else readNode handles fuel .member rest
      let (value, rest) ← readMemberValue handles fuel rest
      let (others, rest) ← readMembers handles fuel rest
      return ((key, value) :: others, rest)
    | _ => none

/-- Read the value of a key of a block. -/
def readMemberValue (handles : Handles) : Nat → List Token → Option (NamedNode × List Token)
  | 0, _ => none
  | fuel + 1, tokens =>
    match tokens with
    | .value :: rest =>
      if endsMember rest then some (empty, rest) else readNode handles fuel .member rest
    | rest => some (empty, rest)

/-- Read entries inside brackets. Every entry but the first follows a comma, and a
key makes an entry that is a mapping of that key alone. -/
def readFlowEntries (handles : Handles) :
    Nat → Bool → List Token → Option (List NamedNode × List Token)
  | 0, _, _ => none
  | fuel + 1, isFirst, tokens =>
    match isFirst, tokens with
    | _, .flowSequenceEnd :: rest => some ([], rest)
    | false, .flowEntry :: rest => readFlowEntry handles fuel rest
    | true, rest => readFlowEntry handles fuel rest
    | false, _ => none

/-- Read one entry inside brackets and those after it. -/
def readFlowEntry (handles : Handles) : Nat → List Token → Option (List NamedNode × List Token)
  | 0, _ => none
  | fuel + 1, tokens =>
    match tokens with
    | .flowSequenceEnd :: rest => some ([], rest)
    | .key :: rest => do
      let (key, rest) ←
        if endsFlowKey .flowSequenceEnd rest then pure (empty, rest.drop 1)
        else readNode handles fuel .flow rest
      let (value, rest) ← readFlowValue handles fuel .flowSequenceEnd rest
      let (others, rest) ← readFlowEntries handles fuel false rest
      return (.mapping none none [(key, value)] :: others, rest)
    | rest => do
      let (first, rest) ← readNode handles fuel .flow rest
      let (others, rest) ← readFlowEntries handles fuel false rest
      return (first :: others, rest)

/-- Read the value of a key inside brackets. -/
def readFlowValue (handles : Handles) : Nat → Token → List Token → Option (NamedNode × List Token)
  | 0, _, _ => none
  | fuel + 1, close, tokens =>
    match tokens with
    | .value :: rest =>
      if endsFlowValue close rest then some (empty, rest) else readNode handles fuel .flow rest
    | rest => some (empty, rest)

/-- Read keys and values inside braces. All but the first follow a comma. -/
def readFlowMembers (handles : Handles) : Nat → Bool → List Token →
    Option (List (NamedNode × NamedNode) × List Token)
  | 0, _, _ => none
  | fuel + 1, isFirst, tokens =>
    match isFirst, tokens with
    | _, .flowMappingEnd :: rest => some ([], rest)
    | false, .flowEntry :: rest => readFlowMember handles fuel rest
    | true, rest => readFlowMember handles fuel rest
    | false, _ => none

/-- Read one key with its value inside braces and those after it. What is not
marked as a key is a key without a value. -/
def readFlowMember (handles : Handles) :
    Nat → List Token → Option (List (NamedNode × NamedNode) × List Token)
  | 0, _ => none
  | fuel + 1, tokens =>
    match tokens with
    | .flowMappingEnd :: rest => some ([], rest)
    | .key :: rest => do
      let (key, rest) ←
        if endsFlowKey .flowMappingEnd rest then pure (empty, rest)
        else readNode handles fuel .flow rest
      let (value, rest) ← readFlowValue handles fuel .flowMappingEnd rest
      let (others, rest) ← readFlowMembers handles fuel false rest
      return ((key, value) :: others, rest)
    | rest => do
      let (key, rest) ← readNode handles fuel .flow rest
      let (others, rest) ← readFlowMembers handles fuel false rest
      return ((key, empty) :: others, rest)

end

/-! ### Documents -/

/-- The handles that every document knows. -/
def defaultHandles : Handles := [(['!'], [Tag.mark]), (['!', '!'], Tag.standardStem)]

/-- The directives in front of a document. -/
structure Directives where
  /-- Whether a version has been named. -/
  version : Bool
  /-- The handles that were given. -/
  handles : Handles

/-- Read directives. A version is named once and is 1.1 or 1.2, and no handle is
given twice. -/
def readDirectives : Directives → List Token → Option (Directives × List Token)
  | d, .version major minor :: rest =>
    if d.version || major ≠ 1 || (minor ≠ 1 && minor ≠ 2) then none
    else readDirectives { d with version := true } rest
  | d, .handle handle stem :: rest =>
    if (d.handles.lookup handle).isSome then none
    else readDirectives { d with handles := (handle, stem) :: d.handles } rest
  | d, rest => some (d, rest)

/-- Whether tokens start with a directive or with the mark of a document. -/
def startsExplicitly : List Token → Bool
  | .version _ _ :: _ | .handle _ _ :: _ | .documentStart :: _ => true
  | _ => false

/-- Whether an explicit document has no content. -/
def hasNoContent : List Token → Bool
  | [] => true
  | .documentEnd :: _ => true
  | tokens => startsExplicitly tokens

/-- A bound on the steps that reading tokens takes. -/
def steps (tokens : List Token) : Nat := 8 * tokens.length + 16

/-- Skip the marks that end a document. -/
def skipEnds (tokens : List Token) : List Token := tokens.dropWhile (· = .documentEnd)

/-- The node of a text that holds one document; none when the text holds nothing
at all. -/
def ofTokens? (tokens : List Token) : Option (Option NamedNode) := do
  let (node, rest) ← match tokens with
    | [] => pure (none, [])
    | _ =>
      if startsExplicitly tokens then do
        let (d, afterDirectives) ← readDirectives ⟨false, []⟩ tokens
        match afterDirectives with
        | .documentStart :: content =>
          if hasNoContent content then pure (some empty, content)
          else do
            let (node, rest) ← readNode (d.handles ++ defaultHandles) (steps content) .block content
            pure (some node, rest)
        | _ => none
      else do
        let (node, rest) ← readNode defaultHandles (steps tokens) .block tokens
        pure (some node, rest)
  if (skipEnds rest).isEmpty then return node else none

end Node

end TypedClient.Yaml
