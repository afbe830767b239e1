import CiPipelines.Yaml.Tree
import CiPipelines.Yaml.TokenReader

/-!
# From tokens to syntax trees

The reader goes down the grammar of YAML.  Each part takes the tokens still to come and gives
its node and the tokens after it.  Every part but an empty node takes at least one token, which
bounds the depth of the calls by a multiple of the number of tokens.
-/

namespace CiPipelines
namespace Yaml

/-- What each tag handle stands for. -/
abbrev Handles := List (List Char × Uri)

/-- The handles of every document. -/
def defaultHandles : Handles :=
  [(['!'], .ofText ['!']), (['!', '!'], .ofText "tag:yaml.org,2002:".toList)]

/-- The tag that a tag word stands for, if its handle is known. -/
def TagWord.expand? (word : TagWord) (handles : Handles) : Option Uri :=
  if word.handle.isEmpty then some word.suffix
  else (handles.lookup word.handle).map fun expansion => expansion.append word.suffix

/-- Reads an anchor and a tag, in either order. -/
def readProperties? (handles : Handles) :
    List Token → Option (Properties String × List Token)
  | .anchor name :: .tag word :: rest => do
    return (⟨some name, some (← word.expand? handles)⟩, rest)
  | .tag word :: .anchor name :: rest => do
    return (⟨some name, some (← word.expand? handles)⟩, rest)
  | .anchor name :: rest => some (⟨some name, none⟩, rest)
  | .tag word :: rest => do
    return (⟨none, some (← word.expand? handles)⟩, rest)
  | rest => some (.none, rest)

/-- A scalar node.  The tag `!` says only that the scalar is no null, boolean or number unless it
is plain, so it is dropped. -/
def scalarNode (properties : Properties String) (style : Style) (text : String) : Tree String :=
  let tag := if properties.tag == some (.ofText ['!']) then none else properties.tag
  .scalar { properties with tag } style text

/-- A node with properties and nothing else. -/
def emptyNode? (properties : Properties String) (rest : List Token) :
    Option (Tree String × List Token) :=
  if properties == .none then none else some (.scalar properties .plain "", rest)

/-- Whether an entry of a block mapping ends before its node. -/
def endsBlockEntry : List Token → Bool
  | .key :: _ | .value :: _ | .blockEnd :: _ => true
  | _ => false

/-- Whether an item of a block sequence ends before its node. -/
def endsBlockItem : List Token → Bool
  | .dash :: _ | .blockEnd :: _ => true
  | _ => false

/-- Whether an item of a sequence without a block of its own ends before its node. -/
def endsOpenItem : List Token → Bool
  | .dash :: _ | .key :: _ | .value :: _ | .blockEnd :: _ => true
  | _ => false

/-- Whether a value in a flow sequence ends before its node. -/
def endsFlowItem : List Token → Bool
  | .comma :: _ | .closeSequence :: _ => true
  | _ => false

/-- Whether a value in a flow mapping ends before its node. -/
def endsFlowEntry : List Token → Bool
  | .comma :: _ | .closeMapping :: _ => true
  | _ => false

/-- Skips the comma in front of an item, which only the first one lacks. -/
def skipComma? (first : Bool) (ts : List Token) : Option (List Token) :=
  if first then some ts
  else match ts with
    | .comma :: rest => some rest
    | _ => none

mutual

/-- Reads a node.  Block collections are read only if `inBlock`, and a sequence that opens no block
of its own only if `openItems`. -/
def readNode (handles : Handles) (inBlock openItems : Bool) :
    Nat → List Token → Option (Tree String × List Token)
  | 0, _ => none
  | _ + 1, .alias name :: rest => some (.alias name, rest)
  | fuel + 1, ts => do
    let (properties, ts) ← readProperties? handles ts
    match ts with
    | .scalar style text :: rest => some (scalarNode properties style text, rest)
    | .openSequence :: rest => do
      let (items, rest) ← readFlowItems handles true fuel rest
      return (.sequence properties items, rest)
    | .openMapping :: rest => do
      let (entries, rest) ← readFlowEntries handles true fuel rest
      return (.mapping properties entries, rest)
    | .blockSequence :: rest =>
      if inBlock then do
        let (items, rest) ← readBlockItems handles fuel rest
        return (.sequence properties items, rest)
      else emptyNode? properties ts
    | .blockMapping :: rest =>
      if inBlock then do
        let (entries, rest) ← readBlockEntries handles fuel rest
        return (.mapping properties entries, rest)
      else emptyNode? properties ts
    | .dash :: _ =>
      if openItems then do
        let (items, rest) ← readOpenItems handles fuel ts
        return (.sequence properties items, rest)
      else emptyNode? properties ts
    | _ => emptyNode? properties ts

/-- Reads the items of a block sequence and its end. -/
def readBlockItems (handles : Handles) :
    Nat → List Token → Option (List (Tree String) × List Token)
  | 0, _ => none
  | fuel + 1, ts =>
    match ts with
    | .blockEnd :: rest => some ([], rest)
    | .dash :: rest => do
      let (item, rest) ←
        if endsBlockItem rest then some (.empty, rest)
        else readNode handles true false fuel rest
      let (items, rest) ← readBlockItems handles fuel rest
      return (item :: items, rest)
    | _ => none

/-- Reads the items of a sequence that stands at the margin of a block mapping. -/
def readOpenItems (handles : Handles) :
    Nat → List Token → Option (List (Tree String) × List Token)
  | 0, _ => none
  | fuel + 1, ts =>
    match ts with
    | .dash :: rest => do
      let (item, rest) ←
        if endsOpenItem rest then some (.empty, rest)
        else readNode handles true false fuel rest
      let (items, rest) ← readOpenItems handles fuel rest
      return (item :: items, rest)
    | _ => some ([], ts)

/-- Reads the entries of a block mapping and its end. -/
def readBlockEntries (handles : Handles) :
    Nat → List Token → Option (List (Tree String × Tree String) × List Token)
  | 0, _ => none
  | fuel + 1, ts =>
    match ts with
    | .blockEnd :: rest => some ([], rest)
    | .key :: rest => do
      let (key, rest) ←
        if endsBlockEntry rest then some (.empty, rest)
        else readNode handles true true fuel rest
      let (value, rest) ← match rest with
        | .value :: rest =>
          if endsBlockEntry rest then some (.empty, rest)
          else readNode handles true true fuel rest
        | _ => some (.empty, rest)
      let (entries, rest) ← readBlockEntries handles fuel rest
      return ((key, value) :: entries, rest)
    | _ => none

/-- Reads the items of a flow sequence and its closing bracket.  An item may be a single entry of
a mapping; if its question mark is followed by no key, the token that comes next is part of the
question mark. -/
def readFlowItems (handles : Handles) (first : Bool) :
    Nat → List Token → Option (List (Tree String) × List Token)
  | 0, _ => none
  | fuel + 1, ts =>
    match ts with
    | .closeSequence :: rest => some ([], rest)
    | _ => do
      let ts ← skipComma? first ts
      match ts with
      | .closeSequence :: rest => some ([], rest)
      | .key :: rest => do
        -- The token behind a question mark without a key is taken along with it.
        let (key, rest) ← match rest with
          | .value :: rest | .comma :: rest | .closeSequence :: rest => some (.empty, rest)
          | _ => readNode handles false false fuel rest
        let (value, rest) ← match rest with
          | .value :: rest =>
            if endsFlowItem rest then some (.empty, rest)
            else readNode handles false false fuel rest
          | _ => some (.empty, rest)
        let (items, rest) ← readFlowItems handles false fuel rest
        return (.mapping .none [(key, value)] :: items, rest)
      | _ => do
        let (item, rest) ← readNode handles false false fuel ts
        let (items, rest) ← readFlowItems handles false fuel rest
        return (item :: items, rest)

/-- Reads the entries of a flow mapping and its closing bracket. -/
def readFlowEntries (handles : Handles) (first : Bool) :
    Nat → List Token → Option (List (Tree String × Tree String) × List Token)
  | 0, _ => none
  | fuel + 1, ts =>
    match ts with
    | .closeMapping :: rest => some ([], rest)
    | _ => do
      let ts ← skipComma? first ts
      match ts with
      | .closeMapping :: rest => some ([], rest)
      | .key :: rest => do
        let (key, rest) ←
          if endsFlowEntry rest || rest.head? == some .value then some (.empty, rest)
          else readNode handles false false fuel rest
        let (value, rest) ← match rest with
          | .value :: rest =>
            if endsFlowEntry rest then some (.empty, rest)
            else readNode handles false false fuel rest
          | _ => some (.empty, rest)
        let (entries, rest) ← readFlowEntries handles false fuel rest
        return ((key, value) :: entries, rest)
      | _ => do
        let (key, rest) ← readNode handles false false fuel ts
        let (entries, rest) ← readFlowEntries handles false fuel rest
        return ((key, .empty) :: entries, rest)

end

/-- Reads the directives in front of a document.  A version is given at most once and is 1.1 or
1.2; no handle is given twice, but the two default ones may be given anew. -/
def readDirectives? (versioned : Bool) (handles : Handles) :
    List Token → Option (Handles × List Token)
  | .directive (.version major minor) :: rest =>
    if versioned || major != 1 || !(minor == 1 || minor == 2) then none
    else readDirectives? true handles rest
  | .directive (.tag handle expansion) :: rest =>
    if (handles.lookup handle).isSome then none
    else readDirectives? versioned ((handle, expansion) :: handles) rest
  | rest => some (handles ++ defaultHandles, rest)

/-- Whether an explicit document has no content. -/
def endsDocument : List Token → Bool
  | [] | .directive _ :: _ | .documentStart :: _ | .documentEnd :: _ => true
  | _ => false

/-- Whether a document starts with directives or a document mark. -/
def startsDocument : List Token → Bool
  | .directive _ :: _ | .documentStart :: _ => true
  | _ => false

/-- Reads a stream of at most one document; `some none` when there is no document. -/
def readStream? (ts : List Token) : Option (Option (Tree String)) := do
  let fuel := 3 * ts.length + 3
  if ts.isEmpty then some none
  else
    let (root, rest) ←
      if startsDocument ts then do
        let (handles, rest) ← readDirectives? false [] ts
        match rest with
        | .documentStart :: rest =>
          if endsDocument rest then some (.empty, rest)
          else readNode handles true false fuel rest
        | _ => none
      else readNode defaultHandles true false fuel ts
    -- Anything but end marks behind the root would be a second document.
    if rest.all (· == .documentEnd) then some (some root) else none

end Yaml
end CiPipelines
