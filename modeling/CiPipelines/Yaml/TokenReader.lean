import CiPipelines.Yaml.TokenLog
import CiPipelines.Yaml.PlainScalar
import CiPipelines.Yaml.QuotedScalar
import CiPipelines.Yaml.BlockScalar

/-!
# From text to tokens

Tokens are read from left to right.  A scalar, alias, tag, anchor or flow collection may turn
out to be a mapping key, which is known only at the colon that follows.  Until then it is a
*pending key*: where it stands among the tokens is remembered, and at the colon a `key` token is
put in front of it.  A pending key must be on the line of its colon and within 1024 characters
of it.

Each block collection has a *margin*, one more than the column of its entries: the least column
of the text inside an entry.  A token left of the margin ends the collection.
-/

namespace CiPipelines
namespace Yaml

/-- A token, or flow collection, that may still become a mapping key. -/
structure PendingKey where
  /-- How many tokens stand in front of it. -/
  position : Nat
  /-- Whether it stands where the block mapping around it needs a key. -/
  required : Bool
  place : Place
  deriving DecidableEq, Repr

/-- How far a text has been read. -/
structure Scan where
  cursor : Cursor
  /-- The tokens so far. -/
  log : TokenLog
  /-- The margins of the open block collections, innermost first. -/
  margins : List Nat
  /-- Whether a mapping key may start here. -/
  keyAllowed : Bool
  pending : Option PendingKey
  /-- The pending keys outside the innermost flow collection, one for each open one. -/
  outerPending : List (Option PendingKey)
  deriving DecidableEq, Repr

namespace Scan

/-- Nothing read yet. -/
def start (text : List Char) : Scan :=
  ⟨⟨text, .start⟩, .empty, [], true, none, []⟩

/-- True inside a flow collection. -/
def inFlow (s : Scan) : Bool :=
  !s.outerPending.isEmpty

/-- The least column of text in the innermost block entry. -/
def margin (s : Scan) : Nat :=
  s.margins.headD 0

/-- The column of the next character. -/
def column (s : Scan) : Nat :=
  s.cursor.place.column

/-- Adds a token whose text is one character. -/
def emitChar (s : Scan) (t : Token) : Scan :=
  { s with log := s.log.push t, cursor := s.cursor.skip 1 }

/-- Skips white space, line breaks and comments.  A tab counts as white space only where no block
entry may start; after a line break in a block a key may start. -/
def skipBlank (inFlow keyAllowed inComment : Bool) (place : Place) :
    List Char → Cursor × Bool
  | [] => (⟨[], place⟩, keyAllowed)
  | '\r' :: '\n' :: rest =>
    skipBlank inFlow (keyAllowed || !inFlow) false (place.newLine 2) rest
  | c :: rest =>
    if isBreak c then skipBlank inFlow (keyAllowed || !inFlow) false (place.newLine 1) rest
    else if inComment || c == ' ' || (c == '\t' && (inFlow || !keyAllowed)) then
      skipBlank inFlow keyAllowed inComment (place.forward 1) rest
    else if c == '#' then skipBlank inFlow keyAllowed true (place.forward 1) rest
    else (⟨c :: rest, place⟩, keyAllowed)

/-- Moves to the next token.  A byte order mark at the very start is skipped, but it takes up a
column, so that the rest of its line counts as indented. -/
def toToken (s : Scan) : Scan :=
  let here := match s.cursor.rest with
    | '\ufeff' :: _ => if s.cursor.place.index = 0 then s.cursor.skip 1 else s.cursor
    | _ => s.cursor
  let (cursor, keyAllowed) := skipBlank s.inFlow s.keyAllowed false here.place here.rest
  { s with cursor, keyAllowed }

/-- Gives up a pending key that is too far away.  A required one must not be given up. -/
def keepNear (place : Place) : Option PendingKey → Option (Option PendingKey)
  | none => some none
  | some k =>
    if k.place.line < place.line || k.place.index + 1024 < place.index then
      if k.required then none else some none
    else some (some k)

/-- Gives up all pending keys that are too far away. -/
def dropFarKeys (s : Scan) : Option Scan := do
  let pending ← keepNear s.cursor.place s.pending
  let outerPending ← s.outerPending.mapM (keepNear s.cursor.place)
  return { s with pending, outerPending }

/-- Gives up the pending key of the innermost collection. -/
def dropKey (s : Scan) : Option Scan :=
  if s.pending.any (·.required) then none else some { s with pending := none }

/-- Notes that the next token may become a key, if one may start here. -/
def noteKey (s : Scan) : Option Scan :=
  if s.keyAllowed then do
    let s ← s.dropKey
    return { s with
      pending := some
        ⟨s.log.size, !s.inFlow && s.margin == s.column + 1, s.cursor.place⟩ }
  else some s

/-- Ends the block collections whose margin is beyond `limit`; none ends in a flow collection. -/
def closeBlocks (s : Scan) (limit : Nat) : Scan :=
  if s.inFlow then s
  else
    let closed := s.margins.takeWhile (limit < ·)
    { s with
      margins := s.margins.drop closed.length
      log := s.log.pushAll (List.replicate closed.length .blockEnd) }

/-- Whether a token at `column` lies right of the entries of the innermost block collection, and
so opens a new one. -/
def opensBlock (s : Scan) (column : Nat) : Bool :=
  !s.inFlow && s.margin ≤ column

/-- Opens a block collection for an entry at the next character, if there is none. -/
def openBlock (s : Scan) (t : Token) : Scan :=
  if s.opensBlock s.column then
    { s with margins := (s.column + 1) :: s.margins, log := s.log.push t }
  else s

/-- Opens a block collection where block entries are allowed. -/
def openBlock? (s : Scan) (t : Token) : Option Scan :=
  if s.inFlow then some s
  else if s.keyAllowed then some (s.openBlock t)
  else none

/-- Reads a bracket that opens a flow collection. -/
def openFlow (s : Scan) (t : Token) : Option Scan := do
  let s ← s.noteKey
  return { s.emitChar t with
    keyAllowed := true, pending := none, outerPending := s.pending :: s.outerPending }

/-- Reads a bracket that closes a flow collection. -/
def closeFlow (s : Scan) (t : Token) : Option Scan := do
  let s ← s.dropKey
  return { s.emitChar t with
    keyAllowed := false, pending := s.outerPending.headD none, outerPending := s.outerPending.tail }

/-- Reads a comma. -/
def readComma (s : Scan) : Option Scan := do
  let s ← s.dropKey
  return { s.emitChar .comma with keyAllowed := true }

/-- Reads the dash of a block entry. -/
def readDash (s : Scan) : Option Scan := do
  let s ← s.openBlock? .blockSequence
  let s ← s.dropKey
  return { s.emitChar .dash with keyAllowed := true }

/-- Reads a question mark in front of a key. -/
def readKey (s : Scan) : Option Scan := do
  let s ← s.openBlock? .blockMapping
  let s ← s.dropKey
  return { s.emitChar .key with keyAllowed := !s.inFlow }

/-- Reads the colon in front of a value.  If a key is pending, it becomes one. -/
def readValue (s : Scan) : Option Scan :=
  match s.pending with
  | some k =>
    let column := k.place.column
    -- A key to the right of the innermost block opens a mapping, which starts before the key.
    let s :=
      if s.opensBlock column then
        { s with
          log := s.log.insertAt k.position [.blockMapping, .key]
          margins := (column + 1) :: s.margins }
      else { s with log := s.log.insertAt k.position [.key] }
    some { s.emitChar .value with keyAllowed := false, pending := none }
  | none => do
    let s ← s.openBlock? .blockMapping
    return { s.emitChar .value with keyAllowed := !s.inFlow }

/-- Adds a token that has been read up to `next` and after which no key may start. -/
def emitTo (s : Scan) (t : Token) (next : Cursor) : Scan :=
  { s with log := s.log.push t, cursor := next, keyAllowed := false }

/-- Reads an alias. -/
def readAlias (s : Scan) : Option Scan := do
  let s ← s.noteKey
  let (name, next) ← s.cursor.anchorName?
  return s.emitTo (.alias (String.ofList name)) next

/-- Reads an anchor. -/
def readAnchor (s : Scan) : Option Scan := do
  let s ← s.noteKey
  let (name, next) ← s.cursor.anchorName?
  return s.emitTo (.anchor (String.ofList name)) next

/-- Reads a tag. -/
def readTag (s : Scan) : Option Scan := do
  let s ← s.noteKey
  let (word, next) ← s.cursor.tag? s.inFlow
  return s.emitTo (.tag word) next

/-- Reads a block scalar. -/
def readBlock (s : Scan) (style : Style) : Option Scan := do
  let s ← s.dropKey
  let (text, next) ← s.cursor.blockScalar? (style == .folded) s.margin
  return { s.emitTo (.scalar style (String.ofList text)) next with keyAllowed := true }

/-- Reads a quoted scalar. -/
def readQuoted (s : Scan) (style : Style) : Option Scan := do
  let s ← s.noteKey
  let (text, next) ←
    if style == .singleQuoted then s.cursor.singleQuoted? else s.cursor.doubleQuoted?
  return s.emitTo (.scalar style (String.ofList text)) next

/-- Reads a plain scalar.  If it was followed by a line break, a key may start after it. -/
def readPlainScalar (s : Scan) : Option Scan := do
  let s ← s.noteKey
  let scalar ← s.cursor.plainScalar? s.inFlow s.margin
  return { s.emitTo (.scalar .plain (String.ofList scalar.text)) scalar.next with
    keyAllowed := scalar.onNewLine }

/-- Reads a directive line, which ends all block collections. -/
def readDirective (s : Scan) : Option Scan := do
  let s ← (s.closeBlocks 0).dropKey
  let (d, next) ← s.cursor.directive?
  return s.emitTo (.directive d) next

/-- Reads a document mark, which ends all block collections. -/
def readDocumentMark (s : Scan) (t : Token) : Option Scan := do
  let s ← (s.closeBlocks 0).dropKey
  return s.emitTo t (s.cursor.skip 3)

/-- Reads the token that starts with `c`, followed by `rest`. -/
def readToken (s : Scan) (c : Char) (rest : List Char) : Option Scan :=
  if s.column == 0 && c == '%' then s.readDirective
  else if atDocumentMark s.column (c :: rest) then
    s.readDocumentMark (if c == '-' then .documentStart else .documentEnd)
  else if c == '[' then s.openFlow .openSequence
  else if c == '\x7b' then s.openFlow .openMapping
  else if c == ']' then s.closeFlow .closeSequence
  else if c == '\x7d' then s.closeFlow .closeMapping
  else if c == ',' then s.readComma
  else if c == '-' && startsBlank rest then s.readDash
  else if c == '?' && (s.inFlow || startsBlank rest) then s.readKey
  else if c == ':' && (s.inFlow || startsBlank rest) then s.readValue
  else if c == '*' then s.readAlias
  else if c == '&' then s.readAnchor
  else if c == '!' then s.readTag
  else if c == '|' && !s.inFlow then s.readBlock .literal
  else if c == '>' && !s.inFlow then s.readBlock .folded
  else if c == '\'' then s.readQuoted .singleQuoted
  else if c == '"' then s.readQuoted .doubleQuoted
  -- What is left of these three is followed by text and starts a plain scalar.
  else if c == '-' || c == '?' || c == ':' then s.readPlainScalar
  else if isBlank c || "#|>%@\x60".toList.contains c then none
  else s.readPlainScalar

/-- Ends the text: no key may be missing, and all block collections end. -/
def finish (s : Scan) : Option (List Token) := do
  let s ← (s.closeBlocks 0).dropKey
  return s.log.toList

/-- Reads the remaining tokens, with as many steps as are allowed. -/
def tokens? : Nat → Scan → Option (List Token)
  | 0, _ => none
  | steps + 1, s => do
    let s := (← s.toToken.dropFarKeys)
    -- A margin is one more than a column, so blocks at this very column stay open.
    let s := s.closeBlocks (s.column + 1)
    match s.cursor.rest with
    | [] => s.finish
    | c :: rest => tokens? steps (← s.readToken c rest)

end Scan

/-- The tokens of a text; nothing when it holds a character that YAML does not permit or is
broken otherwise.  Each token takes at least one character, so there are enough steps for all of
them. -/
def tokens? (text : List Char) : Option (List Token) :=
  if text.all isPermitted then Scan.tokens? (text.length + 1) (.start text) else none

end Yaml
end CiPipelines
