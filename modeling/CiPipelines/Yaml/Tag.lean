import CiPipelines.Yaml.Cursor

/-!
# Tags, anchors and directives

A tag is written in full as `!<…>`, or as a handle (`!`, `!!` or `!word!`) followed by a suffix.
Both parts are URI characters, among them escapes `%XX` for the octets of a UTF-8 sequence.
Anchors and directive names are words.
-/

namespace CiPipelines
namespace Yaml

/-- The text of a tag.  Escaped octets that are no valid UTF-8 leave it not well formed. -/
structure Uri where
  text : List Char
  wellFormed : Bool
  deriving DecidableEq, Repr

namespace Uri

/-- A text without escapes. -/
def ofText (text : List Char) : Uri := ⟨text, true⟩

/-- One text after the other. -/
def append (a b : Uri) : Uri :=
  ⟨a.text ++ b.text, a.wellFormed && b.wellFormed⟩

/-- Adds a character. -/
def push (u : Uri) (c : Char) : Uri :=
  { u with text := u.text ++ [c] }

/-- Adds the character that a UTF-8 sequence of `width` octets encodes. -/
def pushCode (u : Uri) (width code : Nat) : Uri :=
  let least := match width with
    | 1 => 0
    | 2 => 0x80
    | 3 => 0x800
    | _ => 0x10000
  if least ≤ code && code.isValidChar then u.push (Char.ofNat code)
  else { u with wellFormed := false }

end Uri

/-- A character that may stand in a tag; in a tag written in full also some flow indicators. -/
def isUriChar (full : Bool) (c : Char) : Bool :=
  isWordChar c || ";/?:@&=+$.!~*'()".toList.contains c
    || (full && (c == ',' || c == '[' || c == ']'))

/-- A UTF-8 sequence that has been begun: its width, the octets still to come, and the bits so
far. -/
structure Octets where
  width : Nat
  missing : Nat
  code : Nat
  deriving DecidableEq, Repr

/-- The sequence that an octet begins. -/
def Octets.begin? (octet : Nat) : Option Octets :=
  if octet < 0x80 then some ⟨1, 0, octet⟩
  else if 0xC0 ≤ octet && octet < 0xE0 then some ⟨2, 1, octet - 0xC0⟩
  else if 0xE0 ≤ octet && octet < 0xF0 then some ⟨3, 2, octet - 0xE0⟩
  else if 0xF0 ≤ octet && octet < 0xF8 then some ⟨4, 3, octet - 0xF0⟩
  else none

/-- Continues a sequence, or begins one. -/
def Octets.next? (pending : Option Octets) (octet : Nat) : Option Octets :=
  match pending with
  | none => Octets.begin? octet
  | some o =>
    if 0x80 ≤ octet && octet < 0xC0 then
      some ⟨o.width, o.missing - 1, 64 * o.code + (octet - 0x80)⟩
    else none

/-- Reads URI characters as far as they go. -/
def readUri (full : Bool) (read : Uri) (pending : Option Octets) (place : Place) :
    List Char → Option (Uri × Cursor)
  | '%' :: d₁ :: d₂ :: rest =>
    match Text.hexNumber? [d₁, d₂] with
    | none => none
    | some octet =>
      match Octets.next? pending octet with
      | none => none
      | some o =>
        if o.missing = 0 then
          readUri full (read.pushCode o.width o.code) none (place.forward 3) rest
        else readUri full read (some o) (place.forward 3) rest
  | text =>
    match pending, text with
    | some _, _ => none
    | none, c :: rest =>
      if isUriChar full c then readUri full (read.push c) none (place.forward 1) rest
      else if c == '%' then none
      else some (read, ⟨c :: rest, place⟩)
    | none, [] => some (read, ⟨[], place⟩)

/-- Reads URI characters at the cursor. -/
def Cursor.uri? (c : Cursor) (full : Bool) : Option (Uri × Cursor) :=
  readUri full (.ofText []) none c.place c.rest

/-- Reads a tag handle at the cursor: an exclamation mark, a word and perhaps a second mark. -/
def Cursor.handle? (c : Cursor) : Option (List Char × Cursor) :=
  match c.rest with
  | '!' :: _ =>
    let (word, next) := (c.skip 1).span isWordChar
    match next.rest with
    | '!' :: _ => some ('!' :: word ++ ['!'], next.skip 1)
    | _ => some ('!' :: word, next)
  | _ => none

/-- A tag as it is written.  The handle is empty for a tag that stands for itself. -/
structure TagWord where
  handle : List Char
  suffix : Uri
  deriving DecidableEq, Repr

/-- Reads the tag at the cursor.  White space must follow it, or in a flow collection a comma. -/
def Cursor.tag? (c : Cursor) (inFlow : Bool) : Option (TagWord × Cursor) := do
  let (word, next) ← match c.rest with
    | '!' :: '<' :: _ => do
      let (uri, next) ← (c.skip 2).uri? true
      guard (next.place.index != c.place.index + 2)
      match next.rest with
      | '>' :: _ => some ((⟨[], uri⟩ : TagWord), next.skip 1)
      | _ => none
    | _ => do
      let (handle, afterHandle) ← c.handle?
      let (uri, next) ← afterHandle.uri? false
      if handle.length ≥ 2 && handle.getLast? == some '!' then
        guard (next.place.index != afterHandle.place.index)
        some ((⟨handle, uri⟩ : TagWord), next)
      else
        let suffix := (Uri.ofText (handle.drop 1)).append uri
        if suffix == .ofText [] then some (⟨[], .ofText ['!']⟩, next)
        else some (⟨['!'], suffix⟩, next)
  guard (startsBlank next.rest || (inFlow && next.rest.head? == some ','))
  return (word, next)

/-- Reads the name of an anchor or alias after its indicator at the cursor. -/
def Cursor.anchorName? (c : Cursor) : Option (List Char × Cursor) := do
  let (name, next) := (c.skip 1).span isWordChar
  guard (!name.isEmpty)
  guard (startsBlank next.rest
    || next.rest.head?.any fun d => "?:,]\x7d%@\x60".toList.contains d)
  return (name, next)

/-- A line that starts with a percent sign. -/
inductive Directive where
  | version (major minor : Nat)
  | tag (handle : List Char) (expansion : Uri)
  deriving DecidableEq, Repr

/-- Reads a number of at most nine digits. -/
def Cursor.versionNumber? (c : Cursor) : Option (Nat × Cursor) := do
  let (digits, next) := c.span Char.isDigit
  guard (!digits.isEmpty && digits.length ≤ 9)
  return (digits.foldl (fun n d => 10 * n + (d.toNat - '0'.toNat)) 0, next)

/-- Reads the directive whose percent sign is at the cursor, with the line it stands on. -/
def Cursor.directive? (c : Cursor) : Option (Directive × Cursor) := do
  let (name, afterName) := (c.skip 1).span isWordChar
  guard (startsBlank afterName.rest)
  let value := afterName.skipBlanks
  let (directive, next) ←
    if name == "YAML".toList then do
      let (major, afterMajor) ← value.versionNumber?
      guard (afterMajor.rest.head? == some '.')
      let (minor, next) ← (afterMajor.skip 1).versionNumber?
      some (Directive.version major minor, next)
    else if name == "TAG".toList then do
      let (handle, afterHandle) ← value.handle?
      guard (handle == ['!'] || handle.getLast? == some '!')
      guard (afterHandle.rest.head?.any isBlank)
      let start := afterHandle.skipBlanks
      let (uri, next) ← start.uri? true
      guard (next.place.index != start.place.index)
      guard (startsBlank next.rest)
      some (Directive.tag handle uri, next)
    else none
  let lineEnd := next.skipBlanks.skipComment
  guard (startsBreak lineEnd.rest)
  return (directive, lineEnd.skipBreak)

end Yaml
end CiPipelines
