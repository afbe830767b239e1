import CiPipelines.Json.Quote
import CiPipelines.Json.Value
import CiPipelines.Text.Hex

/-!
# Reading JSON

Each part of the reader takes the characters still to come and gives what it read and the
characters after it.  A whole text is one value with white space around it.
-/

namespace CiPipelines
namespace Json

/-- White space of JSON. -/
def isSpace (c : Char) : Bool := c == ' ' || c == '\n' || c == '\t' || c == '\r'

/-- Skips white space. -/
def skipSpace (text : List Char) : List Char := text.dropWhile isSpace

/-- The character of a one-letter escape. -/
def escaped? : Char → Option Char
  | '"' => some '"'
  | '\\' => some '\\'
  | '/' => some '/'
  | 'b' => some '\x08'
  | 'f' => some '\x0c'
  | 'n' => some '\n'
  | 'r' => some '\r'
  | 't' => some '\t'
  | _ => none

/-- What has been read of a string: its characters, last first, unless there is half of a
surrogate pair. -/
abbrev Chars := Option (List Char)

/-- Adds the character of an escape with four digits.  `high` is the first half of a pair that
stands right in front of it. -/
def addUnit (read : Chars) (high : Option Nat) (unit : Nat) : Chars × Option Nat :=
  match high with
  | some h =>
    if 0xDC00 ≤ unit && unit ≤ 0xDFFF then
      (read.map (Char.ofNat (0x10000 + 0x400 * (h - 0xD800) + (unit - 0xDC00)) :: ·), none)
    else (none, none)
  | none =>
    if 0xD800 ≤ unit && unit ≤ 0xDBFF then (read, some unit)
    else if 0xDC00 ≤ unit && unit ≤ 0xDFFF then (none, none)
    else (read.map (Char.ofNat unit :: ·), none)

/-- Adds a character; the first half of a pair must not stand in front of it. -/
def addChar (read : Chars) (high : Option Nat) (c : Char) : Chars :=
  if high.isSome then none else read.map (c :: ·)

/-- Reads a string after its opening quote; fails at a control character, an unknown escape and the
end of the text. -/
def readString (read : Chars) (high : Option Nat) :
    List Char → Option (Option String × List Char)
  | [] => none
  | '"' :: rest =>
    some (if high.isSome then none else read.map fun cs => String.ofList cs.reverse, rest)
  | '\\' :: 'u' :: a :: b :: c :: d :: rest =>
    match Text.hexNumber? [a, b, c, d] with
    | some unit =>
      let (read, high) := addUnit read high unit
      readString read high rest
    | none => none
  | '\\' :: e :: rest =>
    match escaped? e with
    | some c => readString (addChar read high c) none rest
    | none => none
  | c :: rest =>
    if c == '\\' || c.toNat < 0x20 then none else readString (addChar read high c) none rest

/-- The number that some digits denote. -/
def digitsValue (digits : List Char) : Nat :=
  digits.foldl (fun n c => 10 * n + (c.toNat - '0'.toNat)) 0

/-- Reads digits, at least one. -/
def digits? (text : List Char) : Option (List Char × List Char) :=
  let run := text.takeWhile Char.isDigit
  if run.isEmpty then none else some (run, text.drop run.length)

/-- Reads the digits after a point, if there is one. -/
def fraction? : List Char → Option (List Char × List Char)
  | '.' :: rest => digits? rest
  | text => some ([], text)

/-- Reads an exponent, if there is one. -/
def exponent? : List Char → Option (Option Int × List Char)
  | e :: rest =>
    if e == 'e' || e == 'E' then
      let (negative, rest) := match rest with
        | '-' :: more => (true, more)
        | '+' :: more => (false, more)
        | _ => (false, rest)
      (digits? rest).map fun (digits, rest) =>
        let n : Int := digitsValue digits
        (some (if negative then -n else n), rest)
    else some (none, e :: rest)
  | [] => some (none, [])

/-- Reads a number.  No zero stands in front of another digit. -/
def number? (text : List Char) : Option (Number × List Char) := do
  let (negative, text) := match text with
    | '-' :: rest => (true, rest)
    | _ => (false, text)
  let (whole, rest) ← digits? text
  if whole.head? == some '0' && whole.length > 1 then none
  else do
    let (fraction, rest) ← fraction? rest
    let (exponent, rest) ← exponent? rest
    let isNatural := !negative && fraction.isEmpty && exponent.isNone
    return (⟨negative, digitsValue (whole ++ fraction), exponent.getD 0 - fraction.length,
      isNatural⟩, rest)

mutual

/-- Reads a value. -/
def readValue : Nat → List Char → Option (Json × List Char)
  | 0, _ => none
  | fuel + 1, text =>
    match skipSpace text with
    | 'n' :: 'u' :: 'l' :: 'l' :: rest => some (.null, rest)
    | 't' :: 'r' :: 'u' :: 'e' :: rest => some (.bool true, rest)
    | 'f' :: 'a' :: 'l' :: 's' :: 'e' :: rest => some (.bool false, rest)
    | '"' :: rest => (readString (some []) none rest).map fun (s, rest) => (.string s, rest)
    | '[' :: rest => do
      let (items, rest) ← readItems true fuel rest
      return (.array items, rest)
    | '\x7b' :: rest => do
      let (entries, rest) ← readEntries true fuel rest
      return (.object entries, rest)
    | text => (number? text).map fun (n, rest) => (.number n, rest)

/-- Reads the items of an array and its end. -/
def readItems (first : Bool) : Nat → List Char → Option (List Json × List Char)
  | 0, _ => none
  | fuel + 1, text =>
    match first, skipSpace text with
    | true, ']' :: rest => some ([], rest)
    | _, text => do
      let (item, rest) ← readValue fuel text
      match skipSpace rest with
      | ',' :: rest => do
        let (items, rest) ← readItems false fuel rest
        return (item :: items, rest)
      | ']' :: rest => some ([item], rest)
      | _ => none

/-- Reads the entries of an object and its end. -/
def readEntries (first : Bool) :
    Nat → List Char → Option (List (Option String × Json) × List Char)
  | 0, _ => none
  | fuel + 1, text =>
    match first, skipSpace text with
    | true, '\x7d' :: rest => some ([], rest)
    | _, '"' :: rest => do
      let (key, rest) ← readString (some []) none rest
      match skipSpace rest with
      | ':' :: rest => do
        let (value, rest) ← readValue fuel rest
        match skipSpace rest with
        | ',' :: rest => do
          let (entries, rest) ← readEntries false fuel rest
          return ((key, value) :: entries, rest)
        | '\x7d' :: rest => some ([(key, value)], rest)
        | _ => none
      | _ => none
    | _, _ => none

end

/-- The value that a text denotes. -/
def ofText? (text : List Char) : Option Json := do
  let (value, rest) ← readValue (2 * text.length + 2) text
  if (skipSpace rest).isEmpty then some value else none

end Json
end CiPipelines
