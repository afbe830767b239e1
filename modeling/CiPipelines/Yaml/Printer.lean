import CiPipelines.Stored.Record
import CiPipelines.Text.Hex
import CiPipelines.Yaml.Value

/-!
# Printing records as YAML

Fields of a nested record are indented by two spaces, and a list stands at the indentation of its
key.  A text of several lines is written as a literal block, a text that would read as something
else in single quotes, and any other text plain; where the form does not carry the text, quotes
take its place, at last double ones.
-/

namespace CiPipelines
namespace Yaml

/-- A character that is written as it is outside double quotes.  Tabs are not, nor are characters
of more than sixteen bits. -/
def isPrintable (c : Char) : Bool :=
  let n := c.toNat
  n == 0x0A || (0x20 ≤ n && n ≤ 0x7E) || (0xA0 ≤ n && n ≤ 0xFFFD && n != 0xFEFF)

/-- A character together with what stands right before and after it. -/
structure Spot where
  before : Option Char
  char : Char
  after : Option Char
  deriving DecidableEq, Repr

/-- The characters of a text, each with its neighbours. -/
def spots (before : Option Char) : List Char → List Spot
  | [] => []
  | c :: rest => ⟨before, c, rest.head?⟩ :: spots (some c) rest

/-- White space, a line break or no character at all. -/
def isGap (c : Option Char) : Bool := c.all fun c => isBlank c || isBreak c

/-- Whether a plain scalar must not hold the character here, outside flow collections. -/
def isIndicator (s : Spot) : Bool :=
  if s.before.isNone then
    "#,[]\x7b\x7d&*!|>'\"%@\x60".toList.contains s.char
      || ((s.char == '?' || s.char == ':' || s.char == '-') && isGap s.after)
  else (s.char == ':' && isGap s.after) || (s.char == '#' && isGap s.before)

/-- Whether a text starts like a document mark. -/
def startsLikeMark (text : List Char) : Bool :=
  ['-', '-', '-'].isPrefixOf text || ['.', '.', '.'].isPrefixOf text

/-- Whether a space stands before a line break. -/
def hasSpaceBreak (text : List Char) : Bool :=
  (spots none text).any fun s => isBreak s.char && s.before == some ' '

/-- Whether a space stands after a line break. -/
def hasBreakSpace (text : List Char) : Bool :=
  (spots none text).any fun s => s.char == ' ' && s.before.any isBreak

/-- Whether only double quotes carry the text. -/
def needsEscapes (text : List Char) : Bool :=
  hasSpaceBreak text || text.any fun c => !isPrintable c

/-- Whether a text can be written plain. -/
def fitsPlain (text : List Char) : Bool :=
  !needsEscapes text && !text.any isBreak && text.head? != some ' ' && text.getLast? != some ' '
    && !startsLikeMark text && !(spots none text).any isIndicator

/-- Whether a text can be written in single quotes. -/
def fitsSingle (text : List Char) : Bool :=
  !needsEscapes text && !hasBreakSpace text

/-- Whether a text can be written as a literal block. -/
def fitsLiteral (text : List Char) : Bool :=
  !needsEscapes text && text.getLast? != some ' '

/-- Whether a plain scalar would be no text, or digits that might be taken for a number. -/
def readsOtherwise (s : String) : Bool :=
  isPaddedDigits s.toList || match Value.ofPlain? s with
    | some (.text _) => false
    | _ => true

/-- The style in which a text is written. -/
def styleOf (s : String) : Style :=
  let text := s.toList
  -- A block is preferred for any text of several lines, whatever it would read as.
  if text.contains '\n' then (if fitsLiteral text then .literal else .doubleQuoted)
  else if !readsOtherwise s && fitsPlain text then .plain
  else if fitsSingle text then .singleQuoted
  else .doubleQuoted

/-- Text on lines of which each, but for the first, starts with the indentation.  A text that
starts on a new line needs it in front as well. -/
def indentLines (indent : Nat) (onNewLine : Bool) : List Char → List Char
  | [] => []
  | c :: rest =>
    if isBreak c then c :: indentLines indent true rest
    else if onNewLine then
      List.replicate indent ' ' ++ c :: indentLines indent false rest
    else c :: indentLines indent false rest

/-- A character between double quotes. -/
def escapeChar (c : Char) : List Char :=
  match c with
  | '\x00' => ['\\', '0']
  | '\x07' => ['\\', 'a']
  | '\x08' => ['\\', 'b']
  | '\t' => ['\\', 't']
  | '\n' => ['\\', 'n']
  | '\x0b' => ['\\', 'v']
  | '\x0c' => ['\\', 'f']
  | '\r' => ['\\', 'r']
  | '\x1b' => ['\\', 'e']
  | '"' => ['\\', '"']
  | '\\' => ['\\', '\\']
  | '\u0085' => ['\\', 'N']
  | '\u2028' => ['\\', 'L']
  | '\u2029' => ['\\', 'P']
  | c =>
    if isPrintable c then [c]
    else if c.toNat ≤ 0xFF then '\\' :: 'x' :: Text.hexText 'A' 2 c.toNat
    else if c.toNat ≤ 0xFFFF then '\\' :: 'u' :: Text.hexText 'A' 4 c.toNat
    else '\\' :: 'U' :: Text.hexText 'A' 8 c.toNat

/-- The indicators behind the bar of a literal block: its indentation if it starts with a space or
a line break, and what becomes of the line breaks at its end. -/
def literalHints (text : List Char) : List Char :=
  let indent := match text with
    | c :: _ => if c == ' ' || isBreak c then ['2'] else []
    | [] => []
  let chomping := match text.reverse with
    | [] => ['-']
    | last :: before =>
      if !isBreak last then ['-']
      else match before with
        | [] => ['+']
        | c :: _ => if isBreak c then ['+'] else []
  indent ++ chomping

/-- A text as a scalar whose further lines are indented by `indent`. -/
def scalarChars (indent : Nat) (s : String) : List Char :=
  let text := s.toList
  match styleOf s with
  | .singleQuoted =>
    '\'' :: indentLines indent false
      ((text.flatMap fun c => if c == '\'' then [c, c] else [c]) ++ ['\''])
  | .doubleQuoted => '"' :: text.flatMap escapeChar ++ ['"']
  | .literal | .folded =>
    '|' :: literalHints text ++ '\n' :: indentLines indent true text
  | .plain => text

/-- Ends the line, unless a block has ended it. -/
def endLine (chars : List Char) : List Char :=
  if chars.getLast?.any isBreak then chars else chars ++ ['\n']

/-- A text as a scalar, to the end of its last line. -/
def scalarLine (indent : Nat) (s : String) : String :=
  String.ofList (endLine (scalarChars indent s))

/-- The longest key, in bytes, that needs no question mark. -/
def maxSimpleKey : Nat := 128

/-- A key with its colon.  A long key, or one of several lines, stands on lines of its own. -/
def keyText (indent : Nat) (key : String) : String :=
  if key.toList.any isBreak || maxSimpleKey < key.utf8ByteSize then
    "? " ++ scalarLine (indent + 2) key ++ String.ofList (List.replicate indent ' ') ++ ":"
  else String.ofList (scalarChars (indent + 2) key) ++ ":"

mutual

/-- A record after a colon, in a record whose fields are indented by `indent`. -/
def printValue (indent : Nat) : Record → String
  | .text s => " " ++ scalarLine (indent + 2) s
  | .list [] => " []\n"
  | .list (item :: rest) => "\n" ++ printItems indent (item :: rest)
  | .fields [] => " \x7b\x7d\n"
  | .fields (e :: rest) =>
    "\n" ++ printFields (indent + 2) (List.replicate (indent + 2) ' ') (e :: rest)

/-- The items of a list whose dashes are indented by `indent`. -/
def printItems (indent : Nat) : List Record → String
  | [] => ""
  | .fields (e :: more) :: rest =>
    String.ofList (List.replicate indent ' ') ++ "- " ++ printFields (indent + 2) [] (e :: more)
      ++ printItems indent rest
  | item :: rest =>
    String.ofList (List.replicate indent ' ') ++ "-" ++ printValue indent item
      ++ printItems indent rest

/-- Fields that are indented by `indent`; `lead` stands in front of the first one. -/
def printFields (indent : Nat) (lead : List Char) : List (String × Record) → String
  | [] => ""
  | (key, value) :: rest =>
    String.ofList lead ++ keyText indent key ++ printValue indent value
      ++ printFields indent (List.replicate indent ' ') rest

end

/-- A pipeline as YAML text. -/
def ofPipeline (p : Pipeline) : String :=
  match p.record with
  | .fields entries => printFields 0 [] entries
  | record => printValue 0 record

end Yaml
end CiPipelines
