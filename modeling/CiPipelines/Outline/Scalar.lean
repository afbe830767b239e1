import CiPipelines.Json.Quote
import CiPipelines.Text.Lines
import CiPipelines.Yaml.Value

/-!
# Scalars of a hand-laid document

A text on one line is written plain if a YAML reader gives it back as that text, and in single
quotes otherwise.  With control characters other than the tab it is written in double quotes,
which JSON and YAML share.  A text of several lines becomes a literal block where a block can
carry it: not if the first line that is not empty starts with a blank, a line holds white space
only, or there are control characters.
-/

namespace CiPipelines
namespace Outline

/-- Whether the text, standing alone, reads as itself. -/
def readsAsItself (s : String) : Bool :=
  match Yaml.Value.ofText? s.toList with
  | some (.text read) => read == s
  | _ => false

/-- Whether a text can be written without quotes. -/
def isPlain (s : String) : Bool :=
  !s.isEmpty && Text.trim s.toList == s.toList && readsAsItself s

/-- The text in single quotes, each quote inside written twice. -/
def singleQuoted (s : String) : String :=
  "'" ++ String.ofList (s.toList.flatMap fun c => if c == '\'' then ['\'', '\''] else [c]) ++ "'"

/-- A text on one line. -/
def inline (s : String) : String :=
  if s.toList.any fun c => Text.isControl c && c != '\t' then Json.quote s
  else if isPlain s then s
  else singleQuoted s

/-- Whether a literal block carries the text as it is. -/
def fitsBlock (text : List Char) : Bool :=
  let lines := Text.lines text
  let startsBlank := match lines.find? fun line => !line.isEmpty with
    | some (c :: _) => c == ' ' || c == '\t'
    | _ => false
  !startsBlank && !(lines.any fun line => !line.isEmpty && Text.isBlank line)
    && !(text.any fun c => Text.isControl c && c != '\n' && c != '\t')

/-- The header of the literal block of a text, and the text whose lines are written below it. -/
def blockParts (text : List Char) : String × List Char :=
  if text.getLast? != some '\n' then ("|-", text)
  else
    -- The last line feed is implied by the header; `|+` keeps those before it.
    let body := text.dropLast
    (if body.getLast? == some '\n' then "|+" else "|", body)

/-- The literal block of a text, from the space in front of it to the end of its last line.  Its
lines are indented by `indent`. -/
def literal (text : List Char) (indent : Nat) : String :=
  let (header, body) := blockParts text
  let line (l : List Char) : List Char :=
    if l.isEmpty then ['\n'] else List.replicate indent ' ' ++ l ++ ['\n']
  " " ++ header ++ "\n" ++ String.ofList ((body.splitOn '\n').flatMap line)

/-- A text after `key:` or a dash, to the end of its last line.  The lines of a block are indented
by `indent`. -/
def valueText (s : String) (indent : Nat) : String :=
  if s.toList.contains '\n' && fitsBlock s.toList then literal s.toList indent
  else " " ++ inline s ++ "\n"

end Outline
end CiPipelines
