import CiPipelines.Jenkins.Literal
import CiPipelines.Text.Lines

/-!
# Lines of a Jenkinsfile

A Jenkinsfile is a program, so it is read line by line for the few forms that matter: a variable
of an `environment` block, the image of a `docker` block, and the `sh` step in its forms.  All
functions take a line without the white space around it.
-/

namespace CiPipelines
namespace Jenkins

/-- Removes `start` from the front of a text. -/
def dropStart? (start : String) (text : List Char) : Option (List Char) :=
  start.toList.isPrefixOf? text

/-- Removes white space from the front of a text. -/
def skipSpace (text : List Char) : List Char := text.dropWhile Text.isSpace

/-- The inside of a text in single quotes whose closing quote is its last character; a backslash
goes with the character after it. -/
def singleInside? : List Char → Option (List Char)
  | ['\''] => some []
  | '\\' :: c :: rest => (singleInside? rest).map fun inside => '\\' :: c :: inside
  | c :: rest =>
    if c == '\'' || c == '\\' then none
    else (singleInside? rest).map fun inside => c :: inside
  | [] => none

/-- The inside of a text in double quotes whose closing quote is its last character. -/
def doubleInside? (text : List Char) : Option (List Char) :=
  let inside := text.dropLast
  if text.getLast? == some '"' && !inside.contains '"' then some inside else none

/-- The value of a variable: a quoted text, or whatever stands there. -/
def variableValue? (text : List Char) : Option (List Char) :=
  match text with
  | [] => none
  | '\'' :: rest => some (((singleInside? rest).map unescape).getD text)
  | '"' :: rest => some ((doubleInside? rest).getD text)
  | _ => some text

/-- A character of a variable name. -/
def isNameChar (c : Char) : Bool := c.isAlphanum || c == '_'

/-- A variable and its value: `NAME = value`. -/
def assignment? (line : List Char) : Option (String × String) :=
  let name := line.takeWhile isNameChar
  match name, skipSpace (line.drop name.length) with
  | first :: _, '=' :: rest =>
    if first.isDigit then none
    else (variableValue? (skipSpace rest)).map fun value =>
      (String.ofList name, String.ofList value)
  | _, _ => none

/-- Either kind of quote. -/
def isQuote (c : Char) : Bool := c == '\'' || c == '"'

/-- The image of a line `image '…'`. -/
def dockerImage? (line : List Char) : Option String := do
  let afterWord ← dropStart? "image" line
  let quoted := skipSpace afterWord
  if quoted.length == afterWord.length then none
  else match quoted with
    | q :: rest =>
      let image := rest.takeWhile fun c => !isQuote c
      if isQuote q && !image.isEmpty && image.length < rest.length then
        some (String.ofList image)
      else none
    | [] => none

/-- Whether a line is an `sh` step. -/
def isShell (line : List Char) : Bool :=
  "sh ".toList.isPrefixOf line || "sh(".toList.isPrefixOf line

/-- What follows `sh` and an opening parenthesis. -/
def shellArgument (line : List Char) : List Char :=
  (line.drop 2).dropWhile fun c => c == ' ' || c == '('

/-- The quotes around texts of several lines. -/
inductive Fence where
  | single
  | double
  deriving DecidableEq, Repr

namespace Fence

/-- The three quotes. -/
def mark : Fence → List Char
  | single => ['\'', '\'', '\'']
  | double => ['"', '"', '"']

/-- The command that stands between two fences. -/
def command (f : Fence) (text : List Char) : List Char :=
  match f with
  | single => unescape text
  | double => text

/-- The fence that an argument consists of. -/
def ofArgument? (argument : List Char) : Option Fence :=
  [single, double].find? fun f => argument == f.mark

/-- Whether a line closes a text that the fence has opened. -/
def closes (f : Fence) (line : List Char) : Bool :=
  f.mark.isPrefixOf (skipSpace line)

/-- The inside of an argument that starts and ends with the fence. -/
def inside? (f : Fence) (argument : List Char) : Option (List Char) := do
  let rest ← f.mark.isPrefixOf? argument
  let inside := rest.take (rest.length - 3)
  if 3 ≤ rest.length && rest.drop (rest.length - 3) == f.mark then some inside else none

end Fence

/-- The fence at the end of a line that opens a text of several lines. -/
def openedFence? (line : List Char) : Option Fence := Fence.ofArgument? (shellArgument line)

/-- The command of a line with both its fences. -/
def fencedCommand? (line : List Char) : Option (List Char) :=
  let argument :=
    Text.dropEndWhile (fun c => c == ' ' || c == ';' || c == ')') (shellArgument line)
  [Fence.single, Fence.double].findSome? fun f => (f.inside? argument).map f.command

/-- What may follow the command of a call: further arguments after a comma, or the end of the
call. -/
def endsCall (text : List Char) : Bool :=
  let close (c : Char) (text : List Char) : List Char :=
    match text with
    | x :: rest => if x == c then rest else text
    | [] => []
  match skipSpace text with
  | ',' :: _ => true
  | rest => (skipSpace (close ';' (skipSpace (close ')' rest)))).isEmpty

/-- The command of a call with a quoted text: `sh '…'`, with or without parentheses, `script:` and
further arguments.  The command ends at the last quote of the line, which must be of its kind. -/
def quotedCommand? (line : List Char) : Option (List Char) := do
  let start := skipSpace (line.drop 2)
  let start := skipSpace ((dropStart? "(" start).getD start)
  let start ← match dropStart? "script" start with
    | some rest => (dropStart? ":" (skipSpace rest)).map skipSpace
    | none => some start
  match start with
  | q :: rest =>
    let tail := (rest.reverse.takeWhile fun c => !isQuote c).reverse
    let inside := rest.take (rest.length - tail.length)
    if isQuote q && inside.getLast? == some q && endsCall tail then
      some (if q == '\'' then unescape inside.dropLast else inside.dropLast)
    else none
  | [] => none

/-- The command of an `sh` step on one line.  Of a line in no known form all is taken that is not
a quote or parenthesis at an end. -/
def shellCommand (line : List Char) : List Char :=
  match quotedCommand? line with
  | some command => command
  | none => Text.stripWhile (fun c => isQuote c || c == '(' || c == ')') (Text.trim (line.drop 2))

end Jenkins
end CiPipelines
