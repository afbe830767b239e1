/-!
# Shell words

A text as one word of a shell command.  It stands for itself if it holds no character that a shell
treats in a special way, and otherwise between single quotes, outside of which each single quote
is written with a backslash.
-/

namespace CiPipelines
namespace ShellWord

/-- A character that needs quotes around the word. -/
def isSpecial (c : Char) : Bool :=
  "|&;<>()$\x60\\\" \t*?[#~=%'\n".toList.contains c

/-- The text as a shell word. -/
def quote (s : String) : String :=
  if s.isEmpty then "''"
  else if s.toList.any isSpecial then
    "'" ++ String.ofList (s.toList.flatMap fun c =>
      if c == '\'' then ['\'', '\\', '\'', '\''] else [c]) ++ "'"
  else s

end ShellWord
end CiPipelines
