import CiPipelines.Platform

/-!
# The table of platforms

A heading and a line for each platform: names, whether it can be read and written, and the usual
path.  All columns but the last have a fixed width.
-/

namespace CiPipelines
namespace CommandLine

/-- A text followed by spaces up to a width. -/
def padRight (width : Nat) (s : String) : String :=
  s ++ String.ofList (List.replicate (width - s.length) ' ')

/-- A line of the table. -/
def tableLine (name product reads writes path : String) : String :=
  padRight 10 name ++ " " ++ padRight 20 product ++ " " ++ padRight 6 reads ++ " "
    ++ padRight 8 writes ++ " " ++ path ++ "\n"

/-- The word for what is possible or not. -/
def mark (possible : Bool) : String := if possible then "yes" else "-"

/-- The line of a platform. -/
def platformLine (p : Platform) : String :=
  tableLine p.name p.productName (mark p.canRead) (mark p.canWrite) p.usualPath

/-- The whole table. -/
def platformTable : String :=
  tableLine "NAME" "PLATFORM" "PARSE" "GENERATE" "DEFAULT PATH"
    ++ String.join (Platform.all.map platformLine)

end CommandLine
end CiPipelines
