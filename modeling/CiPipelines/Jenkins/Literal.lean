/-!
# Single-quoted strings of a Jenkinsfile

Between single quotes a backslash stands in front of each quote and each backslash.  Reading takes
such a backslash away again and leaves all others.
-/

namespace CiPipelines
namespace Jenkins

/-- Puts a backslash in front of each quote and backslash. -/
def escape : List Char → List Char
  | [] => []
  | c :: rest => if c = '\'' ∨ c = '\\' then '\\' :: c :: escape rest else c :: escape rest

/-- Takes away the backslash in front of a quote or backslash. -/
def unescape : List Char → List Char
  | '\\' :: '\'' :: rest => '\'' :: unescape rest
  | '\\' :: '\\' :: rest => '\\' :: unescape rest
  | c :: rest => c :: unescape rest
  | [] => []

/-- Escaping and reading back gives the text. -/
theorem unescape_escape (text : List Char) : unescape (escape text) = text := by
  induction text with
  | nil => rfl
  | cons c rest ih =>
    unfold escape
    split
    · rename_i h
      rcases h with h | h <;> subst h <;> simp [unescape, ih]
    · rename_i h
      have hb : c ≠ '\\' := fun e => h (.inr e)
      rw [unescape.eq_3 _ _ (fun _ e _ => hb e) (fun _ e _ => hb e), ih]

/-- The text between single quotes. -/
def quote (s : String) : String := "'" ++ String.ofList (escape s.toList) ++ "'"

end Jenkins
end CiPipelines
