import CiPipelines.Yaml.Token

/-!
# Tokens that have been read

A log holds the tokens that have been read so far, together with their number.  Tokens are added
at the end; a few are put in between, behind a given number of earlier ones.  What the log holds
is `TokenLog.toList`, and each operation is described by what it does to that list.
-/

namespace CiPipelines
namespace Yaml

/-- Tokens in the order of reading. -/
structure TokenLog where
  /-- The tokens, last first. -/
  newest : List Token
  size : Nat
  size_eq : size = newest.length
  deriving DecidableEq, Repr

namespace TokenLog

/-- No tokens. -/
def empty : TokenLog := ⟨[], 0, rfl⟩

/-- The tokens, first one first. -/
def toList (log : TokenLog) : List Token := log.newest.reverse

/-- Adds a token. -/
def push (log : TokenLog) (t : Token) : TokenLog :=
  ⟨t :: log.newest, log.size + 1, by simp [log.size_eq]⟩

/-- Adds some tokens, one after the other. -/
def pushAll (log : TokenLog) (ts : List Token) : TokenLog :=
  ⟨ts.reverse ++ log.newest, ts.length + log.size, by simp [log.size_eq]⟩

/-- Puts tokens behind the first `position` ones. -/
def insertAt (log : TokenLog) (position : Nat) (ts : List Token) : TokenLog :=
  let later := log.size - position
  ⟨log.newest.take later ++ ts.reverse ++ log.newest.drop later, log.size + ts.length, by
    simp only [log.size_eq, List.length_append, List.length_take, List.length_drop,
      List.length_reverse]
    omega⟩

@[simp] theorem toList_empty : empty.toList = [] := rfl

@[simp] theorem length_toList (log : TokenLog) : log.toList.length = log.size := by
  simp [toList, log.size_eq]

@[simp] theorem toList_push (log : TokenLog) (t : Token) :
    (log.push t).toList = log.toList ++ [t] := by
  simp [push, toList]

@[simp] theorem toList_pushAll (log : TokenLog) (ts : List Token) :
    (log.pushAll ts).toList = log.toList ++ ts := by
  simp [pushAll, toList]

/-- Tokens put in between stand behind the first `position` ones and in front of all others. -/
theorem toList_insertAt (log : TokenLog) (position : Nat) (ts : List Token) :
    (log.insertAt position ts).toList =
      log.toList.take position ++ ts ++ log.toList.drop position := by
  simp only [insertAt, toList, List.reverse_append, List.reverse_reverse, List.take_reverse,
    List.drop_reverse, log.size_eq, List.append_assoc]

end TokenLog
end Yaml
end CiPipelines
