import CiPipelines.Yaml.Number
import CiPipelines.Yaml.Document

/-!
# Values

The value of a node is what it means: null, a truth value, a number, a text, a sequence or a
mapping.  Only a plain scalar without a tag can be anything but text; a tag of the core schema
asks for one kind of value, and a tag of one's own is kept beside the value.  The keys of a
mapping are pairwise different, and collections are nested at most 128 deep.
-/

namespace CiPipelines
namespace Yaml

/-- The meaning of a node. -/
inductive Value where
  | null
  | bool (b : Bool)
  | integer (n : Int)
  | real (x : Real)
  | text (s : String)
  | sequence (items : List Value)
  | mapping (entries : List (Value × Value))
  | tagged (tag : String) (value : Value)

namespace Value

mutual

/-- Whether two values are the same as keys.  The order of the entries of a mapping does not
count. -/
def same : Value → Value → Bool
  | .null, .null => true
  | .bool a, .bool b => a == b
  | .integer a, .integer b => a == b
  | .real a, .real b => a.same b
  | .text a, .text b => a == b
  | .sequence as, .sequence bs => sameItems as bs
  | .mapping as, .mapping bs => as.length == bs.length && sameEntries as bs
  | .tagged t a, .tagged u b => t == u && same a b
  | _, _ => false

/-- Whether two sequences have the same items. -/
def sameItems : List Value → List Value → Bool
  | [], [] => true
  | a :: as, b :: bs => same a b && sameItems as bs
  | _, _ => false

/-- Whether each of the entries is found among the others. -/
def sameEntries : List (Value × Value) → List (Value × Value) → Bool
  | [], _ => true
  | (k, v) :: rest, others =>
    (others.any fun other => same k other.1 && same v other.2) && sameEntries rest others

end

/-- The words that mean null. -/
def nullWords : List String := ["null", "Null", "NULL", "~"]

/-- The words that mean true. -/
def trueWords : List String := ["true", "True", "TRUE"]

/-- The words that mean false. -/
def falseWords : List String := ["false", "False", "FALSE"]

/-- The truth value that a text denotes. -/
def bool? (s : String) : Option Bool :=
  if trueWords.contains s then some true
  else if falseWords.contains s then some false
  else none

/-- The integer that a text denotes: nothing if there is none, and an error inside if there is one
that no reader takes. -/
def integer? (s : String) : Option (Option Value) :=
  match Yaml.integer? s.toList with
  | none => none
  | some n =>
    match IntegerSize.of n with
    | .word => some (some (.integer n))
    | .doubleWord => some none
    | .larger => none

/-- The value of a plain scalar.  Fails only at an integer that needs more than 64 bits and at most
128. -/
def ofPlain? (s : String) : Option Value :=
  if s.isEmpty || nullWords.contains s then some .null
  else match bool? s with
    | some b => some (.bool b)
    | none =>
      match integer? s with
      | some result => result
      | none =>
        if isPaddedDigits s.toList then some (.text s)
        else match real? s.toList with
          | some x => some (.real x)
          | none => some (.text s)

/-- The tags of the core schema start with this. -/
def coreTag (name : String) : Uri :=
  .ofText ("tag:yaml.org,2002:" ++ name).toList

/-- The name of a tag of one's own: what follows its exclamation mark, if anything does. -/
def ownTag? (tag : Option Uri) : Option String :=
  match tag with
  | some ⟨['!'], true⟩ => some "!"
  | some ⟨'!' :: name, true⟩ => some (String.ofList name)
  | _ => none

/-- The value of a scalar whose tag, if any, is none of one's own. -/
def ofScalar? (tag : Option Uri) (style : Style) (s : String) : Option Value :=
  match tag with
  | none => if style == .plain then ofPlain? s else some (.text s)
  | some tag =>
    if tag == coreTag "bool" then (bool? s).map .bool
    else if tag == coreTag "int" then (integer? s).join
    else if tag == coreTag "float" then (real? s.toList).map .real
    else if tag == coreTag "null" then
      if nullWords.contains s then some .null else none
    else if tag.text.head? == some '!' && style == .plain then ofPlain? s
    else some (.text s)

/-- Puts a tag of one's own around a value. -/
def withTag (tag : Option Uri) (v : Value) : Value :=
  match ownTag? tag with
  | some name => .tagged name v
  | none => v

end Value

namespace Document

/-- The value of a node below which collections may be nested `levels` deep. -/
def value (d : Document) : Nat → Tree Nat → StateT Nat Option Value
  | levels, t => do
    match ← d.follow t, levels with
    | .scalar p style s, _ =>
      let v ←
        if (Value.ownTag? p.tag).isSome then Value.ofScalar? none style s
        else Value.ofScalar? p.tag style s
      return v.withTag p.tag
    | .sequence p items, levels + 1 => do
      let items ← items.mapM (d.value levels)
      return (Value.sequence items).withTag p.tag
    | .mapping p entries, levels + 1 => do
      let entries ← entries.foldlM (fun read entry => do
        let key ← d.value levels entry.1
        if read.any fun other => key.same other.1 then failure
        else do
          let value ← d.value levels entry.2
          return read ++ [(key, value)]) []
      return (Value.mapping entries).withTag p.tag
    | _, _ => failure

/-- How deep collections may be nested. -/
def maxDepth : Nat := 128

end Document

/-- The value that a text denotes. -/
def Value.ofText? (text : List Char) : Option Value := do
  let d ← Document.ofText? text
  let (v, _) ← (d.value Document.maxDepth d.root).run d.allowance
  return v

end Yaml
end CiPipelines
