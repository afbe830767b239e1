import CiPipelines.Yaml.Value

/-!
# Values of nodes

The value of a node, by the kind of the node: of a scalar, whatever the depth, and of collections,
one level deeper than their parts.  A node that is no alias means a text only as a scalar, and then
the text is its own.
-/

namespace CiPipelines
namespace Yaml

/-! ## Scalars -/

/-- The values that a scalar may have: its text, or none with a text or parts. -/
inductive ScalarValue (s : String) : Value → Prop
  | null : ScalarValue s .null
  | bool (b : Bool) : ScalarValue s (.bool b)
  | integer (n : Int) : ScalarValue s (.integer n)
  | real (x : Real) : ScalarValue s (.real x)
  | text : ScalarValue s (.text s)

section

variable {s : String} {v : Value}

theorem scalarValue_of_integer? (h : (Value.integer? s).join = some v) : ScalarValue s v := by
  unfold Value.integer? at h
  split at h
  · cases h
  · split at h
    · exact Option.some.inj h ▸ .integer _
    · cases h
    · cases h

theorem scalarValue_of_bool? (h : (Value.bool? s).map .bool = some v) : ScalarValue s v := by
  obtain ⟨b, -, rfl⟩ := Option.map_eq_some_iff.1 h
  exact .bool b

theorem scalarValue_of_ofPlain? (h : Value.ofPlain? s = some v) : ScalarValue s v := by
  unfold Value.ofPlain? at h
  split at h
  · exact Option.some.inj h ▸ .null
  · split at h
    · exact Option.some.inj h ▸ .bool _
    · split at h
      · rename_i result hresult
        exact scalarValue_of_integer? (by rw [hresult]; exact h)
      · split at h
        · exact Option.some.inj h ▸ .text
        · split at h
          · exact Option.some.inj h ▸ .real _
          · exact Option.some.inj h ▸ .text

theorem scalarValue_of_ofScalar? {tag : Option Uri} {style : Style}
    (h : Value.ofScalar? tag style s = some v) : ScalarValue s v := by
  unfold Value.ofScalar? at h
  split at h
  · split at h
    · exact scalarValue_of_ofPlain? h
    · exact Option.some.inj h ▸ .text
  -- With a tag the branches ask for a truth value, an integer, a number and null, in this order.
  · split at h
    · exact scalarValue_of_bool? h
    · split at h
      · exact scalarValue_of_integer? h
      · split at h
        · obtain ⟨x, -, rfl⟩ := Option.map_eq_some_iff.1 h
          exact .real x
        · split at h
          · split at h
            · exact Option.some.inj h ▸ .null
            · cases h
          · split at h
            · exact scalarValue_of_ofPlain? h
            · exact Option.some.inj h ▸ .text

end

/-! ## Nodes -/

namespace Document

/-- A scalar means the same at each depth. -/
theorem value_scalar (d : Document) (levels left : Nat) (p : Properties Nat) (style : Style)
    (s : String) :
    (d.value levels (.scalar p style s)).run left =
      (if (Value.ownTag? p.tag).isSome then Value.ofScalar? none style s
        else Value.ofScalar? p.tag style s).map fun v => (v.withTag p.tag, left) := by
  have hvalue : d.value levels (.scalar p style s) = do
      let v ←
        if (Value.ownTag? p.tag).isSome then Value.ofScalar? none style s
        else Value.ofScalar? p.tag style s
      return v.withTag p.tag := by
    cases levels <;>
    · delta Document.value
      rfl
  rw [hvalue]
  dsimp only
  split
  · cases Value.ofScalar? none style s <;> rfl
  · cases Value.ofScalar? p.tag style s <;> rfl

theorem exists_scalarValue {d : Document} {levels left left' : Nat} {p : Properties Nat}
    {style : Style} {s : String} {v : Value}
    (h : (d.value levels (.scalar p style s)).run left = some (v, left')) :
    ∃ w, ScalarValue s w ∧ w.withTag p.tag = v := by
  rw [value_scalar] at h
  obtain ⟨w, hw, hpair⟩ := Option.map_eq_some_iff.1 h
  refine ⟨w, ?_, (Prod.mk.inj hpair).1⟩
  split at hw
  · exact scalarValue_of_ofScalar? hw
  · exact scalarValue_of_ofScalar? hw

/-- A sequence means its items, one level below. -/
theorem value_sequence (d : Document) (levels : Nat) (p : Properties Nat)
    (items : List (Tree Nat)) : d.value (levels + 1) (.sequence p items) = do
      let items ← items.mapM (d.value levels)
      return (Value.sequence items).withTag p.tag := by
  delta Document.value
  rfl

/-- A mapping means its entries, one level below; its keys differ. -/
theorem value_mapping (d : Document) (levels : Nat) (p : Properties Nat)
    (entries : List (Tree Nat × Tree Nat)) : d.value (levels + 1) (.mapping p entries) = do
      let entries ← entries.foldlM (fun read entry => do
        let key ← d.value levels entry.1
        if read.any fun other => key.same other.1 then failure
        else do
          let value ← d.value levels entry.2
          return read ++ [(key, value)]) []
      return (Value.mapping entries).withTag p.tag := by
  delta Document.value
  rfl

/-- An alias means what the node means that it refers to, unless that is an alias. -/
theorem value_alias (d : Document) (levels n : Nat) :
    d.value levels (.alias n) = d.follow (.alias n) >>= fun
      | .alias _ => failure
      | target => d.value levels target := by
  cases levels <;>
  · delta Document.value
    refine bind_congr fun target => ?_
    cases target <;> rfl

/-- Too deep there are no sequences. -/
theorem value_zero_sequence (d : Document) (p : Properties Nat) (items : List (Tree Nat)) :
    d.value 0 (.sequence p items) = failure := by
  delta Document.value
  rfl

/-- Too deep there are no mappings. -/
theorem value_zero_mapping (d : Document) (p : Properties Nat)
    (entries : List (Tree Nat × Tree Nat)) : d.value 0 (.mapping p entries) = failure := by
  delta Document.value
  rfl

end Document

/-- A node other than an alias that means a text is a scalar with that text. -/
theorem scalar_of_value {d : Document} {levels left left' : Nat} {t : Tree Nat} {s : String}
    (halias : ∀ n, t ≠ .alias n) (h : (d.value levels t).run left = some (.text s, left')) :
    ∃ properties style, t = .scalar properties style s := by
  -- A tag that is kept makes the value something else than a text.
  have htag : ∀ {tag : Option Uri} {v : Value}, v.withTag tag = .text s → v = .text s := by
    intro tag v h
    unfold Value.withTag at h
    split at h
    · simp at h
    · exact h
  cases t with
  | «alias» n => exact absurd rfl (halias n)
  | scalar properties style text =>
    obtain ⟨v, hvalue, hv⟩ := Document.exists_scalarValue h
    obtain rfl := htag hv
    cases hvalue
    exact ⟨properties, style, rfl⟩
  | sequence properties items =>
    cases levels with
    | zero =>
      rw [Document.value_zero_sequence] at h
      cases h
    | succ levels =>
      rw [Document.value_sequence] at h
      obtain ⟨⟨read, left⟩, -, h⟩ := Option.bind_eq_some_iff.1 h
      have hsequence := htag (Prod.mk.inj (Option.some.inj h)).1
      simp at hsequence
  | mapping properties entries =>
    cases levels with
    | zero =>
      rw [Document.value_zero_mapping] at h
      cases h
    | succ levels =>
      rw [Document.value_mapping] at h
      obtain ⟨⟨read, left⟩, -, h⟩ := Option.bind_eq_some_iff.1 h
      have hmapping := htag (Prod.mk.inj (Option.some.inj h)).1
      simp at hmapping

end Yaml
end CiPipelines
