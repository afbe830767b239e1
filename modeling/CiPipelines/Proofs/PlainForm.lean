import CiPipelines.Outline.Scalar
import CiPipelines.Proofs.NodeValues
import CiPipelines.Proofs.TokenRun

/-!
# Texts that are written plain

A text is written without quotes if it reads as itself.  It then consists of a single plain scalar:
a scalar that holds the whole text leaves no character for anything around it.  So the text can
stand as a plain scalar anywhere, and its words mean nothing but text.
-/

namespace CiPipelines
namespace Yaml

/-- A plain scalar that has as many characters as were read holds nothing that ends one. -/
theorem plainTail_of_readPlain {margin : Nat} {read blanks text : List Char} {place : Place}
    {scalar : PlainScalar} (htext : ∀ c ∈ text, isBreak c = false)
    (h : readPlain false margin read (.blanks blanks) place text = some scalar)
    (hlength : scalar.text.length = read.length + blanks.length + text.length) :
    plainTail (!blanks.isEmpty) text = true := by
  -- Nothing is dropped on the way, so reading goes on to the last character.
  induction text generalizing read blanks place with
  | nil =>
    obtain rfl := Option.some.inj h
    have hblanks : blanks.length = 0 := by
      simp only [List.length_reverse, List.length_nil] at hlength
      omega
    simp [plainTail, List.length_eq_zero_iff.1 hblanks]
  | cons c rest ih =>
    have hbreak := htext c (List.mem_cons_self ..)
    have hrest := fun d hd => htext d (List.mem_cons_of_mem c hd)
    rw [plainTail]
    cases hblank : isBlank c with
    | true =>
      rw [readPlain_blank hblank] at h
      have hspaced : (!(blanks ++ [c]).isEmpty) = true := by cases blanks <;> rfl
      have htail := ih hrest h (by
        simp only [List.length_append, List.length_cons, List.length_nil] at hlength ⊢
        omega)
      rwa [hspaced] at htail
    | false =>
      rw [readPlain.eq_3 _ _ _ _ _ _ _ fun _ h => absurd h (ne_carriageReturn_of_isBreak hbreak),
        if_neg (by simp [hbreak]), if_neg (by simp [hblank])] at h
      cases hends : endsPlain false margin (.blanks blanks) place.column c rest with
      | true =>
        rw [hends, if_pos rfl] at h
        obtain rfl := Option.some.inj h
        simp only [List.length_reverse, List.length_cons] at hlength
        omega
      | false =>
        rw [hends, if_neg (by simp), if_neg (by simp [colonTouches])] at h
        have htail : plainTail false rest = true := by
          have h : readPlain false margin _ (.blanks []) _ rest = some scalar := h
          refine ih hrest h ?_
          simp only [Gap.fold, List.length_cons, List.length_append, List.length_reverse,
            List.length_nil] at hlength ⊢
          omega
        simp only [endsPlain, Gap.hasBreak, Gap.isEmpty, Bool.not_false, Bool.and_false,
          Bool.false_or, Bool.or_eq_false_iff, Bool.false_and] at hends
        rw [if_neg (by simp), hbreak, htail, hends.1.1.2, hends.1.2]
        rfl

namespace Scan

/-- Outside of all blocks nothing is closed in front of a token. -/
theorem approach_outside {cursor : Cursor} {log : TokenLog} {keyAllowed : Bool}
    {pending : Option PendingKey} {s : Scan}
    (h : approach ⟨cursor, log, [], keyAllowed, pending, []⟩ = some s) :
    ∃ cursor keyAllowed pending, s = ⟨cursor, log, [], keyAllowed, pending, []⟩ := by
  obtain ⟨near, hnear, rfl⟩ := Option.map_eq_some_iff.1 h
  obtain ⟨pending', -, hnear⟩ := Option.bind_eq_some_iff.1 hnear
  obtain rfl := Option.some.inj hnear
  exact ⟨_, _, pending', closeBlocks_eq_self (Nat.zero_le _)⟩

/-- At the end of a text outside of all blocks no tokens are added. -/
theorem tokens?_outside_end {steps : Nat} {place : Place} {log : TokenLog} {keyAllowed : Bool}
    {pending : Option PendingKey} {ts : List Token}
    (h : tokens? steps ⟨⟨[], place⟩, log, [], keyAllowed, pending, []⟩ = some ts) :
    ts = log.toList := by
  cases steps with
  | zero => simp [tokens?] at h
  | succ steps =>
    rw [tokens?_succ] at h
    obtain ⟨near, hnear, h⟩ := Option.bind_eq_some_iff.1 h
    have hlength := length_approach_le hnear
    obtain ⟨cursor, keyAllowed', pending', rfl⟩ := approach_outside hnear
    have hrest : cursor.rest = [] := List.eq_nil_of_length_eq_zero (Nat.le_zero.1 hlength)
    simp only [hrest] at h
    obtain ⟨dropped, hdropped, h⟩ := Option.bind_eq_some_iff.1 h
    obtain rfl := dropKey_eq hdropped
    obtain rfl := Option.some.inj h
    rw [closeBlocks_eq_self (Nat.zero_le _)]

end Scan

/-- A plain scalar that takes a whole text can stand anywhere. -/
theorem isPlainText_of_readPlain {c : Char} {rest : List Char} {margin : Nat} {place : Place}
    {scalar : PlainScalar} (htext : ∀ d ∈ c :: rest, isBreak d = false)
    (hstart : startsPlain c rest = true) (hmark : atDocumentMark 0 (c :: rest) = false)
    (h : readPlain false margin [] .empty place (c :: rest) = some scalar)
    (hscalar : scalar.text = c :: rest) : isPlainText (c :: rest) = true := by
  have h : readPlain false margin [] (.blanks []) place (c :: rest) = some scalar := h
  have htail : plainTail false (c :: rest) = true :=
    plainTail_of_readPlain htext h (by simp [hscalar])
  rw [isPlainText, hstart, hmark, htail]
  rfl

/-- A text with a scalar that holds all of it is a plain scalar, and nothing else. -/
theorem tokens?_of_scalar {s : String} {style : Style} {ts : List Token}
    (htext : ∀ c ∈ s.toList, isBreak c = false) (h : tokens? s.toList = some ts)
    (hmem : .scalar style s ∈ ts) : isPlainText s.toList = true ∧ ts = [.scalar .plain s] := by
  have hrun : Scan.tokens? (s.toList.length + 1) (.start s.toList) = some ts := by
    unfold tokens? at h
    split at h
    · exact h
    · simp at h
  have hsize : s.length = s.toList.length := String.length_toList.symm
  rw [Scan.tokens?_succ] at hrun
  obtain ⟨near, hnear, hrun⟩ := Option.bind_eq_some_iff.1 hrun
  have hcursor := (Scan.prepares_approach hnear).1
  have hnearLength := Scan.length_approach_le hnear
  obtain ⟨⟨text, place⟩, keyAllowed, pending, rfl⟩ := Scan.approach_outside hnear
  simp only [Scan.start] at hcursor hnearLength
  cases text with
  | nil =>
    obtain ⟨dropped, hdropped, hrun⟩ := Option.bind_eq_some_iff.1 hrun
    obtain rfl := Scan.dropKey_eq hdropped
    obtain rfl := Option.some.inj hrun
    simp [Scan.closeBlocks_eq_self] at hmem
  | cons c rest =>
    obtain ⟨next, hnext, hrun⟩ := Option.bind_eq_some_iff.1 hrun
    obtain ⟨hshorter, -⟩ := Scan.readToken_advances rfl hnext
    simp only at hshorter
    -- What is left after the first token is too short for the scalar.
    have hfirst : .scalar style s ∈ next.log.toList := by
      rcases Scan.scalar_of_mem_tokens? hrun hmem with hold | hnew
      · exact hold
      · omega
    have hsame : ∀ {style' : Style} {text' : String}, Scan.TakesScalar style' text'
        ⟨⟨c :: rest, place⟩, .empty, [], keyAllowed, pending, []⟩ next →
          style = style' ∧ s = text' := by
      intro style' text' htakes
      rw [htakes.log] at hfirst
      simpa using hfirst
    rcases Scan.readToken_cases rfl hnext with hmark | ⟨style', text', hplain, htakes⟩ |
      ⟨hstart, hmark, hread, text', htakes⟩
    · have hold := hmark.scalars _ _ hfirst
      simp at hold
    · obtain ⟨rfl, rfl⟩ := hsame htakes
      -- With its mark the scalar would be longer than the text.
      have hmarks : style.marks = 1 := by
        cases style with
        | plain => exact absurd rfl hplain
        | _ => rfl
      have hlength := htakes.length
      simp only at hlength
      omega
    · obtain ⟨rfl, rfl⟩ := hsame htakes
      have hlength := htakes.length
      simp only [Style.marks] at hlength
      -- A plain scalar of that length starts where the text starts, and ends where it ends.
      have hwhole : c :: rest = s.toList ∧ place = .start := by
        rcases hcursor with heq | hlt
        · exact ⟨congrArg Cursor.rest heq, congrArg Cursor.place heq⟩
        · omega
      obtain ⟨htextEq, rfl⟩ := hwhole
      obtain ⟨noted, hnoted, hread⟩ := Option.bind_eq_some_iff.1 hread
      obtain ⟨pending', rfl⟩ := Scan.noteKey_eq hnoted
      obtain ⟨scalar, hscalar, hread⟩ := Option.bind_eq_some_iff.1 hread
      obtain rfl := Option.some.inj hread
      have hsame : scalar.text = c :: rest := by
        have hpush : s = String.ofList scalar.text := by simpa [Scan.emitTo] using hfirst
        rw [htextEq, hpush, String.toList_ofList]
      have hend : scalar.next.rest = [] := by
        have hlength : s.length + scalar.next.rest.length ≤ (c :: rest).length := hlength
        exact List.eq_nil_of_length_eq_zero (by omega)
      refine ⟨?_, ?_⟩
      · rw [← htextEq] at htext ⊢
        exact isPlainText_of_readPlain htext (hstart (htext c (List.mem_cons_self ..))) hmark
          hscalar hsame
      · obtain ⟨⟨rest', place'⟩, hnext⟩ : ∃ cursor, scalar.next = cursor := ⟨_, rfl⟩
        rw [hnext] at hend
        simp only at hend
        simp only [Scan.emitTo, hnext, hend] at hrun
        rw [Scan.tokens?_outside_end hrun, hsame, htextEq]
        simp

/-! ## The root of a document that means a text -/

/-- Properties are read from the front. -/
theorem readProperties?_suffix {handles : Handles} {ts rest : List Token}
    {properties : Properties String} (h : readProperties? handles ts = some (properties, rest)) :
    rest <:+ ts := by
  unfold readProperties? at h
  split at h
  · obtain ⟨_, _, h⟩ := Option.bind_eq_some_iff.1 h
    obtain ⟨-, rfl⟩ := Prod.mk.inj (Option.some.inj h)
    exact ⟨[_, _], rfl⟩
  · obtain ⟨_, _, h⟩ := Option.bind_eq_some_iff.1 h
    obtain ⟨-, rfl⟩ := Prod.mk.inj (Option.some.inj h)
    exact ⟨[_, _], rfl⟩
  · obtain ⟨-, rfl⟩ := Prod.mk.inj (Option.some.inj h)
    exact ⟨[_], rfl⟩
  · obtain ⟨_, _, h⟩ := Option.bind_eq_some_iff.1 h
    obtain ⟨-, rfl⟩ := Prod.mk.inj (Option.some.inj h)
    exact ⟨[_], rfl⟩
  · obtain ⟨-, rfl⟩ := Prod.mk.inj (Option.some.inj h)
    exact List.suffix_rfl

/-- Directives are read from the front. -/
theorem readDirectives?_suffix {versioned : Bool} {handles all : Handles} {ts rest : List Token}
    (h : readDirectives? versioned handles ts = some (all, rest)) : rest <:+ ts := by
  fun_induction readDirectives? versioned handles ts with
  | case1 | case3 => simp at h
  | case2 _ _ _ _ _ _ ih | case4 _ _ _ _ _ _ ih =>
    exact (ih h).trans (List.suffix_cons _ _)
  | case5 =>
    obtain ⟨-, rfl⟩ := Prod.mk.inj (Option.some.inj h)
    exact List.suffix_rfl

/-- A node that is a scalar is empty or one of the tokens. -/
theorem scalar_of_readNode {handles : Handles} {inBlock openItems : Bool} {fuel : Nat}
    {ts rest : List Token} {properties : Properties String} {style : Style} {text : String}
    (h : readNode handles inBlock openItems fuel ts =
      some (.scalar properties style text, rest)) : text = "" ∨ .scalar style text ∈ ts := by
  have hempty : ∀ {properties' : Properties String} {ts' : List Token},
      emptyNode? properties' ts' = some (.scalar properties style text, rest) → text = "" := by
    intro properties' ts' h
    unfold emptyNode? at h
    split at h
    · simp at h
    · simp_all
  -- Only two kinds of node are scalars: a scalar token, and nothing where a node may be left out.
  rw [readNode.eq_def] at h
  split at h
  · simp at h
  · simp at h
  · obtain ⟨⟨properties', ts'⟩, hproperties, h⟩ := Option.bind_eq_some_iff.1 h
    have hsuffix := readProperties?_suffix hproperties
    dsimp only at h
    split at h
    · rename_i style' text' rest'
      obtain ⟨htree, -⟩ := Prod.mk.inj (Option.some.inj h)
      obtain ⟨-, rfl, rfl⟩ := Tree.scalar.inj htree
      exact .inr (hsuffix.mem (List.mem_cons_self ..))
    · obtain ⟨_, _, h⟩ := Option.bind_eq_some_iff.1 h
      simp at h
    · obtain ⟨_, _, h⟩ := Option.bind_eq_some_iff.1 h
      simp at h
    · split at h
      · obtain ⟨_, _, h⟩ := Option.bind_eq_some_iff.1 h
        simp at h
      · exact .inl (hempty h)
    · split at h
      · obtain ⟨_, _, h⟩ := Option.bind_eq_some_iff.1 h
        simp at h
      · exact .inl (hempty h)
    · split at h
      · obtain ⟨_, _, h⟩ := Option.bind_eq_some_iff.1 h
        simp at h
      · exact .inl (hempty h)
    · exact .inl (hempty h)

/-- A document that is a scalar is empty or one of the tokens. -/
theorem scalar_of_readStream? {ts : List Token} {properties : Properties String} {style : Style}
    {text : String} (h : readStream? ts = some (some (.scalar properties style text))) :
    text = "" ∨ .scalar style text ∈ ts := by
  have hroot : ∀ {root : Tree String} {rest : List Token},
      (if rest.all (· == .documentEnd) then some (some root) else none) =
        some (some (.scalar properties style text)) → root = .scalar properties style text := by
    intro root rest h
    split at h
    · exact Option.some.inj (Option.some.inj h)
    · simp at h
  -- With directives in front or without, the document is its root node.
  unfold readStream? at h
  dsimp only at h
  split at h
  · simp at h
  · split at h
    · obtain ⟨⟨handles, rest⟩, hdirectives, h⟩ := Option.bind_eq_some_iff.1 h
      have hsuffix := readDirectives?_suffix hdirectives
      dsimp only at h hsuffix
      split at h
      · split at h
        · exact .inl (Tree.scalar.inj (hroot h)).2.2.symm
        · obtain ⟨⟨root, rest'⟩, hread, h⟩ := Option.bind_eq_some_iff.1 h
          obtain rfl : root = .scalar properties style text := hroot h
          rcases scalar_of_readNode hread with hempty | hmem
          · exact .inl hempty
          · exact .inr (hsuffix.mem (List.mem_cons_of_mem _ hmem))
      · simp at h
    · obtain ⟨⟨root, rest⟩, hread, h⟩ := Option.bind_eq_some_iff.1 h
      obtain rfl : root = .scalar properties style text := hroot h
      exact scalar_of_readNode hread

/-- The root of a document is no alias; if it is a scalar, it was one before. -/
theorem scalar_of_number {tree : Tree String} {root : Tree Nat} {names : AnchorNames}
    (h : tree.number [] = some (root, names)) : (∀ n, root ≠ .alias n) ∧
      ∀ p style text, root = .scalar p style text → ∃ p', tree = .scalar p' style text := by
  cases tree with
  | «alias» name => simp [Tree.number] at h
  | scalar properties style text =>
    obtain ⟨rfl, -⟩ := Prod.mk.inj (Option.some.inj h)
    refine ⟨by simp, fun p style' text' heq => ?_⟩
    obtain ⟨-, rfl, rfl⟩ := Tree.scalar.inj heq
    exact ⟨properties, rfl⟩
  | sequence properties items =>
    obtain ⟨_, _, h⟩ := Option.bind_eq_some_iff.1 h
    obtain ⟨rfl, -⟩ := Prod.mk.inj (Option.some.inj h)
    exact ⟨by simp, by simp⟩
  | mapping properties entries =>
    obtain ⟨_, _, h⟩ := Option.bind_eq_some_iff.1 h
    obtain ⟨rfl, -⟩ := Prod.mk.inj (Option.some.inj h)
    exact ⟨by simp, by simp⟩

/-- A text that means itself has a scalar that holds it. -/
theorem scalar_of_ofText? {s : String} (hne : s ≠ "")
    (h : Value.ofText? s.toList = some (.text s)) :
    ∃ ts style, tokens? s.toList = some ts ∧ .scalar style s ∈ ts := by
  obtain ⟨d, hd, h⟩ := Option.bind_eq_some_iff.1 h
  obtain ⟨⟨v, left⟩, hv, h⟩ := Option.bind_eq_some_iff.1 h
  obtain rfl := Option.some.inj h
  obtain ⟨ts, hts, hd⟩ := Option.bind_eq_some_iff.1 hd
  obtain ⟨tree?, htree, hd⟩ := Option.bind_eq_some_iff.1 hd
  cases tree? with
  | none =>
    obtain rfl := Option.some.inj hd
    have halias : ∀ n, Document.void.root ≠ .alias n := by
      simp [Document.void, Document.ofRoot, Tree.empty]
    obtain ⟨properties, style, hroot⟩ := scalar_of_value halias hv
    exact absurd (Tree.scalar.inj hroot).2.2.symm hne
  | some tree =>
    obtain ⟨⟨root, names⟩, hroot, hd⟩ := Option.bind_eq_some_iff.1 hd
    obtain rfl := Option.some.inj hd
    obtain ⟨halias, hscalar⟩ := scalar_of_number hroot
    obtain ⟨properties, style, hroot'⟩ := scalar_of_value halias hv
    obtain ⟨properties', rfl⟩ := hscalar properties style s hroot'
    rcases scalar_of_readStream? htree with hempty | hmem
    · exact absurd hempty hne
    · exact ⟨ts, style, hts, hmem⟩

/-- What a text means that is nothing but a plain scalar. -/
theorem ofText?_plain {s : String} (h : tokens? s.toList = some [.scalar .plain s]) :
    Value.ofText? s.toList = Value.ofPlain? s := by
  have hdocument : Document.ofText? s.toList =
      some (.ofRoot (.scalar .none .plain s)) := by
    rw [Document.ofText?, h]
    rfl
  rw [Value.ofText?, hdocument]
  simp only [Option.bind_eq_bind, Option.bind_some, Document.ofRoot]
  rw [Document.value_scalar]
  cases hv : Value.ofPlain? s <;>
    simp [Value.ownTag?, Properties.none, Value.ofScalar?, Value.withTag, hv]

/-- A text on one line that reads as itself can stand as a plain scalar, and means a text. -/
theorem isPlainText_of_readsAsItself {s : String} (htext : ∀ c ∈ s.toList, isBreak c = false)
    (hne : s ≠ "") (h : Value.ofText? s.toList = some (.text s)) :
    isPlainText s.toList = true ∧ Value.ofPlain? s = some (.text s) := by
  obtain ⟨ts, style, hts, hmem⟩ := scalar_of_ofText? hne h
  obtain ⟨hplain, rfl⟩ := tokens?_of_scalar htext hts hmem
  exact ⟨hplain, (ofText?_plain hts).symm.trans h⟩

end Yaml

/-- What is written plain can stand as a plain scalar, and means a text. -/
theorem Outline.isPlainText_of_isPlain {s : String}
    (htext : ∀ c ∈ s.toList, Yaml.isBreak c = false) (h : isPlain s = true) :
    Yaml.isPlainText s.toList = true ∧ Yaml.Value.ofPlain? s = some (.text s) := by
  simp only [isPlain, Bool.and_eq_true, Bool.not_eq_true'] at h
  obtain ⟨⟨hne, -⟩, hreads⟩ := h
  have hread : Yaml.Value.ofText? s.toList = some (.text s) := by
    unfold readsAsItself at hreads
    split at hreads
    · rename_i read heq
      rw [heq, beq_iff_eq.1 hreads]
    · simp at hreads
  refine Yaml.isPlainText_of_readsAsItself htext ?_ hread
  rintro rfl
  simp at hne

end CiPipelines
