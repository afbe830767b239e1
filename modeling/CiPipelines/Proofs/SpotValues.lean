import CiPipelines.Proofs.OutlineNodes
import CiPipelines.Proofs.OutlineParts
import CiPipelines.Proofs.SpotTrees

/-!
# Texts read back at a spot

Whichever text on one line stands at a spot, the document means the same with that text there: the
text itself and never anything else that it may look like.  Only as a key it must differ from the
other keys of its mapping.
-/

namespace CiPipelines

open Yaml

namespace Yaml.Document

/-- What a node means depends on the targets of aliases only. -/
theorem value_congr {d d' : Document} (h : d'.targets = d.targets) (levels : Nat) :
    d'.value levels = d.value levels := by
  -- At each depth first the nodes that are no aliases, then the aliases, which refer to such nodes.
  have hscalar : ∀ levels p style s, d'.value levels (.scalar p style s) =
      d.value levels (.scalar p style s) := fun levels p style s => by
    funext left
    exact (value_scalar d' ..).trans (value_scalar d ..).symm
  have hall : ∀ levels, (∀ p items, d'.value levels (.sequence p items) =
      d.value levels (.sequence p items)) → (∀ p entries, d'.value levels (.mapping p entries) =
      d.value levels (.mapping p entries)) → d'.value levels = d.value levels := by
    intro levels hsequence hmapping
    have hothers : ∀ t, (∀ n, t ≠ .alias n) → d'.value levels t = d.value levels t := by
      intro t ht
      cases t with
      | «alias» n => exact absurd rfl (ht n)
      | scalar p style s => exact hscalar ..
      | sequence p items => exact hsequence ..
      | mapping p entries => exact hmapping ..
    funext t
    cases t with
    | «alias» n =>
      have hfollow : d'.follow (.alias n) = d.follow (.alias n) := by
        rw [follow, follow, h]
      rw [value_alias, value_alias, hfollow]
      refine bind_congr fun target => ?_
      cases target with
      | «alias» m => rfl
      | _ => exact hothers _ nofun
    | _ => exact hothers _ nofun
  induction levels with
  | zero =>
    refine hall 0 (fun p items => ?_) fun p entries => ?_
    · rw [value_zero_sequence, value_zero_sequence]
    · rw [value_zero_mapping, value_zero_mapping]
  | succ levels ih =>
    refine hall (levels + 1) (fun p items => ?_) fun p entries => ?_
    · rw [value_sequence, value_sequence, ih]
    · rw [value_mapping, value_mapping, ih]

/-- Adds an entry to those that have been read, unless its key is one of theirs. -/
def readEntry (d : Document) (levels : Nat) (read : Entries) (entry : Yaml.Tree Nat × Yaml.Tree Nat) :
    StateT Nat Option Entries := do
  let key ← d.value levels entry.1
  if read.any fun other => key.same other.1 then failure
  else do
    let value ← d.value levels entry.2
    return read ++ [(key, value)]

/-- Whether the keys of entries differ from those that have been read. -/
def fresh (read new : Entries) : Bool :=
  new.all fun e => !read.any fun other => e.1.same other.1

theorem fresh_append (a b new : Entries) : fresh (a ++ b) new = (fresh a new && fresh b new) := by
  induction new with
  | nil => rfl
  | cons e new ih =>
    have hcons : ∀ read : Entries, fresh read (e :: new) =
        (!(read.any fun other => e.1.same other.1) && fresh read new) := fun _ => List.all_cons
    rw [hcons, hcons, hcons, ih, List.any_append, Bool.not_or]
    ac_rfl

/-- Entries are the same whatever has been read before, if their keys differ. -/
theorem exists_foldlM_readEntry (d : Document) (levels : Nat)
    (entries : List (Yaml.Tree Nat × Yaml.Tree Nat)) :
    ∃ more : Nat → Option (Entries × Nat), ∀ (read : Entries) (left : Nat),
      (entries.foldlM (d.readEntry levels) read).run left = (more left).bind fun new =>
        if fresh read new.1 then some (read ++ new.1, new.2) else none := by
  induction entries with
  | nil =>
    refine ⟨fun left => some ([], left), fun read left => ?_⟩
    rw [List.foldlM_nil, Option.bind_some, List.append_nil]
    rfl
  | cons entry entries ih =>
    -- Two of the new entries may have the same key, whatever was read before; this is what `more`
    -- tells.  What was read before is left for the test.
    obtain ⟨more, hmore⟩ := ih
    refine ⟨fun left => ((d.value levels entry.1).run left).bind fun key =>
      ((d.value levels entry.2).run key.2).bind fun value =>
        (more value.2).bind fun new =>
          if fresh [(key.1, value.1)] new.1 then some ((key.1, value.1) :: new.1, new.2) else none,
      fun read left => ?_⟩
    have hstep : (d.readEntry levels read entry).run left =
        ((d.value levels entry.1).run left).bind fun key =>
          if read.any fun other => key.1.same other.1 then none
          else ((d.value levels entry.2).run key.2).bind fun value =>
            some (read ++ [(key.1, value.1)], value.2) := by
      rw [readEntry, StateT.run_bind]
      refine Option.bind_congr fun key hkey => ?_
      split <;> rfl
    rw [List.foldlM_cons, StateT.run_bind, hstep]
    simp only [Option.bind_eq_bind, Option.bind_assoc]
    refine Option.bind_congr fun key hkey => ?_
    cases hsame : read.any fun other => key.1.same other.1 with
    | true =>
      have hfresh : ∀ (value : Value) (new : Entries), fresh read ((key.1, value) :: new) = false :=
        fun value new => by simp only [fresh, List.all_cons, hsame, Bool.not_true, Bool.false_and]
      rw [if_pos rfl]
      cases (d.value levels entry.2).run key.2 with
      | none => rfl
      | some value =>
        cases hnew : more value.2 with
        | none => simp [hnew]
        | some new =>
          simp only [Option.bind_some, hnew]
          split <;> simp [hfresh]
    | false =>
      have hfresh : ∀ (value : Value) (new : Entries), fresh read ((key.1, value) :: new) =
          fresh read new := fun value new => by
        simp only [fresh, List.all_cons, hsame, Bool.not_false, Bool.true_and]
      have hsplit : ∀ (value : Value) (new : Entries), fresh (read ++ [(key.1, value)]) new =
          (fresh [(key.1, value)] new && fresh read new) := fun value new => by
        rw [fresh_append, Bool.and_comm]
      rw [if_neg Bool.false_ne_true, Option.bind_assoc]
      refine Option.bind_congr fun value hvalue => ?_
      rw [Option.bind_some, hmore]
      refine Option.bind_congr fun new hnew => ?_
      rw [hsplit]
      cases fresh [(key.1, value.1)] new.1 <;> simp [hfresh]

end Yaml.Document

namespace Outline

open Yaml.Document

/-- Values that are texts and collections. -/
def values : Maker Value := ⟨.text, .sequence, .mapping⟩

/-- Whether a key differs from those above and below it. -/
def keyIsNew (s : String) (above below : Entries) : Bool :=
  !(above.any fun e => (Value.text s).same e.1) && below.all fun e => !e.1.same (.text s)

/-- Whether a text may stand at a spot: as a key it must be none of those of its mapping. -/
def Around.admits (s : String) : {spot : Spot} → Around Value spot → Bool
  | _, .key above _ below => keyIsNew s above below
  | _, .behind _ => true
  | _, .inside _ within => within.admits s

section

variable (d : Document) (levels : Nat)

/-- A text as it is written in place means itself. -/
theorem run_value_text {s : String} (hs : Text.OrdinaryChars s.toList) (left : Nat) :
    (d.value levels ((plainTrees Nat).text s)).run left = some (.text s, left) :=
  value_quoted d levels left s (ofPlain?_of_inlineStyle hs)

/-- An entry of a mapping means the same whatever its key, if that differs from the other ones. -/
theorem exists_run_entry (above below : List (Yaml.Tree Nat × Yaml.Tree Nat)) :
    ∃ (front : Nat → Option (Entries × Nat)) (more : Entries → Nat → Option (Entries × Nat)),
      ∀ (key : String) (part : Yaml.Tree Nat) (left : Nat), Text.OrdinaryChars key.toList →
        (d.value (levels + 1)
            ((plainTrees Nat).mapping (above ++ ((plainTrees Nat).text key, part) :: below))).run left =
          (front left).bind fun above => ((d.value levels part).run above.2).bind fun part =>
            (more above.1 part.2).bind fun below =>
              if keyIsNew key above.1 below.1 then
                some (.mapping (above.1 ++ (.text key, part.1) :: below.1), below.2)
              else none := by
  -- What is above and below the key is read the same for all keys; only the tests ask for it.
  obtain ⟨more, hmore⟩ := exists_foldlM_readEntry d levels below
  refine ⟨fun left => (above.foldlM (d.readEntry levels) []).run left, fun read left =>
    (more left).filter fun new => fresh read new.1, fun key part left hkey => ?_⟩
  have hmapping : ∀ entries, d.value (levels + 1) (.mapping .none entries) = do
      let entries ← entries.foldlM (d.readEntry levels) []
      return .mapping entries := value_mapping d levels .none
  have hentry : ∀ (read : Entries) (left : Nat),
      (d.readEntry levels read ((plainTrees Nat).text key, part)).run left =
        if read.any fun e => (Value.text key).same e.1 then none
        else ((d.value levels part).run left).bind fun part =>
          some (read ++ [(.text key, part.1)], part.2) := by
    intro read left
    rw [readEntry, StateT.run_bind, run_value_text d levels hkey, Option.bind_eq_bind,
      Option.bind_some]
    split <;> rfl
  have hrun : (d.value (levels + 1) (.mapping .none
      (above ++ ((plainTrees Nat).text key, part) :: below))).run left =
      ((above.foldlM (d.readEntry levels) []).run left).bind fun above =>
        ((d.readEntry levels above.1 ((plainTrees Nat).text key, part)).run above.2).bind fun first =>
          ((below.foldlM (d.readEntry levels) first.1).run first.2).bind fun read =>
            some (.mapping read.1, read.2) := by
    rw [hmapping, StateT.run_bind, List.foldlM_append, StateT.run_bind, Option.bind_eq_bind,
      Option.bind_eq_bind, Option.bind_assoc]
    refine Option.bind_congr fun above _ => ?_
    rw [List.foldlM_cons, StateT.run_bind, Option.bind_eq_bind, Option.bind_assoc]
    rfl
  refine hrun.trans (Option.bind_congr fun above _ => ?_)
  rw [hentry]
  cases hsame : above.1.any fun e => (Value.text key).same e.1 with
  | true => simp [keyIsNew, hsame]
  | false =>
    rw [if_neg Bool.false_ne_true, Option.bind_assoc]
    refine Option.bind_congr fun part _ => ?_
    rw [Option.bind_some, hmore]
    dsimp only
    cases more part.2 with
    | none => rfl
    | some new =>
      have hnew : keyIsNew key above.1 new.1 = fresh [(.text key, part.1)] new.1 := by
        simp only [keyIsNew, hsame, fresh, List.any_cons, List.any_nil, Bool.or_false, Bool.not_false,
          Bool.true_and]
      have hall : fresh (above.1 ++ [(.text key, part.1)]) new.1 =
          (fresh above.1 new.1 && fresh [(.text key, part.1)] new.1) := fresh_append ..
      rw [Option.bind_some, Option.filter_some, hall, ← hnew]
      cases fresh above.1 new.1 <;> cases hadmits : keyIsNew key above.1 new.1 <;> simp [hadmits]

/-- The same for a given key. -/
theorem exists_run_field (above below : List (Yaml.Tree Nat × Yaml.Tree Nat)) {key : String}
    (hkey : Text.OrdinaryChars key.toList) :
    ∃ (front : Nat → Option (Entries × Nat)) (more : Entries → Nat → Option (Entries × Nat)),
      ∀ (part : Yaml.Tree Nat) (left : Nat),
        (d.value (levels + 1)
            ((plainTrees Nat).mapping (above ++ ((plainTrees Nat).text key, part) :: below))).run left =
          (front left).bind fun above => ((d.value levels part).run above.2).bind fun part =>
            (more above.1 part.2).map fun below =>
              (.mapping (above.1 ++ (.text key, part.1) :: below.1), below.2) := by
  obtain ⟨front, more, hmore⟩ := exists_run_entry d levels above below
  refine ⟨front, fun above left => (more above left).filter fun below => keyIsNew key above below.1,
    fun part left => (hmore key part left hkey).trans (Option.bind_congr fun above _ =>
      Option.bind_congr fun part _ => ?_)⟩
  dsimp only
  cases more above.1 part.2 with
  | none => rfl
  | some below =>
    rw [Option.bind_some, Option.filter_some]
    split <;> rfl

/-- An item of a sequence means the same whatever its neighbours. -/
theorem exists_run_item (above below : List (Yaml.Tree Nat)) :
    ∃ front more : Nat → Option (List Value × Nat), ∀ (part : Yaml.Tree Nat) (left : Nat),
      (d.value (levels + 1) ((plainTrees Nat).sequence (above ++ part :: below))).run left =
        (front left).bind fun above => ((d.value levels part).run above.2).bind fun part =>
          (more part.2).map fun below => (.sequence (above.1 ++ part.1 :: below.1), below.2) := by
  refine ⟨fun left => (above.mapM (d.value levels)).run left,
    fun left => (below.mapM (d.value levels)).run left, fun part left => ?_⟩
  have hsequence : ∀ items, d.value (levels + 1) (.sequence .none items) = do
      let items ← items.mapM (d.value levels)
      return .sequence items := value_sequence d levels .none
  refine (congrArg (·.run left) (hsequence _)).trans ?_
  dsimp only
  rw [StateT.run_bind, List.mapM_append, StateT.run_bind, Option.bind_eq_bind, Option.bind_eq_bind,
    Option.bind_assoc]
  refine Option.bind_congr fun above _ => ?_
  rw [StateT.run_bind, List.mapM_cons, StateT.run_bind]
  simp only [Option.bind_eq_bind, Option.bind_assoc]
  refine Option.bind_congr fun part _ => ?_
  rw [StateT.run_bind, Option.bind_eq_bind, Option.bind_assoc, Option.map_eq_bind]
  rfl

variable {d levels}

/-- A part of a block has its value between those of what stands beside it. -/
theorem Beside.exists_value {o : Opening} (beside : Beside (Yaml.Tree Nat) o) (ho : o.WellFormed) :
    ∃ (γ : Type) (levels' : Nat) (above : Nat → Option (γ × Nat))
      (value : γ → Nat → Option (Beside Value o × Nat)), ∀ part left,
      (d.value levels (beside.fill (plainTrees Nat) part)).run left =
        (above left).bind fun front => ((d.value levels' part).run front.2).bind fun first =>
          (value front.1 first.2).map fun read => (read.1.fill values first.1, read.2) := by
  -- Too few levels fail whatever the part is.
  have hnone : (∀ part left, (d.value levels (beside.fill (plainTrees Nat) part)).run left = none) →
      ∃ (γ : Type) (levels' : Nat) (above : Nat → Option (γ × Nat))
        (value : γ → Nat → Option (Beside Value o × Nat)), ∀ part left,
        (d.value levels (beside.fill (plainTrees Nat) part)).run left =
          (above left).bind fun front => ((d.value levels' part).run front.2).bind fun first =>
            (value front.1 first.2).map fun read => (read.1.fill values first.1, read.2) :=
    fun h => ⟨Unit, 0, fun _ => none, fun _ _ => none, h⟩
  cases beside with
  | colon above below =>
    cases levels with
    | zero => exact hnone fun part left => congrArg (·.run left) (value_zero_mapping ..)
    | succ levels =>
      obtain ⟨front, more, hmore⟩ := exists_run_field d levels above below ho.2
      refine ⟨_, levels, front, fun above left => (more above left).map fun below =>
        (.colon above below.1, below.2), fun part left => (hmore part left).trans ?_⟩
      simp only [Option.map_map, Function.comp_def]
      rfl
  | dash above below =>
    cases levels with
    | zero => exact hnone fun part left => congrArg (·.run left) (value_zero_sequence ..)
    | succ levels =>
      obtain ⟨front, more, hmore⟩ := exists_run_item d levels above below
      refine ⟨_, levels, front, fun above left => (more left).map fun below =>
        (.dash above below.1, below.2), fun part left => (hmore part left).trans ?_⟩
      simp only [Option.map_map, Function.comp_def]
      rfl
  | dashBelow above itemsAbove itemsBelow below =>
    match levels with
    | 0 => exact hnone fun part left => congrArg (·.run left) (value_zero_mapping ..)
    | 1 =>
      obtain ⟨front, more, hmore⟩ := exists_run_field d 0 above below ho.1.2
      refine hnone fun part left => (hmore _ left).trans ?_
      have hzero : ∀ left, (d.value 0
          ((plainTrees Nat).sequence (itemsAbove ++ part :: itemsBelow))).run left = none :=
        fun left => congrArg (·.run left) (value_zero_sequence ..)
      simp only [hzero, Option.bind_none, Option.bind_fun_none]
    | levels + 2 =>
      obtain ⟨front, more, hmore⟩ := exists_run_field d (levels + 1) above below ho.1.2
      obtain ⟨front', more', hmore'⟩ := exists_run_item d levels itemsAbove itemsBelow
      refine ⟨_, levels, fun left => (front left).bind fun above => (front' above.2).map fun items =>
        ((above.1, items.1), items.2), fun above left => (more' left).bind fun items =>
          (more above.1 items.2).map fun below =>
            (.dashBelow above.1 above.2 items.1 below.1, below.2),
        fun part left => (hmore _ left).trans ?_⟩
      simp only [hmore', Option.map_bind, Option.map_map, Option.bind_assoc, Option.bind_map,
        Function.comp_def]
      rfl

/-- What is around a text at a spot has the same value for all texts that may stand there. -/
theorem Around.exists_value {spot : Spot} (around : Around (Yaml.Tree Nat) spot)
    (hspot : spot.WellFormed) (left : Nat) :
    ∃ value : Option (Around Value spot × Nat), ∀ s, Text.OrdinaryChars s.toList →
      (d.value levels (around.fill (plainTrees Nat) s)).run left = value.bind fun read =>
        if read.1.admits s then some (read.1.fill values s, read.2) else none := by
  -- An opening takes a level, or two if it has a dash below a key, and hands on what is left.
  induction around generalizing levels left with
  | key above under below =>
    cases levels with
    | zero => exact ⟨none, fun s hs => congrArg (·.run left) (value_zero_mapping ..)⟩
    | succ levels =>
      obtain ⟨front, more, hmore⟩ := exists_run_entry d levels above below
      refine ⟨(front left).bind fun above => ((d.value levels under).run above.2).bind fun under =>
        (more above.1 under.2).map fun below => (.key above.1 under.1 below.1, below.2),
        fun s hs => (hmore s under left hs).trans ?_⟩
      simp only [Option.bind_assoc, Option.bind_map, Function.comp_def]
      rfl
  | behind beside =>
    obtain ⟨γ, levels', above, value, hvalue⟩ := @Beside.exists_value d levels _ beside hspot
    refine ⟨(above left).bind fun front => (value front.1 front.2).map fun read =>
      (.behind read.1, read.2), fun s hs => ?_⟩
    rw [Around.fill, hvalue]
    simp only [run_value_text d levels' hs, Option.bind_some, Option.bind_assoc, Option.map_eq_bind,
      Function.comp_def]
    rfl
  | inside beside within ih =>
    obtain ⟨γ, levels', above, value, hvalue⟩ := @Beside.exists_value d levels _ beside hspot.1
    cases habove : above left with
    | none => exact ⟨none, fun s hs => by rw [Around.fill, hvalue, habove]; rfl⟩
    | some front =>
      obtain ⟨inner, hinner⟩ := @ih levels' hspot.2 front.2
      refine ⟨inner.bind fun read => (value front.1 read.2).map fun beside =>
        (.inside beside.1 read.1, beside.2), fun s hs => ?_⟩
      rw [Around.fill, hvalue, habove, Option.bind_some, hinner s hs, Option.bind_assoc,
        Option.bind_assoc]
      refine Option.bind_congr fun read _ => ?_
      rw [Option.bind_map]
      cases hadmits : read.1.admits s <;>
        simp [Around.admits, Around.fill, hadmits, Option.map_eq_bind, Function.comp_def]

end

/-! ## Texts -/

/-- A stream with a text at a spot means the same for all texts that may stand there. -/
theorem Spot.exists_value {spot : Spot} (hspot : spot.WellFormed) (us : List Token) :
    ∃ value : Option (Around Value spot), ∀ (s : String) (text : List Char),
      Text.OrdinaryChars s.toList → Yaml.tokens? text = some (spot.tokens s ++ us) →
        Value.ofText? text = value.bind fun around =>
          if around.admits s then some (around.fill values s) else none := by
  obtain ⟨trees, hread⟩ := spot.exists_readStream? us
  have hdocument : ∀ {s : String} {text : List Char}, Yaml.tokens? text = some (spot.tokens s ++ us) →
      Document.ofText? text = trees.bind fun around =>
        ((around.fill (plainTrees String) s).number []).map fun root => Document.ofRoot root.1 := by
    intro s text htext
    rw [Document.ofText?, htext, Option.bind_eq_bind, Option.bind_some, hread]
    cases trees with
    | none => rfl
    | some around => exact (Option.map_eq_bind ..).symm
  cases trees with
  | none =>
    refine ⟨none, fun s text _ htext => ?_⟩
    rw [Value.ofText?, hdocument htext]
    rfl
  | some around =>
    obtain ⟨numbered, hnumber⟩ := around.exists_number []
    cases numbered with
    | none =>
      refine ⟨none, fun s text _ htext => ?_⟩
      rw [Value.ofText?, hdocument htext, Option.bind_some, hnumber]
      rfl
    | some numbered =>
      -- The anchors and the number of aliases that may be followed are those with the empty text.
      obtain ⟨value, hvalue⟩ := @Around.exists_value
        (.ofRoot (numbered.1.fill (plainTrees Nat) "")) Document.maxDepth spot numbered.1 hspot
        (Document.ofRoot (numbered.1.fill (plainTrees Nat) "")).allowance
      refine ⟨value.map (·.1), fun s text hs htext => ?_⟩
      obtain ⟨htargets, hallowance⟩ := numbered.1.ofRoot_fill "" s
      have hroot : (Document.ofRoot (numbered.1.fill (plainTrees Nat) s)).root =
          numbered.1.fill (plainTrees Nat) s := rfl
      rw [Value.ofText?, hdocument htext, Option.bind_some, hnumber, Option.map_some, Option.map_some,
        Option.bind_eq_bind, Option.bind_some, value_congr htargets, hallowance, hroot, hvalue s hs,
        Option.bind_map]
      cases value with
      | none => rfl
      | some read =>
        dsimp only [Option.bind_some, Function.comp_def]
        split <;> rfl

/-- A text of ordinary characters is read back as itself at each spot, whatever follows, as long as
the document can be read with some text there.  As a key it has at most 500 characters and is none of
the other keys of its mapping. -/
theorem Spot.text_reads_back {spot : Spot} {p s : String} {rest : List Char}
    (hspot : spot.WellFormed) (hrest : spot.endsBefore 0 rest = true)
    (hp : Text.OrdinaryChars p.toList)
    (h : (Value.ofText? (spot.text p 0 0 ++ rest)).isSome = true)
    (hs : Text.OrdinaryChars s.toList) (hlength : spot.isKey = true → s.toList.length ≤ 500)
    (hlines : spot.LinesUp p s rest) :
    ∃ around : Around Value spot,
      Value.ofText? (spot.text p 0 0 ++ rest) = some (around.fill values p) ∧
      (around.admits s = true →
        Value.ofText? (spot.text s 0 0 ++ rest) = some (around.fill values s)) := by
  obtain ⟨v, hv⟩ := Option.isSome_iff_exists.1 h
  obtain ⟨d, hd, -⟩ := Option.bind_eq_some_iff.1 hv
  obtain ⟨ts, hts, -⟩ := Option.bind_eq_some_iff.1 hd
  have hfits : spot.isKey = true → keyFits s = true := fun hkey =>
    keyFits_of_length hs (Nat.le_trans (hlength hkey) (by decide))
  -- With either text the same tokens follow, and so the same value is read around the spot.
  obtain ⟨us, rfl, htext⟩ := Spot.exists_tokens? hp hs hspot hrest hfits hlines hts
  obtain ⟨value, hvalue⟩ := Spot.exists_value hspot us
  rw [hvalue p _ hp hts] at hv
  obtain ⟨around, rfl, hread⟩ := Option.bind_eq_some_iff.1 hv
  have hadmits : around.admits p = true := by
    by_contra hnot
    rw [if_neg hnot] at hread
    cases hread
  refine ⟨around, ?_, fun hadmits' => ?_⟩
  · rw [hvalue p _ hp hts, Option.bind_some, if_pos hadmits]
  · rw [hvalue s _ hs htext, Option.bind_some, if_pos hadmits']

/-- The first key of an item, with another item above. -/
def itemKey : Spot := .inside (.dash 0 [.text "make"]) (.key 0 [])

/-- What follows that key: a list behind it, and one more item. -/
def belowItemKey : List Char := "\n  - 1\n- last\n".toList

/-- The word for null is a key like any other. -/
theorem text_reads_back_itemKey :
    itemKey.WellFormed ∧ itemKey.endsBefore 0 belowItemKey = true ∧
      Text.OrdinaryChars "x".toList ∧
      (Value.ofText? (itemKey.text "x" 0 0 ++ belowItemKey)).isSome = true ∧
      Text.OrdinaryChars "null".toList ∧ (itemKey.isKey = true → "null".toList.length ≤ 500) ∧
      itemKey.LinesUp "x" "null" belowItemKey ∧
      ∃ around : Around Value itemKey,
        Value.ofText? (itemKey.text "x" 0 0 ++ belowItemKey) = some (around.fill values "x") ∧
        (around.admits "null" = true →
          Value.ofText? (itemKey.text "null" 0 0 ++ belowItemKey) = some (around.fill values "null")) := by
  have hx : Text.OrdinaryChars "x".toList := by decide
  have hnull : Text.OrdinaryChars "null".toList := by decide
  have hitems : Sound 1 (.list [.text "make"]) := by
    refine .list (fun item hitem => ?_) fun item hitem => ?_
    · rw [List.mem_singleton.1 hitem]
      exact .text (by decide)
    · rw [List.mem_singleton.1 hitem]
      exact nofun
  have hlines : Sound 1 (.fields []) := .fields nofun nofun .nil nofun
  have hspot : itemKey.WellFormed := ⟨⟨1, hitems⟩, 1, hlines⟩
  have hrest : itemKey.endsBefore 0 belowItemKey = true := by decide
  have hread : (Value.ofText? (itemKey.text "x" 0 0 ++ belowItemKey)).isSome = true := by
    decide +kernel
  have hbreak : itemKey.LinesUp "x" "null" belowItemKey := fun _ => .inl (by decide)
  exact ⟨hspot, hrest, hx, hread, hnull, fun _ => by decide, hbreak,
    Spot.text_reads_back hspot hrest hx hread hnull (fun _ => by decide) hbreak⟩

end Outline
end CiPipelines
