import CiPipelines.Proofs.KeyTables
import CiPipelines.Proofs.OutlineTokens

/-!
# Parts of printed outlines

Writers put documents together from pieces: fields, lists of texts, variables, empty lines.  `Part`
says of some lines what matters about them wherever they stand: that they can be read back, which
keys they have, and whether all keys in them are short enough.  `Items` and `Written` say the same of
the items of a list and of whole outlines.  There is a rule for each piece, so that a document is
judged piece by piece, as it is written.
-/

namespace CiPipelines

open Yaml

namespace Outline

/-! ## Keys -/

/-- An escape of an ordinary character takes at most two. -/
theorem length_escape_le {c : Char} (hc : Text.isOrdinary c = true) :
    (Json.escape c).length ≤ 2 := by
  unfold Json.escape
  split
  case h_8 hquote hslash hfeed hreturn htab hback hform =>
    have hhigh : ¬c.toNat < 0x20 := by
      intro hlow
      have htab' : c.toNat ≠ '\t'.toNat := fun h => htab (Char.toNat_inj.1 h)
      have hfeed' : c.toNat ≠ '\n'.toNat := fun h => hfeed (Char.toNat_inj.1 h)
      simp [Text.isOrdinary] at hc htab' hfeed'
      omega
    rw [if_neg hhigh]
    simp
  all_goals simp

theorem length_flatMap_le_two {α : Type} {text : List Char} {f : Char → List α}
    (h : ∀ c ∈ text, (f c).length ≤ 2) : (text.flatMap f).length ≤ 2 * text.length := by
  induction text with
  | nil => exact Nat.le_refl _
  | cons c text ih =>
    have hc := h c (List.mem_cons_self ..)
    have ih := ih fun d hd => h d (List.mem_cons_of_mem _ hd)
    rw [List.flatMap_cons, List.length_append, List.length_cons]
    omega

/-- A text of up to 511 ordinary characters is short enough as a key: at worst each of its
characters takes two. -/
theorem keyFits_of_length {key : String} (hkey : Text.OrdinaryChars key.toList)
    (hlength : key.toList.length ≤ 511) : keyFits key = true := by
  have hinline := inline_of_ordinary hkey
  rw [keyFits, decide_eq_true_eq]
  generalize (inline key).toList = written at hinline ⊢
  generalize inlineStyle key = style at hinline
  cases hinline with
  | plain hplain => omega
  | singleQuoted htext =>
    have hdouble : (doubleQuotes key.toList).length ≤ 2 * key.toList.length :=
      length_flatMap_le_two fun c hc => by split <;> simp
    simp only [List.length_cons, List.length_append, List.length_nil]
    omega
  | doubleQuoted htext =>
    have hescape : (Json.escapeAll key.toList).length ≤ 2 * key.toList.length :=
      length_flatMap_le_two fun c hc => length_escape_le (hkey c hc)
    simp only [List.length_cons, List.length_append, List.length_nil]
    omega

theorem length_le_flatMap {α : Type} {text : List Char} {f : Char → List α}
    (h : ∀ c ∈ text, 1 ≤ (f c).length) : text.length ≤ (text.flatMap f).length := by
  induction text with
  | nil => exact Nat.le_refl _
  | cons c text ih =>
    have hc := h c (List.mem_cons_self ..)
    have ih := ih fun d hd => h d (List.mem_cons_of_mem _ hd)
    rw [List.flatMap_cons, List.length_append, List.length_cons]
    omega

/-- A text of more than 1024 ordinary characters is too long as a key, however it is written. -/
theorem keyFits_of_long {key : String} (hkey : Text.OrdinaryChars key.toList)
    (hlength : 1024 < key.toList.length) : keyFits key = false := by
  have hinline := inline_of_ordinary hkey
  rw [keyFits, decide_eq_false_iff_not]
  generalize (inline key).toList = written at hinline ⊢
  generalize inlineStyle key = style at hinline
  cases hinline with
  | plain hplain => omega
  | singleQuoted htext =>
    have hdouble : key.toList.length ≤ (doubleQuotes key.toList).length :=
      length_le_flatMap fun c hc => by split <;> simp
    simp only [List.length_cons, List.length_append, List.length_nil]
    omega
  | doubleQuoted htext =>
    have hescape : key.toList.length ≤ (Json.escapeAll key.toList).length :=
      length_le_flatMap fun c hc => by
        unfold Json.escape
        split <;> try simp
        split <;> simp
    simp only [List.length_cons, List.length_append, List.length_nil]
    omega

theorem keyFits_longName : keyFits longName = false := by
  refine keyFits_of_long isKey_longName.ordinary.chars ?_
  rw [length_longName]
  decide

/-- A word of a format that is one of its keys: ordinary, no merge key and short. -/
def isFormatKey (key : String) : Bool :=
  key.toList.all Text.isOrdinary && key != "<<" && decide (key.toList.length ≤ 511)

theorem ordinary_of_isFormatKey {key : String} (h : isFormatKey key = true) :
    Text.OrdinaryChars key.toList ∧ key ≠ "<<" := by
  simp only [isFormatKey, Bool.and_eq_true, List.all_eq_true, bne_iff_ne] at h
  exact ⟨h.1.1, h.1.2⟩

theorem keyFits_of_isFormatKey {key : String} (h : isFormatKey key = true) :
    keyFits key = true := by
  refine keyFits_of_length (ordinary_of_isFormatKey h).1 ?_
  simp only [isFormatKey, Bool.and_eq_true, decide_eq_true_eq] at h
  exact h.2

/-! ## Sound lines -/

/-- Lines that make a sound mapping if their keys differ. -/
structure SoundLines (levels : Nat) (lines : List (Line Outline)) : Prop where
  bodies : ∀ key body, .field key body ∈ lines → Sound levels body
  keys : ∀ key body, .field key body ∈ lines → Text.OrdinaryChars key.toList ∧ key ≠ "<<"
  notes : ∀ note, .comment note ∈ lines → ∀ c ∈ note.toList,
    Text.isOrdinary c = true ∧ isBreak c = false

section

variable {levels : Nat} {lines a b : List (Line Outline)}

/-- Different keys make a sound mapping. -/
theorem SoundLines.fields (h : SoundLines levels lines) (hnodup : (lineKeys lines).Nodup) :
    Sound (levels + 1) (.fields lines) :=
  .fields h.bodies h.keys hnodup h.notes

theorem soundLines_nil : SoundLines levels [] :=
  ⟨fun _ _ h => absurd h List.not_mem_nil, fun _ _ h => absurd h List.not_mem_nil,
    fun _ h => absurd h List.not_mem_nil⟩

theorem SoundLines.append (ha : SoundLines levels a) (hb : SoundLines levels b) :
    SoundLines levels (a ++ b) := by
  refine ⟨fun key body h => ?_, fun key body h => ?_, fun note h => ?_⟩
  · exact (List.mem_append.1 h).elim (ha.bodies key body) (hb.bodies key body)
  · exact (List.mem_append.1 h).elim (ha.keys key body) (hb.keys key body)
  · exact (List.mem_append.1 h).elim (ha.notes note) (hb.notes note)

theorem soundLines_field {key : String} {body : Outline} (hkey : Text.OrdinaryChars key.toList)
    (hmerge : key ≠ "<<") (hbody : Sound levels body) : SoundLines levels [.field key body] := by
  refine ⟨fun key' body' h => ?_, fun key' body' h => ?_, fun note h => ?_⟩
  · obtain ⟨-, rfl⟩ := Line.field.inj (List.mem_singleton.1 h)
    exact hbody
  · obtain ⟨rfl, -⟩ := Line.field.inj (List.mem_singleton.1 h)
    exact ⟨hkey, hmerge⟩
  · exact absurd (List.mem_singleton.1 h) nofun

theorem soundLines_empty : SoundLines levels [.empty] :=
  ⟨fun _ _ h => absurd (List.mem_singleton.1 h) nofun,
    fun _ _ h => absurd (List.mem_singleton.1 h) nofun,
    fun _ h => absurd (List.mem_singleton.1 h) nofun⟩

/-- A comment is ordinary text on one line. -/
theorem soundLines_comment {note : String}
    (h : ∀ c ∈ note.toList, Text.isOrdinary c = true ∧ c ≠ '\n') :
    SoundLines levels [.comment note] := by
  refine ⟨fun _ _ hmem => absurd (List.mem_singleton.1 hmem) nofun,
    fun _ _ hmem => absurd (List.mem_singleton.1 hmem) nofun, fun other hmem c hc => ?_⟩
  obtain rfl := Line.comment.inj (List.mem_singleton.1 hmem)
  obtain ⟨hordinary, hne⟩ := h c hc
  exact ⟨hordinary, by rw [Text.isBreak_of_isOrdinary hordinary, beq_eq_false_iff_ne]; exact hne⟩

/-- Empty lines between the lines change nothing. -/
theorem SoundLines.intersperse (h : SoundLines levels lines) :
    SoundLines levels (lines.intersperse .empty) := by
  have hmem : ∀ line, line ∈ lines.intersperse .empty → line = .empty ∨ line ∈ lines := by
    fun_induction List.intersperse Line.empty lines with
    | case1 => exact fun line hline => .inr hline
    | case2 line => exact fun line hline => .inr hline
    | case3 line lines hne ih =>
      intro found hfound
      have ih := ih ⟨fun key body hmem => h.bodies key body (List.mem_cons_of_mem _ hmem),
        fun key body hmem => h.keys key body (List.mem_cons_of_mem _ hmem),
        fun note hmem => h.notes note (List.mem_cons_of_mem _ hmem)⟩ found
      rcases List.mem_cons.1 hfound with rfl | hfound
      · exact .inr (List.mem_cons_self ..)
      · rcases List.mem_cons.1 hfound with rfl | hfound
        · exact .inl rfl
        · exact (ih hfound).imp_right (List.mem_cons_of_mem _)
  refine ⟨fun key body hline => ?_, fun key body hline => ?_, fun note hline => ?_⟩
  · exact h.bodies key body ((hmem _ hline).resolve_left nofun)
  · exact h.keys key body ((hmem _ hline).resolve_left nofun)
  · exact h.notes note ((hmem _ hline).resolve_left nofun)

end

/-! ## Keys of lines -/

theorem lineKeys_append (a b : List (Line Outline)) :
    lineKeys (a ++ b) = lineKeys a ++ lineKeys b :=
  List.filterMap_append ..

theorem linesFit_append (a b : List (Line Outline)) :
    linesFit (a ++ b) = (linesFit a && linesFit b) := by
  induction a with
  | nil => rfl
  | cons line a ih => cases line <;> simp [linesFit, ih, Bool.and_assoc]

theorem lineKeys_intersperse (lines : List (Line Outline)) :
    lineKeys (lines.intersperse .empty) = lineKeys lines := by
  fun_induction List.intersperse Line.empty lines with
  | case1 => rfl
  | case2 line => rfl
  | case3 line lines hne ih =>
    have hkeys : lineKeys (line :: .empty :: lines.intersperse .empty) =
        lineKeys [line] ++ lineKeys (lines.intersperse .empty) :=
      lineKeys_append [line] _
    rw [hkeys, ih, ← lineKeys_append]
    rfl

theorem linesFit_intersperse (lines : List (Line Outline)) :
    linesFit (lines.intersperse .empty) = linesFit lines := by
  fun_induction List.intersperse Line.empty lines with
  | case1 => rfl
  | case2 line => rfl
  | case3 line lines hne ih => cases line <;> simp [linesFit, ih]

theorem itemsFit_eq_all (items : List Outline) : itemsFit items = items.all keysFit := by
  induction items with
  | nil => rfl
  | cons item items ih => rw [itemsFit, ih, List.all_cons]

/-! ## Outlines, lines and items -/

/-- An outline that can be read back if `fits`, which says whether all its keys are short enough. -/
structure Written (levels : Nat) (fits : Bool) (o : Outline) : Prop where
  sound : Sound levels o
  keysFit_eq : o.keysFit = fits

/-- Some lines of a mapping.  They have keys from `keys`, in that order, and `fits` says whether all
keys in them are short enough. -/
structure Part (levels : Nat) (keys : List String) (fits : Bool) (lines : List (Line Outline)) :
    Prop where
  sound : SoundLines levels lines
  sublist : (lineKeys lines).Sublist keys
  linesFit_eq : linesFit lines = fits

/-- Some items of a list; `fits` says whether all keys in them are short enough. -/
structure Items (levels : Nat) (fits : Bool) (items : List Outline) : Prop where
  sound : ∀ item ∈ items, Sound levels item
  ne_fields_nil : ∀ item ∈ items, item ≠ .fields []
  all_eq : items.all keysFit = fits

section

variable {levels : Nat} {fits : Bool} {s : String}

theorem Written.nothing : Written levels true .nothing := ⟨.nothing, rfl⟩

theorem Written.word {w : String} (h : IsWord w) : Written (levels + 1) true (.word w) :=
  ⟨.word h, rfl⟩

theorem Written.text (hs : Text.Ordinary s) : Written levels true (.text s) := ⟨.text hs.chars, rfl⟩

theorem Written.value (hs : Text.Ordinary s) : Written levels true (.value s) := ⟨.value hs, rfl⟩

theorem Part.fields {keys : List String} {lines : List (Line Outline)}
    (h : Part levels keys fits lines) (hkeys : keys.Nodup) :
    Written (levels + 1) fits (.fields lines) :=
  ⟨h.sound.fields (h.sublist.nodup hkeys), h.linesFit_eq⟩

theorem Items.list {items : List Outline} (h : Items levels fits items) :
    Written (levels + 1) fits (.list items) :=
  ⟨.list h.sound h.ne_fields_nil, (itemsFit_eq_all items).trans h.all_eq⟩

end

/-! ## Rules for lines -/

namespace Part

section

variable {levels : Nat} {keys keys' : List String} {fits fits' : Bool}
  {lines lines' : List (Line Outline)} {key : String}

theorem mono (h : Part levels keys fits lines) (hkeys : keys.Sublist keys') :
    Part levels keys' fits lines :=
  ⟨h.sound, h.sublist.trans hkeys, h.linesFit_eq⟩

theorem of_eq (h : Part levels keys fits lines) (heq : fits = fits') :
    Part levels keys fits' lines :=
  heq ▸ h

/-- Lines that are not there. -/
theorem absent : Part levels keys true [] := ⟨soundLines_nil, List.nil_sublist _, rfl⟩

theorem append (h : Part levels keys fits lines) (h' : Part levels keys' fits' lines') :
    Part levels (keys ++ keys') (fits && fits') (lines ++ lines') := by
  refine ⟨h.sound.append h'.sound, ?_, ?_⟩
  · rw [lineKeys_append]
    exact h.sublist.append h'.sublist
  · rw [linesFit_append, h.linesFit_eq, h'.linesFit_eq]

/-- Lines that depend on a condition. -/
theorem choice {condition : Prop} [Decidable condition]
    (h : condition → Part levels keys fits lines)
    (h' : ¬condition → Part levels keys fits lines') :
    Part levels keys fits (if condition then lines else lines') := by
  by_cases hcondition : condition
  · rw [if_pos hcondition]
    exact h hcondition
  · rw [if_neg hcondition]
    exact h' hcondition

theorem empty : Part levels [] true [.empty] := ⟨soundLines_empty, List.nil_sublist _, rfl⟩

/-- An empty line in front of some lines. -/
theorem behindEmpty (h : Part levels keys fits lines) : Part levels keys fits (.empty :: lines) :=
  (empty.append h).of_eq (Bool.true_and fits)

theorem comment {note : String} (h : ∀ c ∈ note.toList, Text.isOrdinary c = true ∧ c ≠ '\n') :
    Part levels [] true [.comment note] :=
  ⟨soundLines_comment h, List.nil_sublist _, rfl⟩

/-- A field under a key of any length. -/
theorem field {body : Outline} (hkey : Text.OrdinaryChars key.toList) (hmerge : key ≠ "<<")
    (hbody : Written levels fits body) :
    Part levels [key] (keyFits key && fits) [.field key body] := by
  refine ⟨soundLines_field hkey hmerge hbody.sound, List.Sublist.refl _, ?_⟩
  rw [linesFit, hbody.keysFit_eq, linesFit, Bool.and_true]

/-- A field under a short key. -/
theorem shortField {body : Outline} (hkey : Text.OrdinaryChars key.toList) (hmerge : key ≠ "<<")
    (hfits : keyFits key = true) (hbody : Written levels fits body) :
    Part levels [key] fits [.field key body] :=
  (field hkey hmerge hbody).of_eq (by rw [hfits, Bool.true_and])

/-- A field under a key of the format. -/
theorem formatField {body : Outline} (hkey : isFormatKey key = true)
    (hbody : Written levels fits body) : Part levels [key] fits [.field key body] :=
  shortField (ordinary_of_isFormatKey hkey).1 (ordinary_of_isFormatKey hkey).2
    (keyFits_of_isFormatKey hkey) hbody

theorem textField {s : Option String} (hkey : isFormatKey key = true)
    (hs : ∀ t ∈ s, Text.Ordinary t) : Part levels [key] true (textField key s) := by
  cases s with
  | none => exact absent
  | some s => exact formatField hkey (.text (hs s rfl))

theorem valueField {s : Option String} (hkey : isFormatKey key = true)
    (hs : ∀ t ∈ s, Text.Ordinary t) : Part levels [key] true (valueField key s) := by
  cases s with
  | none => exact absent
  | some s => exact formatField hkey (.value (hs s rfl))

/-- A line or more for each of some values, under a key of its own. -/
theorem flatMap {α : Type} {xs : List α} {name : α → String} {short : α → Bool}
    {f : α → List (Line Outline)} (h : ∀ x ∈ xs, Part levels [name x] (short x) (f x)) :
    Part levels (xs.map name) (xs.all short) (xs.flatMap f) := by
  induction xs with
  | nil => exact absent
  | cons x xs ih =>
    exact (h x (List.mem_cons_self ..)).append (ih fun y hy => h y (List.mem_cons_of_mem _ hy))

/-- A field for each of some values. -/
theorem map {α : Type} {xs : List α} {name : α → String} {short : α → Bool}
    {f : α → Line Outline} (h : ∀ x ∈ xs, Part levels [name x] (short x) [f x]) :
    Part levels (xs.map name) (xs.all short) (xs.map f) := by
  have hlines : xs.map f = xs.flatMap fun x => [f x] := List.map_eq_flatMap
  rw [hlines]
  exact flatMap h

/-- A field with short keys for each of some values. -/
theorem shortMap {α : Type} {xs : List α} {name : α → String} {f : α → Line Outline}
    (h : ∀ x ∈ xs, Part levels [name x] true [f x]) :
    Part levels (xs.map name) true (xs.map f) :=
  (map h).of_eq (List.all_eq_true.2 fun _ _ => rfl)

theorem intersperse (h : Part levels keys fits lines) :
    Part levels keys fits (lines.intersperse .empty) := by
  refine ⟨h.sound.intersperse, ?_, ?_⟩
  · rw [lineKeys_intersperse]
    exact h.sublist
  · rw [linesFit_intersperse]
    exact h.linesFit_eq

end

end Part

/-! ## Rules for items -/

namespace Items

variable {levels : Nat} {fits fits' : Bool} {items items' : List Outline} {α : Type} {xs : List α}

theorem of_eq (h : Items levels fits items) (heq : fits = fits') : Items levels fits' items :=
  heq ▸ h

theorem nil : Items levels true [] :=
  ⟨fun _ h => absurd h List.not_mem_nil, fun _ h => absurd h List.not_mem_nil, rfl⟩

theorem append (h : Items levels fits items) (h' : Items levels fits' items') :
    Items levels (fits && fits') (items ++ items') := by
  refine ⟨fun item hitem => ?_, fun item hitem => ?_, ?_⟩
  · exact (List.mem_append.1 hitem).elim (h.sound item) (h'.sound item)
  · exact (List.mem_append.1 hitem).elim (h.ne_fields_nil item) (h'.ne_fields_nil item)
  · rw [List.all_append, h.all_eq, h'.all_eq]

theorem single {item : Outline} (h : Written levels fits item) (hne : item ≠ .fields []) :
    Items levels fits [item] := by
  refine ⟨fun other hother => ?_, fun other hother => ?_, ?_⟩
  · exact List.mem_singleton.1 hother ▸ h.sound
  · exact List.mem_singleton.1 hother ▸ hne
  · rw [List.all_cons, h.keysFit_eq, List.all_nil, Bool.and_true]

theorem text {s : String} (hs : Text.Ordinary s) : Items levels true [.text s] :=
  single (.text hs) nofun

/-- An item with some fields, of which there is at least one. -/
theorem fields {keys : List String} {lines : List (Line Outline)} (h : Part levels keys fits lines)
    (hkeys : keys.Nodup) (hne : lines ≠ []) : Items (levels + 1) fits [.fields lines] :=
  single (h.fields hkeys) fun heq => hne (Outline.fields.inj heq)

/-- Items for each of some values. -/
theorem flatMap {short : α → Bool} {f : α → List Outline}
    (h : ∀ x ∈ xs, Items levels (short x) (f x)) :
    Items levels (xs.all short) (xs.flatMap f) := by
  induction xs with
  | nil => exact nil
  | cons x xs ih =>
    exact (h x (List.mem_cons_self ..)).append (ih fun y hy => h y (List.mem_cons_of_mem _ hy))

/-- An item for each of some values. -/
theorem map {short : α → Bool} {f : α → Outline} (h : ∀ x ∈ xs, Items levels (short x) [f x]) :
    Items levels (xs.all short) (xs.map f) := by
  rw [List.map_eq_flatMap]
  exact flatMap h

/-- Items with short keys for each of some values. -/
theorem shortFlatMap {f : α → List Outline} (h : ∀ x ∈ xs, Items levels true (f x)) :
    Items levels true (xs.flatMap f) :=
  (flatMap h).of_eq (List.all_eq_true.2 fun _ _ => rfl)

/-- An item with short keys for each of some values. -/
theorem shortMap {f : α → Outline} (h : ∀ x ∈ xs, Items levels true [f x]) :
    Items levels true (xs.map f) :=
  (map h).of_eq (List.all_eq_true.2 fun _ _ => rfl)

/-- Items with short keys, judged one by one. -/
theorem short (h : ∀ item ∈ items, Items levels true [item]) : Items levels true items := by
  have hitems : Items levels true (items.map id) := shortMap h
  rwa [List.map_id] at hitems

theorem texts {texts : List String} (h : ∀ s ∈ texts, Text.Ordinary s) :
    Items levels true (texts.map .text) :=
  shortMap fun s hs => text (h s hs)

theorem values {texts : List String} (h : ∀ s ∈ texts, Text.Ordinary s) :
    Items levels true (texts.map .value) :=
  shortMap fun s hs => single (.value (h s hs)) nofun

end Items

/-! ## Lists of texts and variables -/

/-- Variables that can be written as fields. -/
structure SoundVars (vars : Vars) : Prop where
  names : ∀ name ∈ vars.names, Text.Ordinary name ∧ name ≠ "<<"
  values : ∀ entry ∈ vars.entries, Text.Ordinary entry.2

/-- Some variables and an empty line; nothing if there are no variables. -/
def varsParagraph (key : String) (vars : Vars) : List (Line Outline) :=
  if vars.isEmpty then [] else varsField key vars ++ [.empty]

namespace Part

variable {levels : Nat} {key : String} {items : List String} {vars : Vars}

theorem listField (hkey : isFormatKey key = true) (hitems : ∀ s ∈ items, Text.Ordinary s) :
    Part (levels + 1) [key] true (listField key items) :=
  choice (fun _ => absent) fun _ => formatField hkey (Items.texts hitems).list

theorem varLines (hvars : SoundVars vars) :
    Part levels vars.names (vars.names.all keyFits) (varLines vars) := by
  rw [Vars.names, List.all_map]
  refine map fun entry hentry => ?_
  have hname := hvars.names entry.1 (List.mem_map_of_mem hentry)
  exact (field hname.1.chars hname.2 (.value (hvars.values entry hentry))).of_eq (Bool.and_true _)

theorem varsField (hkey : isFormatKey key = true) (hvars : SoundVars vars) :
    Part (levels + 1) [key] (vars.names.all keyFits) (varsField key vars) := by
  refine choice (fun hempty => ?_) fun _ => formatField hkey ((varLines hvars).fields vars.nodup)
  have hentries : vars.entries = [] := List.isEmpty_iff.1 hempty
  rw [Vars.names, hentries]
  exact absent

theorem varsParagraph (hkey : isFormatKey key = true) (hvars : SoundVars vars) :
    Part (levels + 1) [key] (vars.names.all keyFits) (varsParagraph key vars) := by
  refine choice (fun hempty => ?_) fun _ => ?_
  · have hentries : vars.entries = [] := List.isEmpty_iff.1 hempty
    rw [Vars.names, hentries]
    exact absent
  · exact ((varsField hkey hvars).append empty).of_eq (Bool.and_true _)

end Part

end Outline
end CiPipelines
