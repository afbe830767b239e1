import CiPipelines.Json.Printer
import CiPipelines.Json.Reader

/-!
# Printed records are read back

A record that is printed as JSON is read as the value with the same texts, items and fields, in the
same order.  Strings come first: what is escaped is read back character by character.  The text of
a value tells where it ends, so each part is read back with any text behind it.
-/

namespace CiPipelines
namespace Json

/-! ## Strings -/

/-- The code of a control character is read back. -/
theorem hexNumber?_hexText : ∀ n < 32, Text.hexNumber? (Text.hexText 'a' 4 n) = some n := by
  decide

/-- A code below the surrogates stands for its character. -/
theorem addUnit_low (read : List Char) {unit : Nat} (h : unit < 32) :
    addUnit (some read) none unit = (some (Char.ofNat unit :: read), none) := by
  have hhigh : (0xD800 ≤ unit && unit ≤ 0xDBFF) = false := by
    simp
    omega
  have hlow : (0xDC00 ≤ unit && unit ≤ 0xDFFF) = false := by
    simp
    omega
  simp [addUnit, hhigh, hlow]

/-- A character is read back from its escape. -/
theorem readString_escape (read : List Char) (c : Char) (rest : List Char) :
    readString (some read) none (escape c ++ rest) = readString (some (c :: read)) none rest := by
  unfold escape
  split
  case h_8 hquote hslash hlineFeed hreturn htab hback hform =>
    split
    · rename_i hlow
      have hcode := hexNumber?_hexText c.toNat hlow
      obtain ⟨d₁, d₂, d₃, d₄, hdigits⟩ :
          ∃ d₁ d₂ d₃ d₄, Text.hexText 'a' 4 c.toNat = [d₁, d₂, d₃, d₄] := ⟨_, _, _, _, rfl⟩
      rw [hdigits] at hcode ⊢
      simp only [List.cons_append, List.nil_append]
      rw [readString.eq_3, hcode]
      simp only [addUnit_low read hlow, Char.ofNat_toNat]
    · rename_i hhigh
      rw [List.singleton_append, readString.eq_5 _ _ _ _ hquote
        (fun _ _ _ _ _ h => absurd h hslash) fun _ _ h => absurd h hslash]
      have hplain : (c == '\\') = false := beq_eq_false_iff_ne.2 hslash
      simp [hplain, hhigh, addChar]
  -- The escapes of one letter.
  all_goals
    rw [List.cons_append, List.cons_append, List.nil_append, readString.eq_4]
    <;> simp [escaped?, addChar]

/-- A string is read back after its opening quote. -/
theorem readString_escapeAll (read text rest : List Char) :
    readString (some read) none (escapeAll text ++ '"' :: rest) =
      some (some (String.ofList (read.reverse ++ text)), rest) := by
  induction text generalizing read with
  | nil => simp [escapeAll, readString]
  | cons c text ih =>
    have hsplit : escapeAll (c :: text) = escape c ++ escapeAll text := rfl
    rw [hsplit, List.append_assoc, readString_escape, ih]
    simp

theorem toList_quote (s : String) : (quote s).toList = '"' :: (escapeAll s.toList ++ ['"']) := by
  simp [quote]

/-! ## White space -/

theorem skipSpace_newLine (indent : Nat) (text : List Char) :
    skipSpace ((newLine indent).toList ++ text) = skipSpace text := by
  have hblank : ∀ n, skipSpace (List.replicate n ' ' ++ text) = skipSpace text := by
    intro n
    induction n with
    | zero => rfl
    | succ n ih => exact ih
  have hline : (newLine indent).toList = '\n' :: List.replicate indent ' ' := by simp [newLine]
  rw [hline]
  exact hblank indent

theorem skipSpace_of_not_space {c : Char} (h : isSpace c = false) (text : List Char) :
    skipSpace (c :: text) = c :: text := by
  rw [skipSpace, List.dropWhile_cons, h]
  rfl

/-! ## Values -/

mutual

/-- The value that a record is printed as. -/
def ofRecord : Record → Json
  | .text s => .string (some s)
  | .list items => .array (ofItems items)
  | .fields entries => .object (ofFields entries)

/-- The values of some items. -/
def ofItems : List Record → List Json
  | [] => []
  | item :: rest => ofRecord item :: ofItems rest

/-- The values of some fields. -/
def ofFields : List (String × Record) → List (Option String × Json)
  | [] => []
  | (key, value) :: rest => (some key, ofRecord value) :: ofFields rest

end

/-- A text is read back as a value, whatever comes after it. -/
def ReadsAs (text : List Char) (value : Json) : Prop :=
  ∀ fuel rest, 2 * text.length ≤ fuel → readValue fuel (text ++ rest) = some (value, rest)

/-- A printed record starts with a character that is neither white space nor the end of a list. -/
theorem exists_print (indent : Nat) (r : Record) : ∃ c text, (print indent r).toList = c :: text ∧
    isSpace c = false ∧ c ≠ ']' := by
  cases r with
  | text s => exact ⟨'"', _, by rw [print, toList_quote], by decide, by decide⟩
  | list items =>
    cases items with
    | nil => exact ⟨'[', _, by simp [print]; rfl, by decide, by decide⟩
    | cons item rest => exact ⟨'[', _, by simp [print]; rfl, by decide, by decide⟩
  | fields entries =>
    cases entries with
    | nil => exact ⟨'\x7b', _, by simp [print]; rfl, by decide, by decide⟩
    | cons entry rest => exact ⟨'\x7b', _, by simp [print]; rfl, by decide, by decide⟩

theorem skipSpace_print (indent : Nat) (r : Record) (rest : List Char) :
    skipSpace ((print indent r).toList ++ rest) = (print indent r).toList ++ rest := by
  obtain ⟨c, text, hprint, hspace, -⟩ := exists_print indent r
  rw [hprint, List.cons_append, skipSpace_of_not_space hspace]

/-- White space in front of a value does not matter. -/
theorem readValue_congr (fuel : Nat) {text other : List Char}
    (h : skipSpace text = skipSpace other) :
    readValue fuel text = readValue fuel other := by
  cases fuel with
  | zero => rw [readValue, readValue]
  | succ fuel => rw [readValue, readValue, h]

theorem readsAs_quote (s : String) : ReadsAs (quote s).toList (.string (some s)) := by
  intro fuel rest hfuel
  cases fuel with
  | zero => simp [toList_quote] at hfuel
  | succ fuel =>
    have hread := readString_escapeAll [] s.toList rest
    rw [readValue, toList_quote, List.cons_append, skipSpace_of_not_space (by decide),
      List.append_assoc, List.singleton_append]
    simp [hread]

/-- An item is read with what comes after it: the end of the list or more items. -/
theorem readItems_item {first : Bool} {fuel indent : Nat} {r : Record} {rest : List Char}
    (h : ReadsAs (print indent r).toList (ofRecord r))
    (hfuel : 2 * (print indent r).toList.length ≤ fuel) :
    readItems first (fuel + 1) ((newLine indent).toList ++ ((print indent r).toList ++ rest)) =
      match skipSpace rest with
      | ',' :: rest => do
        let (items, rest) ← readItems false fuel rest
        return (ofRecord r :: items, rest)
      | ']' :: rest => some ([ofRecord r], rest)
      | _ => none := by
  have hopen : ∀ more, first = true →
      skipSpace ((newLine indent).toList ++ ((print indent r).toList ++ rest)) = ']' :: more →
        False := by
    intro more _ hskip
    obtain ⟨c, text, hprint, -, hend⟩ := exists_print indent r
    rw [skipSpace_newLine, skipSpace_print, hprint] at hskip
    exact hend (List.cons.inj hskip).1
  rw [readItems.eq_3 _ _ _ hopen, skipSpace_newLine, skipSpace_print, h fuel rest hfuel]
  rfl

/-- The items of a list are read up to its end. -/
theorem readItems_print {indent : Nat} (outer : Nat) {items : List Record}
    (hitems : ∀ r ∈ items, ReadsAs (print indent r).toList (ofRecord r)) {item : Record}
    (hitem : ReadsAs (print indent item).toList (ofRecord item)) (first : Bool) (fuel : Nat)
    (rest : List Char)
    (hfuel : 2 * ((print indent item).toList.length + (printItems indent items).toList.length)
      < fuel) :
    readItems first fuel ((newLine indent).toList ++ ((print indent item).toList ++
      ((printItems indent items).toList ++ ((newLine outer).toList ++ ']' :: rest)))) =
        some (ofRecord item :: ofItems items, rest) := by
  obtain ⟨fuel, rfl⟩ := Nat.exists_eq_add_of_lt (Nat.lt_of_le_of_lt (Nat.zero_le _) hfuel)
  rw [Nat.zero_add]
  -- On the items that follow, as there is no comma in front of the first one.
  induction items generalizing item first fuel with
  | nil =>
    rw [readItems_item hitem (by omega)]
    have hend : skipSpace ((printItems indent []).toList ++ ((newLine outer).toList ++
        ']' :: rest)) = ']' :: rest := by
      rw [printItems, String.toList_empty, List.nil_append, skipSpace_newLine,
        skipSpace_of_not_space (by decide)]
    rw [hend]
    rfl
  | cons next items ih =>
    rw [readItems_item hitem (by omega)]
    have hnext : (printItems indent (next :: items)).toList = ',' :: ((newLine indent).toList ++
        ((print indent next).toList ++ (printItems indent items).toList)) := by
      simp [printItems]
    rw [hnext] at hfuel ⊢
    simp only [List.length_cons, List.length_append] at hfuel
    simp only [List.cons_append, List.append_assoc]
    rw [skipSpace_of_not_space (by decide)]
    obtain ⟨more, rfl⟩ : ∃ more, fuel = more + 1 := ⟨fuel - 1, by omega⟩
    have hrest := ih (fun r hr => hitems r (List.mem_cons_of_mem _ hr))
      (hitems next (List.mem_cons_self ..)) false more (by omega)
    simp [hrest, ofItems]

/-- A field is read with what comes after it: the end of the record or more fields. -/
theorem readEntries_entry {first : Bool} {fuel indent : Nat} {key : String} {r : Record}
    {rest : List Char} (h : ReadsAs (print indent r).toList (ofRecord r))
    (hfuel : 2 * (print indent r).toList.length ≤ fuel) :
    readEntries first (fuel + 1) ((newLine indent).toList ++ ((quote key).toList ++
      (':' :: ' ' :: ((print indent r).toList ++ rest)))) =
        match skipSpace rest with
        | ',' :: rest => do
          let (entries, rest) ← readEntries false fuel rest
          return ((some key, ofRecord r) :: entries, rest)
        | '\x7d' :: rest => some ([(some key, ofRecord r)], rest)
        | _ => none := by
  have hkey := readString_escapeAll [] key.toList (':' :: ' ' :: ((print indent r).toList ++ rest))
  have hvalue : readValue fuel (' ' :: ((print indent r).toList ++ rest)) =
      some (ofRecord r, rest) := by
    rw [← h fuel rest hfuel]
    exact readValue_congr fuel rfl
  have hskip : skipSpace ((newLine indent).toList ++ ((quote key).toList ++
      (':' :: ' ' :: ((print indent r).toList ++ rest)))) = '"' :: (escapeAll key.toList ++
        '"' :: ':' :: ' ' :: ((print indent r).toList ++ rest)) := by
    rw [skipSpace_newLine, toList_quote, List.cons_append, skipSpace_of_not_space (by decide)]
    simp
  have hcolon := skipSpace_of_not_space (show isSpace ':' = false by decide)
    (' ' :: ((print indent r).toList ++ rest))
  rw [readEntries.eq_3 _ _ _ _ hskip, hkey]
  simp only [hcolon, Option.bind_eq_bind, Option.bind_some, List.reverse_nil, List.nil_append,
    String.ofList_toList]
  refine (congrArg (Option.bind · _) hvalue).trans ?_
  rfl

/-- The fields of a record are read up to its end. -/
theorem readEntries_print {indent : Nat} (outer : Nat) {entries : List (String × Record)}
    (hentries : ∀ e ∈ entries, ReadsAs (print indent e.2).toList (ofRecord e.2)) (key : String)
    {value : Record} (hvalue : ReadsAs (print indent value).toList (ofRecord value)) (first : Bool)
    (fuel : Nat) (rest : List Char)
    (hfuel : 2 * ((print indent value).toList.length + (printFields indent entries).toList.length)
      < fuel) :
    readEntries first fuel ((newLine indent).toList ++ ((quote key).toList ++ (':' :: ' ' ::
      ((print indent value).toList ++ ((printFields indent entries).toList ++
        ((newLine outer).toList ++ '\x7d' :: rest)))))) =
          some ((some key, ofRecord value) :: ofFields entries, rest) := by
  obtain ⟨fuel, rfl⟩ := Nat.exists_eq_add_of_lt (Nat.lt_of_le_of_lt (Nat.zero_le _) hfuel)
  rw [Nat.zero_add]
  -- On the fields that follow: a comma in front of the next one tells that there is more.
  induction entries generalizing key value first fuel with
  | nil =>
    rw [readEntries_entry hvalue (by omega)]
    have hend : skipSpace ((printFields indent []).toList ++ ((newLine outer).toList ++
        '\x7d' :: rest)) = '\x7d' :: rest := by
      rw [printFields, String.toList_empty, List.nil_append, skipSpace_newLine,
        skipSpace_of_not_space (by decide)]
    rw [hend]
    rfl
  | cons next entries ih =>
    rw [readEntries_entry hvalue (by omega)]
    have hnext : (printFields indent (next :: entries)).toList = ',' :: ((newLine indent).toList ++
        ((quote next.1).toList ++ (':' :: ' ' :: ((print indent next.2).toList ++
          (printFields indent entries).toList)))) := by
      simp [printFields]
    rw [hnext] at hfuel ⊢
    simp only [List.length_cons, List.length_append] at hfuel
    simp only [List.cons_append, List.append_assoc]
    rw [skipSpace_of_not_space (by decide)]
    obtain ⟨more, rfl⟩ : ∃ more, fuel = more + 1 := ⟨fuel - 1, by omega⟩
    have hrest := ih (fun e he => hentries e (List.mem_cons_of_mem _ he)) next.1
      (hentries next (List.mem_cons_self ..)) false more (by omega)
    simp [hrest, ofFields]

/-- A list is read back if its items are. -/
theorem readsAs_list (indent : Nat) {items : List Record}
    (h : ∀ r ∈ items, ReadsAs (print (indent + 2) r).toList (ofRecord r)) :
    ReadsAs (print indent (.list items)).toList (.array (ofItems items)) := by
  intro fuel rest hfuel
  cases items with
  | nil =>
    obtain ⟨fuel, rfl⟩ : ∃ less, fuel = less + 2 := ⟨fuel - 2, by simp [print] at hfuel; omega⟩
    simp [print, readValue, readItems, skipSpace_of_not_space (show isSpace '[' = false by decide),
      skipSpace_of_not_space (show isSpace ']' = false by decide), ofItems]
  | cons item items =>
    have hprint : (print indent (.list (item :: items))).toList = '[' ::
        ((newLine (indent + 2)).toList ++ ((print (indent + 2) item).toList ++
          ((printItems (indent + 2) items).toList ++ ((newLine indent).toList ++ [']'])))) := by
      simp [print]
    rw [hprint] at hfuel ⊢
    simp only [List.length_cons, List.length_append] at hfuel
    obtain ⟨fuel, rfl⟩ : ∃ less, fuel = less + 1 := ⟨fuel - 1, by omega⟩
    have hread := readItems_print indent (fun r hr => h r (List.mem_cons_of_mem _ hr))
      (h item (List.mem_cons_self ..)) true fuel rest (by omega)
    simp only [List.cons_append, List.append_assoc, List.nil_append]
    rw [readValue, skipSpace_of_not_space (by decide)]
    simp [hread, ofItems]

/-- A record of fields is read back if its fields are. -/
theorem readsAs_fields (indent : Nat) {entries : List (String × Record)}
    (h : ∀ e ∈ entries, ReadsAs (print (indent + 2) e.2).toList (ofRecord e.2)) :
    ReadsAs (print indent (.fields entries)).toList (.object (ofFields entries)) := by
  intro fuel rest hfuel
  cases entries with
  | nil =>
    obtain ⟨fuel, rfl⟩ : ∃ less, fuel = less + 2 := ⟨fuel - 2, by simp [print] at hfuel; omega⟩
    simp [print, readValue, readEntries,
      skipSpace_of_not_space (show isSpace '\x7b' = false by decide),
      skipSpace_of_not_space (show isSpace '\x7d' = false by decide), ofFields]
  | cons entry entries =>
    have hprint : (print indent (.fields (entry :: entries))).toList = '\x7b' ::
        ((newLine (indent + 2)).toList ++ ((quote entry.1).toList ++ (':' :: ' ' ::
          ((print (indent + 2) entry.2).toList ++ ((printFields (indent + 2) entries).toList ++
            ((newLine indent).toList ++ ['\x7d'])))))) := by
      simp [print]
    rw [hprint] at hfuel ⊢
    simp only [List.length_cons, List.length_append] at hfuel
    obtain ⟨fuel, rfl⟩ : ∃ less, fuel = less + 1 := ⟨fuel - 1, by omega⟩
    have hread := readEntries_print indent (fun e he => h e (List.mem_cons_of_mem _ he))
      entry.1 (h entry (List.mem_cons_self ..)) true fuel rest (by omega)
    simp only [List.cons_append, List.append_assoc, List.nil_append]
    rw [readValue, skipSpace_of_not_space (by decide)]
    simp [hread, ofFields]

mutual

/-- A printed record is read back as its value. -/
theorem readsAs_print : ∀ (r : Record) (indent : Nat),
    ReadsAs (print indent r).toList (ofRecord r)
  | .text s, _ => readsAs_quote s
  | .list items, indent => readsAs_list indent (readsAs_items items (indent + 2))
  | .fields entries, indent => readsAs_fields indent (readsAs_entries entries (indent + 2))

theorem readsAs_items : ∀ (items : List Record) (indent : Nat),
    ∀ r ∈ items, ReadsAs (print indent r).toList (ofRecord r)
  | [], _ => nofun
  | item :: rest, indent =>
    List.forall_mem_cons.2 ⟨readsAs_print item indent, readsAs_items rest indent⟩

theorem readsAs_entries : ∀ (entries : List (String × Record)) (indent : Nat),
    ∀ e ∈ entries, ReadsAs (print indent e.2).toList (ofRecord e.2)
  | [], _ => nofun
  | (_, value) :: rest, indent =>
    List.forall_mem_cons.2 ⟨readsAs_print value indent, readsAs_entries rest indent⟩

end

/-- A text that is a printed record on lines of its own holds the value of the record. -/
theorem ofText?_print (r : Record) : ofText? (print 0 r ++ "\n").toList = some (ofRecord r) := by
  have htext : (print 0 r ++ "\n").toList = (print 0 r).toList ++ ['\n'] := by simp
  have hread := readsAs_print r 0 (2 * ((print 0 r).toList ++ ['\n']).length + 2) ['\n'] (by
    rw [List.length_append]
    omega)
  have hend : skipSpace ['\n'] = [] := by decide
  rw [ofText?, htext, hread]
  simp [hend]

end Json
end CiPipelines
