import CiPipelines.Jenkins.Reader
import CiPipelines.Jenkins.Writer
import CiPipelines.Proofs.Lines

/-!
# Lines of a Jenkinsfile are read back

Each line that is written for a variable, an image or a command of one line is read as what it was
written for.  A command of several lines stands between fences with more indentation than it has of
its own; what the lines share of it is taken away again, and with it what they share of their own.
-/

namespace CiPipelines

namespace Jenkins

/-! ## Escaped text -/

/-- An escaped text does not start with a quote. -/
theorem head?_escape (text : List Char) : (escape text).head? ≠ some '\'' := by
  cases text with
  | nil => simp [escape]
  | cons c rest =>
    rw [escape]
    split
    · simp
    · rename_i h
      simpa using fun heq => h (.inl heq)

theorem escape_append (a b : List Char) : escape (a ++ b) = escape a ++ escape b := by
  induction a with
  | nil => rfl
  | cons c a ih =>
    rw [List.cons_append, escape, escape, ih]
    split <;> rfl

theorem escape_cons_of_isSpace {c : Char} (h : Text.isSpace c = true) (rest : List Char) :
    escape (c :: rest) = c :: escape rest := by
  rw [escape, if_neg]
  rintro (rfl | rfl)
  · exact absurd h (by decide)
  · exact absurd h (by decide)

theorem mem_escape {text : List Char} {c : Char} (h : c ∈ escape text) : c ∈ text ∨ c = '\\' := by
  induction text with
  | nil => exact absurd h List.not_mem_nil
  | cons d rest ih =>
    rw [escape] at h
    split at h
    · rcases List.mem_cons.1 h with rfl | h
      · exact .inr rfl
      · rcases List.mem_cons.1 h with rfl | h
        · exact .inl (List.mem_cons_self ..)
        · exact (ih h).imp_left (List.mem_cons_of_mem _)
    · rcases List.mem_cons.1 h with rfl | h
      · exact .inl (List.mem_cons_self ..)
      · exact (ih h).imp_left (List.mem_cons_of_mem _)

theorem escape_ne_nil {text : List Char} (h : text ≠ []) : escape text ≠ [] := by
  obtain ⟨c, rest, rfl⟩ := List.exists_cons_of_ne_nil h
  rw [escape]
  split <;> simp

/-- White space at the start of a text is not escaped. -/
theorem takeWhile_escape (text : List Char) :
    (escape text).takeWhile Text.isSpace = text.takeWhile Text.isSpace := by
  induction text with
  | nil => rfl
  | cons c rest ih =>
    by_cases hspace : Text.isSpace c = true
    · rw [escape_cons_of_isSpace hspace, List.takeWhile_cons, List.takeWhile_cons, hspace,
        if_pos rfl, if_pos rfl, ih]
    · rw [List.takeWhile_cons, if_neg hspace, escape]
      split
      · rfl
      · rw [List.takeWhile_cons, if_neg hspace]

theorem drop_escape {text : List Char} {n : Nat}
    (h : n ≤ (text.takeWhile Text.isSpace).length) :
    (escape text).drop n = escape (text.drop n) := by
  induction n generalizing text with
  | zero => rfl
  | succ n ih =>
    cases text with
    | nil => rfl
    | cons c rest =>
      rw [List.takeWhile_cons] at h
      split at h
      · rename_i hspace
        rw [escape_cons_of_isSpace hspace, List.drop_succ_cons, List.drop_succ_cons]
        exact ih (Nat.le_of_succ_le_succ h)
      · exact absurd h (Nat.not_succ_le_zero n)

/-- Escaped text between quotes is read up to the last quote. -/
theorem singleInside?_escape (text : List Char) :
    singleInside? (escape text ++ ['\'']) = some (escape text) := by
  induction text with
  | nil => rfl
  | cons c rest ih =>
    rw [escape]
    split
    · rw [List.cons_append, List.cons_append]
      show (singleInside? (escape rest ++ ['\''])).map _ = _
      rw [ih]
      rfl
    · rename_i h
      rw [not_or] at h
      simp [singleInside?, h.1, h.2, ih]

theorem quote_toList (s : String) : (quote s).toList = '\'' :: (escape s.toList ++ ['\'']) := by
  rw [quote, String.toList_append, String.toList_append, @String.toList_ofList (escape s.toList)]
  rfl

/-! ## Variables and images -/

/-- A name of a variable: letters, digits and underscores, and no digit at its start. -/
def IsVariableName (name : String) : Prop :=
  name.toList.all isNameChar = true ∧ (name.toList.head?.any fun c => !c.isDigit) = true

instance (name : String) : Decidable (IsVariableName name) :=
  inferInstanceAs (Decidable (_ ∧ _))

theorem IsVariableName.chars {name : String} (h : IsVariableName name) :
    ∀ c ∈ name.toList, isNameChar c = true := List.all_eq_true.1 h.1

theorem IsVariableName.start {name : String} (h : IsVariableName name) :
    ∃ c rest, name.toList = c :: rest ∧ c.isDigit = false := by
  obtain ⟨-, hstart⟩ := h
  cases hlist : name.toList with
  | nil => simp [hlist] at hstart
  | cons c rest => exact ⟨c, rest, rfl, by simpa [hlist] using hstart⟩

/-- The line of a variable is read back. -/
theorem assignment?_line {name : String} (h : IsVariableName name) (value : String) :
    assignment? (name.toList ++ " = ".toList ++ (quote value).toList) = some (name, value) := by
  obtain ⟨first, rest, hname, hdigit⟩ := h.start
  have htake : (name.toList ++ " = ".toList ++ (quote value).toList).takeWhile isNameChar =
      name.toList := by
    rw [List.append_assoc, List.takeWhile_append_of_pos h.chars]
    exact List.append_nil _
  have hdrop : (name.toList ++ " = ".toList ++ (quote value).toList).drop name.toList.length =
      " = ".toList ++ (quote value).toList := by
    rw [List.append_assoc, List.drop_left]
  have hrest : skipSpace (" = ".toList ++ (quote value).toList) =
      '=' :: ' ' :: (quote value).toList := rfl
  have hskip : skipSpace (' ' :: (quote value).toList) = (quote value).toList := by
    rw [quote_toList]
    rfl
  have hvalue : variableValue? (quote value).toList = some value.toList := by
    rw [quote_toList, variableValue?, singleInside?_escape, Option.map_some, unescape_escape]
    rfl
  unfold assignment?
  rw [htake]
  dsimp only
  rw [hdrop, hrest, hname]
  simp only [hdigit, Bool.false_eq_true, if_false, hskip, hvalue, Option.map_some,
    String.ofList_toList]
  rw [← hname, String.ofList_toList]

theorem escape_of_plain {text : List Char} (h : ∀ c ∈ text, c ≠ '\'' ∧ c ≠ '\\') :
    escape text = text := by
  induction text with
  | nil => rfl
  | cons c rest ih =>
    rw [escape, if_neg fun hmark => hmark.elim (h c (List.mem_cons_self ..)).1
      (h c (List.mem_cons_self ..)).2, ih fun d hd => h d (List.mem_cons_of_mem _ hd)]

/-- The line of an image without quotes and backslashes is read back. -/
theorem dockerImage?_line {image : String}
    (hplain : ∀ c ∈ image.toList, isQuote c = false ∧ c ≠ '\\') (hne : image.toList ≠ []) :
    dockerImage? ("image ".toList ++ (quote image).toList) = some image := by
  have hescape : escape image.toList = image.toList := by
    refine escape_of_plain fun c hc => ⟨?_, (hplain c hc).2⟩
    rintro rfl
    exact absurd (hplain _ hc).1 (by decide)
  have hword : dropStart? "image" ("image ".toList ++ (quote image).toList) =
      some (' ' :: (quote image).toList) := rfl
  have hskip : skipSpace (' ' :: (quote image).toList) = (quote image).toList := by
    rw [quote_toList]
    rfl
  have htake : (image.toList ++ ['\'']).takeWhile (fun c => !isQuote c) = image.toList := by
    rw [List.takeWhile_append_of_pos fun c hc => by rw [(hplain c hc).1]; rfl]
    exact List.append_nil _
  have hempty : image.toList.isEmpty = false := by simpa using hne
  have hquote : isQuote '\'' = true := rfl
  unfold dockerImage?
  rw [hword]
  simp only [Option.bind_eq_bind, Option.bind_some, hskip]
  rw [quote_toList, hescape]
  simp [htake, hempty, hquote]

/-! ## Commands of one line -/

theorem isPrefixOf?_eq_none {start text : List Char} (h : ¬ start <+: text) :
    start.isPrefixOf? text = none := by
  induction start generalizing text with
  | nil => exact absurd (List.nil_prefix) h
  | cons c start ih =>
    cases text with
    | nil => rfl
    | cons d text =>
      rw [List.cons_prefix_cons] at h
      show (if c == d then start.isPrefixOf? text else none) = none
      split
      · rename_i heq
        exact ih fun hleading => h ⟨beq_iff_eq.1 heq, hleading⟩
      · rfl

/-- The line of a command. -/
def shellLine (text : List Char) : List Char := "sh '".toList ++ escape text ++ ['\'']

section

variable {text : List Char}

theorem shellArgument_shellLine (text : List Char) :
    shellArgument (shellLine text) = '\'' :: (escape text ++ ['\'']) := rfl

variable (hne : text ≠ [])

include hne

/-- A quote that is no fence stands before an escaped text. -/
theorem isPrefixOf?_single : Fence.single.mark.isPrefixOf? ('\'' :: (escape text ++ ['\''])) =
    none := by
  obtain ⟨c, rest, hescape⟩ := List.exists_cons_of_ne_nil (escape_ne_nil hne)
  have hc : c ≠ '\'' := by
    have hhead := head?_escape text
    rw [hescape] at hhead
    simpa using hhead
  rw [hescape]
  refine isPrefixOf?_eq_none fun hleading => ?_
  rw [Fence.mark, List.cons_append, List.cons_prefix_cons, List.cons_prefix_cons] at hleading
  exact hc hleading.2.1.symm

theorem openedFence?_shellLine : openedFence? (shellLine text) = none := by
  have hsingle : ('\'' :: (escape text ++ ['\''])) ≠ Fence.single.mark := by
    intro heq
    have hnone := isPrefixOf?_single hne
    rw [heq] at hnone
    exact absurd hnone (by decide)
  have hdouble : ('\'' :: (escape text ++ ['\''])) ≠ Fence.double.mark := by
    simp [Fence.mark]
  rw [openedFence?, shellArgument_shellLine, Fence.ofArgument?]
  simp [hsingle, hdouble]

theorem fencedCommand?_shellLine : fencedCommand? (shellLine text) = none := by
  have hargument : Text.dropEndWhile (fun c => c == ' ' || c == ';' || c == ')')
      ('\'' :: (escape text ++ ['\''])) = '\'' :: (escape text ++ ['\'']) :=
    List.rdropWhile_concat_neg _ ('\'' :: escape text) _ (by decide)
  have hsingle : Fence.single.inside? ('\'' :: (escape text ++ ['\''])) = none := by
    rw [Fence.inside?, isPrefixOf?_single hne]
    rfl
  have hdouble : Fence.double.inside? ('\'' :: (escape text ++ ['\''])) = none := by
    rfl
  unfold fencedCommand?
  rw [shellArgument_shellLine, hargument]
  simp [hsingle, hdouble]

omit hne in
/-- A call with a quoted text ends at the last quote. -/
theorem quotedCommand?_shellLine (text : List Char) :
    quotedCommand? (shellLine text) = some text := by
  have hskip : skipSpace ((shellLine text).drop 2) = '\'' :: (escape text ++ ['\'']) := rfl
  have hopen : dropStart? "(" ('\'' :: (escape text ++ ['\''])) = none := rfl
  have hscript : dropStart? "script" ('\'' :: (escape text ++ ['\''])) = none := rfl
  unfold quotedCommand?
  simp only [hskip, hopen, Option.getD_none]
  have hagain : skipSpace ('\'' :: (escape text ++ ['\''])) =
      '\'' :: (escape text ++ ['\'']) := rfl
  have hall : (escape text ++ ['\'']).take ((escape text).length + 1) = escape text ++ ['\''] :=
    List.take_of_length_le (by simp)
  rw [hagain, hscript]
  simp [isQuote, unescape_escape, endsCall, skipSpace, hall]

/-- The line of a command of one line is read as a step. -/
theorem readShell_shellLine (c : Contents) :
    c.readShell (shellLine text) = c.addCommand text := by
  rw [Contents.readShell, openedFence?_shellLine hne]
  show c.addCommand ((fencedCommand? (shellLine text)).getD (shellCommand (shellLine text))) = _
  rw [fencedCommand?_shellLine hne, Option.getD_none, shellCommand, quotedCommand?_shellLine]

end

/-! ## Texts of whole lines -/

/-- What a text of whole lines does to contents, wherever it stands outside all blocks; behind it
no block is open either. -/
def Reads (text : String) (f : Contents → Contents) : Prop :=
  ∃ ls : List (List Char), text.toList = ls.flatMap (· ++ ['\n']) ∧ (∀ l ∈ ls, '\n' ∉ l) ∧
    ∀ c, c.mode = .steps →
      (ls.map (Text.dropLastChar '\r')).foldl Contents.readLine c = f c ∧ (f c).mode = .steps

namespace Reads

variable {text first last : String} {f g : Contents → Contents}

theorem nil : Reads "" id := ⟨[], rfl, nofun, fun _ hmode => ⟨rfl, hmode⟩⟩

theorem append (hfirst : Reads first f) (hlast : Reads last g) :
    Reads (first ++ last) fun c => g (f c) := by
  obtain ⟨before, hbefore, hfeed, hf⟩ := hfirst
  obtain ⟨after, hafter, hfeed', hg⟩ := hlast
  refine ⟨before ++ after, ?_, ?_, fun c hmode => ?_⟩
  · rw [String.toList_append, hbefore, hafter, List.flatMap_append]
  · intro l hl
    exact (List.mem_append.1 hl).elim (hfeed l) (hfeed' l)
  · rw [List.map_append, List.foldl_append, (hf c hmode).1]
    exact hg (f c) (hf c hmode).2

/-- A function may be given as another one that does the same to contents outside all blocks. -/
theorem congr (h : Reads text f) (heq : ∀ c, c.mode = .steps → f c = g c) : Reads text g := by
  obtain ⟨ls, htext, hfeed, hf⟩ := h
  refine ⟨ls, htext, hfeed, fun c hmode => ?_⟩
  rw [← heq c hmode]
  exact hf c hmode

/-- The contents of a text that is read from its start. -/
theorem contents_eq (h : Reads text f) : contents text.toList = f .empty := by
  obtain ⟨ls, htext, hfeed, hf⟩ := h
  obtain ⟨hread, hmode⟩ := hf .empty rfl
  rw [contents, htext, Text.lines_flatMap hfeed, hread, Contents.finish, hmode]

end Reads

theorem line_toList (level : Nat) (text : String) :
    (line level text).toList = List.replicate (4 * level) ' ' ++ text.toList ++ ['\n'] := by
  rw [line, indent, String.toList_append, String.toList_append,
    @String.toList_ofList (List.replicate (4 * level) ' ')]
  rfl

theorem lineFeed_not_mem_line {text : List Char} (h : '\n' ∉ text) (width : Nat) :
    '\n' ∉ List.replicate width ' ' ++ text := by
  intro hmem
  rcases List.mem_append.1 hmem with hmem | hmem
  · exact absurd (List.eq_of_mem_replicate hmem) (by decide)
  · exact h hmem

/-- A line is read without its indentation. -/
theorem reads_line {text : String} {f : Contents → Contents} (level : Nat)
    (hfeed : '\n' ∉ text.toList)
    (hread : ∀ c, c.mode = .steps →
      c.readStepLine (Text.trim (Text.dropLastChar '\r'
        (List.replicate (4 * level) ' ' ++ text.toList))) = f c ∧ (f c).mode = .steps) :
    Reads (line level text) f := by
  refine ⟨[List.replicate (4 * level) ' ' ++ text.toList], ?_, ?_, fun c hmode => ?_⟩
  · rw [line_toList, List.flatMap_singleton]
  · intro l hl
    rw [List.mem_singleton.1 hl]
    exact lineFeed_not_mem_line hfeed _
  · rw [List.map_singleton, List.foldl_cons, List.foldl_nil, Contents.readLine, hmode]
    exact hread c hmode

/-- Lines between two others, of which the first may open something and the last close it. -/
theorem reads_enclosed {opening closing body : String} {f : Contents → Contents} {level : Nat}
    (ls : List (List Char)) (hbody : body.toList = ls.flatMap (· ++ ['\n']))
    (hfeed : ∀ l ∈ ls, '\n' ∉ l) (hends : '\n' ∉ opening.toList ++ closing.toList)
    (hread : ∀ c, c.mode = .steps →
      ((ls.map (Text.dropLastChar '\r')).foldl Contents.readLine
        (c.readLine (Text.dropLastChar '\r'
          (List.replicate (4 * level) ' ' ++ opening.toList)))).readLine
        (Text.dropLastChar '\r' (List.replicate (4 * level) ' ' ++ closing.toList)) = f c ∧
      (f c).mode = .steps) :
    Reads (line level opening ++ body ++ line level closing) f := by
  rw [List.mem_append, not_or] at hends
  refine ⟨(List.replicate (4 * level) ' ' ++ opening.toList) ::
    (ls ++ [List.replicate (4 * level) ' ' ++ closing.toList]), ?_, ?_, fun c hmode => ?_⟩
  · rw [String.toList_append, String.toList_append, line_toList, line_toList, hbody,
      List.flatMap_cons, List.flatMap_append, List.flatMap_singleton, List.append_assoc,
      List.append_assoc]
  · intro l hl
    rcases List.mem_cons.1 hl with rfl | hl
    · exact lineFeed_not_mem_line hends.1 _
    · rcases List.mem_append.1 hl with hl | hl
      · exact hfeed l hl
      · rw [List.mem_singleton.1 hl]
        exact lineFeed_not_mem_line hends.2 _
  · rw [List.map_cons, List.foldl_cons, List.map_append, List.foldl_append, List.map_singleton]
    exact hread c hmode

theorem dropWhile_replicate_append (width : Nat) (text : List Char) :
    (List.replicate width ' ' ++ text).dropWhile Text.isSpace = text.dropWhile Text.isSpace := by
  induction width with
  | zero => rfl
  | succ width ih => exact ih

/-- Of a line that ends in no white space the white space at the start is trimmed. -/
theorem trim_line_start {text : List Char} {last : Char} (hlast : text.getLast? = some last)
    (hspace : Text.isSpace last = false) (width : Nat) :
    Text.trim (Text.dropLastChar '\r' (List.replicate width ' ' ++ text)) =
      text.dropWhile Text.isSpace := by
  have hreturn : last ≠ '\r' := by
    rintro rfl
    exact absurd hspace (by decide)
  have hkeep : Text.dropLastChar '\r' (List.replicate width ' ' ++ text) =
      List.replicate width ' ' ++ text := by
    rw [Text.dropLastChar, List.getLast?_append, hlast]
    exact if_neg (by simpa using hreturn)
  obtain ⟨before, rfl⟩ := List.getLast?_eq_some_iff.1 hlast
  have hstart : (before ++ [last]).dropWhile Text.isSpace =
      before.dropWhile Text.isSpace ++ [last] := by
    rw [List.dropWhile_append]
    split
    · rename_i hempty
      rw [List.isEmpty_iff.1 hempty, List.dropWhile_cons, hspace]
      rfl
    · rfl
  rw [hkeep, Text.trim, Text.stripWhile, dropWhile_replicate_append, hstart]
  exact List.rdropWhile_concat_neg _ _ _ (Bool.eq_false_iff.1 hspace)

/-- A line between two characters that are no white space is trimmed to what it was. -/
theorem trim_line {text : List Char} {first last : Char} (hfirst : text.head? = some first)
    (hlast : text.getLast? = some last)
    (hspace : Text.isSpace first = false ∧ Text.isSpace last = false) (width : Nat) :
    Text.trim (Text.dropLastChar '\r' (List.replicate width ' ' ++ text)) = text := by
  have hstart : text.dropWhile Text.isSpace = text := by
    obtain ⟨rest, rfl⟩ := List.head?_eq_some_iff.1 hfirst
    rw [List.dropWhile_cons, hspace.1]
    rfl
  rw [trim_line_start hlast hspace.2, hstart]

/-- How lines start that are read: with `environment`, `image` or `sh`. -/
def wordStarts : List (List Char) := ["en".toList, "im".toList, "sh".toList]

theorem readStepLine_aside {a b : Char} (h : [a, b] ∉ wordStarts) (rest : List Char)
    (c : Contents) : c.readStepLine (a :: b :: rest) = c := by
  have hdiffer : ∀ (x y : Char) (ending : List Char), [x, y] ∈ wordStarts →
      ¬ x :: y :: ending <+: a :: b :: rest := by
    intro x y ending hmem hleading
    rw [List.cons_prefix_cons, List.cons_prefix_cons] at hleading
    rw [hleading.1, hleading.2.1] at hmem
    exact h hmem
  have henvironment : "environment".toList.isPrefixOf (a :: b :: rest) = false := by
    rw [← Bool.not_eq_true, List.isPrefixOf_iff_prefix]
    exact hdiffer 'e' 'n' _ (by decide)
  have himage : dockerImage? (a :: b :: rest) = none := by
    have hword : dropStart? "image" (a :: b :: rest) = none :=
      isPrefixOf?_eq_none (hdiffer 'i' 'm' _ (by decide))
    rw [dockerImage?, hword]
    rfl
  have hshell : isShell (a :: b :: rest) = false := by
    rw [isShell, Bool.or_eq_false_iff, ← Bool.not_eq_true, ← Bool.not_eq_true,
      List.isPrefixOf_iff_prefix, List.isPrefixOf_iff_prefix]
    exact ⟨hdiffer 's' 'h' _ (by decide), hdiffer 's' 'h' _ (by decide)⟩
  rw [Contents.readStepLine, henvironment, himage, hshell]
  simp

/-- White space at the end of a line does not reach its first two characters. -/
theorem exists_trim_line {a b : Char} (ha : Text.isSpace a = false) (hb : Text.isSpace b = false)
    (rest : List Char) (width : Nat) :
    ∃ rest', Text.trim (Text.dropLastChar '\r' (List.replicate width ' ' ++ a :: b :: rest)) =
      a :: b :: rest' := by
  have htrim : ∀ rest, ∃ rest', Text.trim (List.replicate width ' ' ++ a :: b :: rest) =
      a :: b :: rest' := by
    intro rest
    refine ⟨Text.dropEndWhile Text.isSpace rest, ?_⟩
    rw [Text.trim, Text.stripWhile, dropWhile_replicate_append, List.dropWhile_cons, ha]
    exact Text.dropEndWhile_append hb [a] rest
  -- The carriage return that is dropped is none of the two characters.
  rw [Text.dropLastChar]
  split
  · rename_i hend
    rcases List.eq_nil_or_concat rest with rfl | ⟨before, last, rfl⟩
    · rw [List.getLast?_append] at hend
      have hreturn : b = '\r' := by simpa using hend
      exact absurd hb (by rw [hreturn]; decide)
    · have hdrop : (List.replicate width ' ' ++ a :: b :: before.concat last).dropLast =
          List.replicate width ' ' ++ a :: b :: before := by
        rw [List.concat_eq_append, ← List.cons_append, ← List.cons_append, ← List.append_assoc,
          List.dropLast_concat]
      rw [hdrop]
      exact htrim before
  · exact htrim rest

/-- Whether a text starts unlike all lines that are read. -/
def startsAside (text : String) : Bool :=
  match text.toList with
  | a :: b :: _ => !Text.isSpace a && !Text.isSpace b && !wordStarts.contains [a, b]
  | _ => false

theorem startsAside_append {start : String} (h : startsAside start = true) (rest : String) :
    startsAside (start ++ rest) = true := by
  unfold startsAside at h ⊢
  rw [String.toList_append]
  split at h
  · rename_i a b more hlist
    rw [hlist]
    exact h
  · exact absurd h Bool.false_ne_true

/-- A line that starts aside is passed over. -/
theorem reads_aside {text : String} (haside : startsAside text = true)
    (hfeed : '\n' ∉ text.toList) (level : Nat) : Reads (line level text) id := by
  refine reads_line level hfeed fun c hmode => ⟨?_, hmode⟩
  unfold startsAside at haside
  split at haside
  · rename_i a b rest hlist
    simp only [Bool.and_eq_true, Bool.not_eq_true', List.contains_eq_mem, decide_eq_false_iff_not]
      at haside
    obtain ⟨⟨ha, hb⟩, hword⟩ := haside
    obtain ⟨rest', htrim⟩ := exists_trim_line ha hb rest (4 * level)
    rw [hlist, htrim]
    exact readStepLine_aside hword rest' c
  · exact absurd haside Bool.false_ne_true

theorem reads_brace (level : Nat) : Reads (line level "\x7d") id := by
  refine reads_line level (by decide) fun c hmode => ?_
  rw [@trim_line _ '\x7d' '\x7d' rfl rfl (by decide)]
  exact ⟨by cases c with | mk mode commands environment image => cases image <;> rfl, hmode⟩

theorem reads_empty : Reads "\n" id := by
  refine ⟨[[]], rfl, by simp, fun c hmode => ⟨?_, hmode⟩⟩
  rw [List.map_singleton, List.foldl_cons, List.foldl_nil, Contents.readLine, hmode]
  cases c with
  | mk mode commands environment image => cases image <;> rfl

/-- A block is read as what stands in it, unless it is an environment. -/
theorem reads_block {heading body : String} {f : Contents → Contents}
    (haside : startsAside heading = true) (hfeed : '\n' ∉ heading.toList) (hbody : Reads body f)
    (level : Nat) : Reads (block level heading body) f := by
  have hfeed' : '\n' ∉ (heading ++ " \x7b").toList := by
    rw [String.toList_append, List.mem_append, not_or]
    exact ⟨hfeed, by decide⟩
  have hopen := reads_aside (startsAside_append haside " \x7b") hfeed' level
  exact (hopen.append hbody).append (reads_brace level)

end Jenkins
end CiPipelines
