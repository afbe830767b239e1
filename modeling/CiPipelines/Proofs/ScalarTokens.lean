import CiPipelines.Proofs.LiteralBlocks
import CiPipelines.Proofs.OrdinaryText
import CiPipelines.Proofs.PlainForm
import CiPipelines.Proofs.QuotedScalars

/-!
# Tokens of written scalars

A written scalar of ordinary text is read as one token, whose text is the scalar.  As the value of
a field or the item of a list it is read up to the next line.  In front of a colon it becomes a key,
provided it takes at most 1024 characters; a longer one makes the whole text unreadable.
-/

namespace CiPipelines

open Yaml

namespace Outline

/-- How a text on one line is written. -/
def inlineStyle (s : String) : Style :=
  if s.toList.any fun c => Text.isControl c && c != '\t' then .doubleQuoted
  else if isPlain s then .plain
  else .singleQuoted

/-- How a text after a colon or dash is written. -/
def valueStyle (s : String) : Style :=
  if s.toList.contains '\n' && fitsBlock s.toList then .literal else inlineStyle s

/-- Whether a key is short enough, as it is written, to be read as one. -/
def keyFits (key : String) : Bool :=
  (inline key).toList.length ≤ 1024

/-- The three ways to write a text on one line. -/
inductive Inline (s : String) : Style → List Char → Prop where
  | plain (hplain : isPlainText s.toList = true) : Inline s .plain s.toList
  | singleQuoted (htext : ∀ c ∈ s.toList, isBreak c = false) :
      Inline s .singleQuoted ('\'' :: (doubleQuotes s.toList ++ ['\'']))
  | doubleQuoted (htext : ∀ c ∈ s.toList, c.toNat < 0x20 ∨ isBreak c = false) :
      Inline s .doubleQuoted ('"' :: (Json.escapeAll s.toList ++ ['"']))

/-- Ordinary text is written in one of the three ways. -/
theorem inline_of_ordinary {s : String} (h : Text.OrdinaryChars s.toList) :
    Inline s (inlineStyle s) (inline s).toList := by
  -- The line feed is a control character, and no other break is ordinary.
  unfold inlineStyle inline
  split
  · rename_i hcontrol
    have hquote : (Json.quote s).toList = '"' :: (Json.escapeAll s.toList ++ ['"']) := by
      simp [Json.quote, String.toList_append]
    rw [hquote]
    refine .doubleQuoted fun c hc => ?_
    have hbreak := Text.isBreak_of_isOrdinary (h c hc)
    cases hb : isBreak c with
    | false => exact .inr rfl
    | true =>
      rw [hb] at hbreak
      have hc : c = '\n' := by simpa using hbreak.symm
      exact .inl (by rw [hc]; decide)
  · rename_i hcontrol
    have htext : ∀ c ∈ s.toList, isBreak c = false := by
      intro c hc
      rw [Text.isBreak_of_isOrdinary (h c hc)]
      cases hb : c == '\n' with
      | false => rfl
      | true =>
        refine absurd (List.any_eq_true.2 ⟨c, hc, ?_⟩) hcontrol
        rw [beq_iff_eq.1 hb]
        decide
    split
    · rename_i hplain
      exact .plain (isPlainText_of_isPlain htext hplain).1
    · have hquote : (singleQuoted s).toList = '\'' :: (doubleQuotes s.toList ++ ['\'']) := by
        simp [singleQuoted, doubleQuotes, String.toList_append]
      rw [hquote]
      exact .singleQuoted htext

/-- The first character of a text that can stand plain. -/
theorem startsPlain_head {c : Char} {rest : List Char} (h : startsPlain c rest = true) :
    isBlank c = false ∧ isBreak c = false ∧ c ≠ '#' := by
  unfold startsPlain at h
  split at h
  · rename_i hc
    simp only [Bool.or_eq_true, beq_iff_eq] at hc
    rcases hc with (rfl | rfl) | rfl <;> decide
  · simp only [Bool.and_eq_true, Bool.not_eq_true'] at h
    refine ⟨h.1.1, h.1.2, ?_⟩
    rintro rfl
    exact absurd h.2 (by decide)

/-- A scalar on one line starts with a character that starts a token. -/
theorem Inline.exists_cons {s : String} {style : Style} {written : List Char}
    (h : Inline s style written) (hs : Text.OrdinaryChars s.toList) :
    ∃ c rest, written = c :: rest ∧ isBlank c = false ∧ isBreak c = false ∧ c ≠ '#' ∧
      c ≠ '\ufeff' := by
  cases h with
  | plain hplain =>
    cases htoList : s.toList with
    | nil => simp [htoList, isPlainText] at hplain
    | cons c rest =>
      simp only [htoList, isPlainText, Bool.and_eq_true] at hplain
      obtain ⟨hblank, hbreak, hhash⟩ := startsPlain_head hplain.1.1
      have hordinary := hs c (by rw [htoList]; exact List.mem_cons_self ..)
      exact ⟨c, rest, rfl, hblank, hbreak, hhash,
        Text.ne_byteOrderMark_of_isOrdinary hordinary⟩
  | singleQuoted htext => exact ⟨_, _, rfl, by decide, by decide, by decide, by decide⟩
  | doubleQuoted htext => exact ⟨_, _, rfl, by decide, by decide, by decide, by decide⟩

/-- The brackets of an empty collection. -/
inductive Brackets where
  | square
  | curly
  deriving DecidableEq

namespace Brackets

def opening : Brackets → Char
  | square => '['
  | curly => '\x7b'

def closing : Brackets → Char
  | square => ']'
  | curly => '\x7d'

def start : Brackets → Token
  | square => .openSequence
  | curly => .openMapping

def stop : Brackets → Token
  | square => .closeSequence
  | curly => .closeMapping

/-- The brackets that a word is, if it is any. -/
def ofWord? (w : String) : Option Brackets :=
  if w = "[]" then some square else if w = "\x7b\x7d" then some curly else none

theorem toList_of_ofWord? {w : String} {b : Brackets} (h : ofWord? w = some b) :
    w.toList = [b.opening, b.closing] := by
  unfold ofWord? at h
  split at h
  · obtain rfl := Option.some.inj h
    subst w
    rfl
  · split at h
    · obtain rfl := Option.some.inj h
      subst w
      rfl
    · cases h

end Brackets

end Outline

namespace Yaml
namespace Scan

section

variable {s : Scan}

/-- A plain scalar in a block. -/
theorem readToken_plain {c : Char} {rest : List Char} (hflow : s.inFlow = false)
    (hstart : startsPlain c rest = true) (hmark : atDocumentMark s.column (c :: rest) = false) :
    s.readToken c rest = s.readPlainScalar := by
  unfold startsPlain at hstart
  split at hstart
  · rename_i hc
    have hblank : startsBlank rest = false := by simpa using hstart
    simp only [Bool.or_eq_true, beq_iff_eq] at hc
    rcases hc with (rfl | rfl) | rfl <;> simp [readToken, hmark, hblank, hflow]
  · rename_i hc
    simp only [Bool.and_eq_true, Bool.not_eq_true', String.reduceToList, List.contains_eq_mem,
      List.mem_cons, List.not_mem_nil, decide_eq_false_iff_not, not_or, Bool.or_eq_true,
      beq_iff_eq] at hstart hc
    obtain ⟨⟨hblank, hbreak⟩, hother⟩ := hstart
    simp [readToken, hmark, hblank, hflow, hother, hc]

theorem readToken_singleQuote (rest : List Char) :
    s.readToken '\'' rest = s.readQuoted .singleQuoted := by
  simp [readToken, atDocumentMark]

theorem readToken_doubleQuote (rest : List Char) :
    s.readToken '"' rest = s.readQuoted .doubleQuoted := by
  simp [readToken, atDocumentMark]

theorem readToken_bar (hflow : s.inFlow = false) (rest : List Char) :
    s.readToken '|' rest = s.readBlock .literal := by
  simp [readToken, atDocumentMark, hflow]

theorem readToken_colon {rest : List Char} (h : startsBlank rest = true) :
    s.readToken ':' rest = s.readValue := by
  simp [readToken, atDocumentMark, h]

theorem readToken_dash {rest : List Char} (h : startsBlank rest = true) :
    s.readToken '-' rest = s.readDash := by
  have hmark : atDocumentMark s.column ('-' :: rest) = false := by
    cases rest with
    | nil => simp [atDocumentMark]
    | cons c rest =>
      have hc : c ≠ '-' := by
        rintro rfl
        simp [startsBlank, isBlank, isBreak] at h
      simp [atDocumentMark, hc]
  simp [readToken, hmark, h]

end

/-! ## Scalars on one line -/

section

variable {log : TokenLog} {margins : List Nat} {keyAllowed : Bool} {place : Place}

/-- The key that is pending once a token has been noted as one. -/
def noted (log : TokenLog) (margins : List Nat) (keyAllowed : Bool) (place : Place) :
    Option PendingKey :=
  if keyAllowed then some ⟨log.size, margins.headD 0 == place.column + 1, place⟩ else none

theorem noteKey_block (text : List Char) :
    noteKey ⟨⟨text, place⟩, log, margins, keyAllowed, none, []⟩ =
      some ⟨⟨text, place⟩, log, margins, keyAllowed, noted log margins keyAllowed place, []⟩ := by
  cases keyAllowed <;> rfl

/-- A quoted scalar is read up to its closing quote. -/
theorem readToken_quoted {x : String} {style : Style} {c : Char} {written rest : List Char}
    (h : Outline.Inline x style (c :: written)) (hstyle : style ≠ .plain)
    (hrest : rest.head? ≠ some '\'') :
    readToken ⟨⟨c :: (written ++ rest), place⟩, log, margins, keyAllowed, none, []⟩ c
        (written ++ rest) =
      some ⟨⟨rest, place.forward (c :: written).length⟩, log.push (.scalar style x), margins,
        false, noted log margins keyAllowed place, []⟩ := by
  generalize htext : c :: written = text at h
  cases h with
  | plain => exact absurd rfl hstyle
  | singleQuoted hbreaks =>
    obtain ⟨rfl, rfl⟩ := List.cons.inj htext
    have hread := readSingleQuoted_doubleQuotes [] [] (place.forward 1) hbreaks (Nat.succ_pos _)
      hrest
    have hquoted : Cursor.singleQuoted? ⟨'\'' :: (doubleQuotes x.toList ++ ['\''] ++ rest), place⟩ =
        some (x.toList, ⟨rest, place.forward ((doubleQuotes x.toList).length + 2)⟩) := by
      simp only [Cursor.singleQuoted?, Cursor.skip, List.append_assoc, List.cons_append,
        List.nil_append, List.drop_succ_cons, List.drop_zero]
      refine hread.trans ?_
      rw [Place.forward_forward, Nat.add_comm 1]
      rfl
    rw [readToken_singleQuote, readQuoted, noteKey_block]
    simp only [Option.bind_eq_bind, Option.bind_some, hquoted, beq_self_eq_true, if_true]
    simp [emitTo]
  | doubleQuoted hbreaks =>
    obtain ⟨rfl, rfl⟩ := List.cons.inj htext
    have hread := readDoubleQuoted_escapeAll [] [] (place.forward 1) rest hbreaks (Nat.succ_pos _)
    have hquoted : Cursor.doubleQuoted? ⟨'"' :: (Json.escapeAll x.toList ++ ['"'] ++ rest), place⟩ =
        some (x.toList, ⟨rest, place.forward ((Json.escapeAll x.toList).length + 2)⟩) := by
      simp only [Cursor.doubleQuoted?, Cursor.skip, List.append_assoc, List.cons_append,
        List.nil_append, List.drop_succ_cons, List.drop_zero]
      refine hread.trans ?_
      rw [Place.forward_forward, Nat.add_comm 1]
      rfl
    rw [readToken_doubleQuote, readQuoted, noteKey_block]
    simp only [Option.bind_eq_bind, Option.bind_some, hquoted, beq_iff_eq, reduceCtorEq, if_false]
    simp [emitTo]

/-- A plain scalar is read with what may still belong to it. -/
theorem readToken_plainText {c d : Char} {written rest : List Char}
    (h : isPlainText (c :: written) = true) (hdash : d ≠ '-') (hdot : d ≠ '.') :
    readToken ⟨⟨c :: (written ++ d :: rest), place⟩, log, margins, keyAllowed, none, []⟩ c
        (written ++ d :: rest) =
      (readPlain false (margins.headD 0) (c :: written).reverse .empty
          (place.forward (c :: written).length) (d :: rest)).map fun scalar =>
        ⟨scalar.next, log.push (.scalar .plain (String.ofList scalar.text)), margins,
          scalar.onNewLine, noted log margins keyAllowed place, []⟩ := by
  have hstart : startsPlain c (written ++ d :: rest) = true := by
    simp only [isPlainText, Bool.and_eq_true] at h
    exact startsPlain_append h.1.1 _
  have hmark := atDocumentMark_isPlainText place.column rest h hdash hdot
  have hread := readPlain_isPlainText (margins.headD 0) place rest h hdash hdot
  rw [List.cons_append] at hmark hread
  have hplain : readToken
      ⟨⟨c :: (written ++ d :: rest), place⟩, log, margins, keyAllowed, none, []⟩ c
        (written ++ d :: rest) =
      readPlainScalar ⟨⟨c :: (written ++ d :: rest), place⟩, log, margins, keyAllowed, none, []⟩ :=
    readToken_plain rfl hstart hmark
  rw [hplain, readPlainScalar, noteKey_block, ← hread, Option.map_eq_bind]
  rfl

variable (log margins keyAllowed place) in
/-- A scalar on one line is read up to the colon behind it. -/
theorem readToken_inline_key {x : String} {style : Style} {c : Char} {written rest : List Char}
    (h : Outline.Inline x style (c :: written)) (hrest : startsBlank rest = true) :
    readToken ⟨⟨c :: (written ++ ':' :: rest), place⟩, log, margins, keyAllowed, none, []⟩ c
        (written ++ ':' :: rest) =
      some ⟨⟨':' :: rest, place.forward (c :: written).length⟩, log.push (.scalar style x), margins,
        false, noted log margins keyAllowed place, []⟩ := by
  by_cases hstyle : style = .plain
  · subst hstyle
    generalize htext : c :: written = text at h
    cases h with
    | plain hplain =>
      rw [← htext] at hplain
      rw [readToken_plainText hplain (by decide) (by decide), readPlain_colon _ _ _ hrest, htext]
      simp
  · exact readToken_quoted h hstyle (by simp)

/-- After a line break a plain scalar ends before text that is left of the margin. -/
theorem exists_readPlain_following {margin limit column : Nat} {text : List Char} (read : List Char)
    {gap : Gap} {place : Place} (hgap : gap.hasBreak = true)
    (h : indentedAtMost limit column text = true) (hlimit : limit < margin)
    (hplace : place.column = column) :
    ∃ next, readPlain false margin read gap place text = some ⟨read.reverse, next, true⟩ ∧
      ∀ log margins pending, toToken ⟨next, log, margins, true, pending, []⟩ =
        toToken ⟨⟨text, place⟩, log, margins, true, pending, []⟩ := by
  have hadd : ∀ {gap : Gap} (c : Char), gap.hasBreak = true → (gap.addBlank c).hasBreak = true := by
    intro gap c hgap
    cases gap with
    | blanks text => exact absurd hgap Bool.false_ne_true
    | breaks first more => rfl
  have hbroken : ∀ (gap : Gap) (c : Char), (gap.addBreak c).hasBreak = true := by
    intro gap c
    cases gap <;> rfl
  -- Blanks and breaks are taken on both sides, until the margin tells the plain scalar to end.
  fun_induction indentedAtMost limit column text generalizing gap place with
  | case1 column =>
    rw [readPlain, hgap]
    exact ⟨_, rfl, fun _ _ _ => rfl⟩
  | case2 column rest ih =>
    rw [readPlain]
    obtain ⟨next, hread, hto⟩ := ih (hbroken gap _) h (place.newLine_column 2)
    exact ⟨next, hread, fun log margins pending => by rw [hto, toToken_carriageReturn]⟩
  | case3 column c rest hcrlf hbreak ih =>
    rw [readPlain.eq_3 _ _ _ _ _ _ _ hcrlf, if_pos hbreak]
    obtain ⟨next, hread, hto⟩ := ih (hbroken gap _) h (place.newLine_column 1)
    exact ⟨next, hread, fun log margins pending => by rw [hto, toToken_break _ hbreak hcrlf]⟩
  | case4 column c rest hcrlf hbreak hspace ih =>
    obtain rfl : c = ' ' := beq_iff_eq.1 hspace
    rw [readPlain.eq_3 _ _ _ _ _ _ _ hcrlf, if_neg hbreak, if_pos (by decide), if_neg (by simp)]
    have hcolumn : (place.forward 1).column = column + 1 := congrArg (· + 1) hplace
    obtain ⟨next, hread, hto⟩ := ih (hadd ' ' hgap) h hcolumn
    exact ⟨next, hread, fun log margins pending => by rw [hto, toToken_space]⟩
  | case5 column c rest hcrlf hbreak hspace =>
    simp only [Bool.and_eq_true, bne_iff_ne, decide_eq_true_eq] at h
    have hblank : ¬isBlank c = true := by simpa [isBlank, h.1] using hspace
    have hends : endsPlain false margin gap place.column c rest = true := by
      have hleft : place.column < margin := by omega
      simp [endsPlain, hgap, hleft]
    rw [readPlain.eq_3 _ _ _ _ _ _ _ hcrlf, if_neg hbreak, if_neg hblank, if_pos hends, hgap]
    exact ⟨_, rfl, fun _ _ _ => rfl⟩

variable (log margins keyAllowed place) in
/-- A scalar on one line is read up to the next line. -/
theorem readToken_inline_value {x : String} {style : Style} {c : Char} {written rest : List Char}
    {limit : Nat} (h : Outline.Inline x style (c :: written))
    (hrest : indentedAtMost limit 0 rest = true) (hlimit : limit < margins.headD 0) :
    ∃ next keyAllowed', readToken
        ⟨⟨c :: (written ++ '\n' :: rest), place⟩, log, margins, keyAllowed, none, []⟩ c
        (written ++ '\n' :: rest) =
      some ⟨next, log.push (.scalar style x), margins, keyAllowed',
        noted log margins keyAllowed place, []⟩ ∧
      ∀ log margins pending, toToken ⟨next, log, margins, keyAllowed', pending, []⟩ =
        toToken ⟨⟨rest, (place.forward (c :: written).length).newLine 1⟩, log, margins, true,
          pending, []⟩ := by
  -- A plain scalar is read past the line break, to see whether it goes on; no quoted one is.
  by_cases hstyle : style = .plain
  · subst hstyle
    generalize htext : c :: written = text at h
    cases h with
    | plain hplain =>
      rw [← htext] at hplain
      obtain ⟨next, hread, hto⟩ := exists_readPlain_following (c :: written).reverse
        (show (Gap.empty.addBreak '\n').hasBreak = true from rfl) hrest hlimit
        (show ((place.forward (c :: written).length).newLine 1).column = 0 from rfl)
      have hbreak : readPlain false (margins.headD 0) (c :: written).reverse .empty
          (place.forward (c :: written).length) ('\n' :: rest) =
          some ⟨(c :: written).reverse.reverse, next, true⟩ := by
        rw [readPlain.eq_3 _ _ _ _ _ _ _ fun _ h => absurd h (by decide), if_pos (by decide),
          ← hread]
        rfl
      refine ⟨next, true, ?_, ?_⟩
      · rw [readToken_plainText hplain (by decide) (by decide), hbreak, htext]
        simp
      · rw [← htext]
        exact hto
  · refine ⟨_, _, readToken_quoted h hstyle (by simp), fun log margins pending => ?_⟩
    rw [toToken_lineFeed]

end

/-! ## Runs over written scalars -/

/-- From the state on, the text in front of `rest` is read as the tokens that `log` holds, with the
next line to come; or the text is not read at all, unless `fits`. -/
def Reads (s : Scan) (fits : Bool) (rest : List Char) (log : TokenLog) (margins : List Nat) : Prop :=
  ∃ place : Place, place.column = 0 ∧
    result s = if fits then result ⟨⟨rest, place⟩, log, margins, true, none, []⟩ else none

theorem Reads.of_result_eq {s s' : Scan} {fits : Bool} {rest : List Char} {log : TokenLog}
    {margins : List Nat} (h : result s = result s') (hreads : Reads s' fits rest log margins) :
    Reads s fits rest log margins := by
  obtain ⟨place, hplace, hresult⟩ := hreads
  exact ⟨place, hplace, h.trans hresult⟩

/-- At the start of a line nothing has to be read. -/
theorem Reads.refl {rest : List Char} {place : Place} {log : TokenLog} {margins : List Nat}
    (hplace : place.column = 0) :
    Reads ⟨⟨rest, place⟩, log, margins, true, none, []⟩ true rest log margins :=
  ⟨place, hplace, rfl⟩

/-- Reading goes on behind what has been read. -/
theorem Reads.trans {s : Scan} {first then_ : Bool} {rest rest' : List Char}
    {log log' : TokenLog} {margins margins' : List Nat} (h : Reads s first rest log margins)
    (hnext : ∀ place : Place, place.column = 0 →
      Reads ⟨⟨rest, place⟩, log, margins, true, none, []⟩ then_ rest' log' margins') :
    Reads s (first && then_) rest' log' margins' := by
  obtain ⟨place, hplace, hresult⟩ := h
  obtain ⟨place', hplace', hresult'⟩ := hnext place hplace
  refine ⟨place', hplace', ?_⟩
  rw [hresult, hresult']
  cases first <;> simp

/-- A block whose entries have been read ends in front of text that is left of them. -/
theorem Reads.close {s : Scan} {fits : Bool} {rest : List Char} {log : TokenLog}
    {margins : List Nat} {limit x : Nat} (h : Reads s fits rest log (x :: margins))
    (hrest : Outside limit rest) (hx : limit + 1 < x) :
    Reads s fits rest (log.push .blockEnd) margins := by
  obtain ⟨place, hplace, hresult⟩ := h
  exact ⟨place, hplace, by rw [hresult, result_close hrest hplace hx]⟩

section

variable {log : TokenLog} {margins : List Nat} {keyAllowed : Bool} {place : Place} {limit m : Nat}
  {rest : List Char}

/-- A pending scalar is no key once its line has ended. -/
theorem result_noted (hm : m ≤ place.column) {next : Place} (hline : place.line < next.line)
    (later : TokenLog) :
    result ⟨⟨rest, next⟩, later, m :: margins, true, noted log (m :: margins) keyAllowed place,
        []⟩ =
      result ⟨⟨rest, next⟩, later, m :: margins, true, none, []⟩ := by
  cases keyAllowed with
  | false => rfl
  | true =>
    have hrequired : ((m :: margins).headD 0 == place.column + 1) = false := by
      simp only [List.headD_cons, beq_eq_false_iff_ne]
      omega
    exact result_pending hrequired hline

/-- A scalar on one line is read up to the next line. -/
theorem result_written {x : String} {style : Style} {written : List Char}
    (h : Outline.Inline x style written) (hx : Text.OrdinaryChars x.toList)
    (hrest : indentedAtMost limit 0 rest = true) (hlimit : limit < m) (hm : m ≤ place.column) :
    result ⟨⟨written ++ '\n' :: rest, place⟩, log, m :: margins, keyAllowed, none, []⟩ =
      result ⟨⟨rest, (place.forward written.length).newLine 1⟩, log.push (.scalar style x),
        m :: margins, true, none, []⟩ := by
  obtain ⟨c, written, rfl, hblank, hbreak, hhash, hmark⟩ := h.exists_cons hx
  obtain ⟨next, keyAllowed', hread, hto⟩ := readToken_inline_value log (m :: margins) keyAllowed
    place h hrest hlimit
  have hmargin : (m :: margins).headD 0 ≤ place.column + 1 := Nat.le_succ_of_le hm
  rw [List.cons_append, result_text _ hblank hbreak hhash hmark hmargin, hread, Option.bind_some,
    result_congr_toToken (hto _ _ _)]
  exact result_noted hm (Nat.lt_succ_self _) _

theorem reads_written {x : String} {style : Style} {written : List Char}
    (h : Outline.Inline x style written) (hx : Text.OrdinaryChars x.toList)
    (hrest : Outside limit rest) (hlimit : limit < m) (hm : m ≤ place.column) :
    Reads ⟨⟨written ++ '\n' :: rest, place⟩, log, m :: margins, keyAllowed, none, []⟩ true rest
      (log.push (.scalar style x)) (m :: margins) :=
  ⟨_, rfl, result_written h hx hrest.indentedAtMost hlimit hm⟩

variable (b : Outline.Brackets)

theorem readToken_opening (s : Scan) (text : List Char) :
    s.readToken b.opening text = s.openFlow b.start := by
  cases b <;> simp [readToken, atDocumentMark, Outline.Brackets.opening, Outline.Brackets.start]

theorem readToken_closing (s : Scan) (text : List Char) :
    s.readToken b.closing text = s.closeFlow b.stop := by
  cases b <;> simp [readToken, atDocumentMark, Outline.Brackets.closing, Outline.Brackets.stop]

/-- What was noted at a token is still near one column further on. -/
theorem keepNear_noted : keepNear (place.forward 1) (noted log margins keyAllowed place) =
    some (noted log margins keyAllowed place) := by
  cases keyAllowed with
  | false => rfl
  | true =>
    have hindex : ¬ place.index + 1024 < place.index + 1 := by omega
    simp only [keepNear, noted, if_true, Place.forward, hindex, Nat.lt_irrefl, decide_false,
      Bool.or_false, Bool.false_eq_true, if_false]

/-- An empty collection in brackets is read as two tokens. -/
theorem reads_brackets (hm : m ≤ place.column) :
    Reads ⟨⟨b.opening :: b.closing :: '\n' :: rest, place⟩, log, m :: margins, keyAllowed, none, []⟩
      true rest (log.pushAll [b.start, b.stop]) (m :: margins) := by
  have hmargin : (m :: margins).headD 0 ≤ place.column + 1 := Nat.le_succ_of_le hm
  have hopen : readToken ⟨⟨b.opening :: b.closing :: '\n' :: rest, place⟩, log, m :: margins,
      keyAllowed, none, []⟩ b.opening (b.closing :: '\n' :: rest) =
      some ⟨⟨b.closing :: '\n' :: rest, place.forward 1⟩, log.push b.start, m :: margins, true,
        none, [noted log (m :: margins) keyAllowed place]⟩ := by
    rw [readToken_opening, openFlow, noteKey_block]
    rfl
  have happroach : approach ⟨⟨b.closing :: '\n' :: rest, place.forward 1⟩, log.push b.start,
      m :: margins, true, none, [noted log (m :: margins) keyAllowed place]⟩ =
      some ⟨⟨b.closing :: '\n' :: rest, place.forward 1⟩, log.push b.start,
        m :: margins, true, none, [noted log (m :: margins) keyAllowed place]⟩ := by
    have hto : toToken ⟨⟨b.closing :: '\n' :: rest, place.forward 1⟩, log.push b.start,
        m :: margins, true, none, [noted log (m :: margins) keyAllowed place]⟩ =
        ⟨⟨b.closing :: '\n' :: rest, place.forward 1⟩, log.push b.start,
          m :: margins, true, none, [noted log (m :: margins) keyAllowed place]⟩ := by
      cases b <;> simp [toToken, skipBlank, isBreak, Outline.Brackets.closing]
    rw [approach, hto]
    simp only [dropFarKeys, List.mapM_cons, List.mapM_nil, keepNear_noted]
    rfl
  have hclose : readToken ⟨⟨b.closing :: '\n' :: rest, place.forward 1⟩, log.push b.start,
      m :: margins, true, none, [noted log (m :: margins) keyAllowed place]⟩ b.closing
        ('\n' :: rest) =
      some ⟨⟨'\n' :: rest, (place.forward 1).forward 1⟩, log.pushAll [b.start, b.stop],
        m :: margins, false, noted log (m :: margins) keyAllowed place, []⟩ := by
    have hlog : (log.push b.start).push b.stop = log.pushAll [b.start, b.stop] :=
      TokenLog.ext_toList (by simp)
    rw [readToken_closing, ← hlog]
    rfl
  have hfirst : isBlank b.opening = false ∧ isBreak b.opening = false ∧ b.opening ≠ '#' ∧
      b.opening ≠ '\ufeff' := by
    cases b <;> decide
  obtain ⟨hblank, hbreak, hhash, hmark⟩ := hfirst
  -- The brackets might have been a key; the next line shows that they are none.
  refine ⟨((place.forward 1).forward 1).newLine 1, rfl, ?_⟩
  rw [result_text _ hblank hbreak hhash hmark hmargin, hopen, Option.bind_some,
    result_of_approach happroach rfl, hclose, Option.bind_some,
    result_congr_toToken (toToken_lineFeed _ _), if_pos rfl]
  exact result_noted hm (Nat.lt_succ_self _) _

/-- A text on one line is read as a scalar. -/
theorem reads_inline {x : String} (hx : Text.OrdinaryChars x.toList) (hrest : Outside limit rest)
    (hlimit : limit < m) (hm : m ≤ place.column) :
    Reads ⟨⟨(Outline.inline x).toList ++ '\n' :: rest, place⟩, log, m :: margins, keyAllowed, none,
        []⟩ true rest (log.push (.scalar (Outline.inlineStyle x) x)) (m :: margins) :=
  reads_written (Outline.inline_of_ordinary hx) hx hrest hlimit hm

/-- A literal block is read as a scalar, up to where it ends. -/
theorem result_literal {text x : List Char} {next : Cursor}
    (hblock : Cursor.blockScalar? ⟨'|' :: text, place⟩ false m = some (x, next))
    (hm : m ≤ place.column + 1) :
    result ⟨⟨'|' :: text, place⟩, log, m :: margins, keyAllowed, none, []⟩ =
      result ⟨next, log.push (.scalar .literal (String.ofList x)), m :: margins, true, none, []⟩ := by
  have hmargin : (m :: margins).headD 0 ≤ place.column + 1 := hm
  have hscalar : readToken ⟨⟨'|' :: text, place⟩, log, m :: margins, keyAllowed, none, []⟩ '|' text =
      some ⟨next, log.push (.scalar .literal (String.ofList x)), m :: margins, true, none, []⟩ := by
    rw [readToken_bar rfl, readBlock]
    simp only [dropKey, Option.any_none, Bool.false_eq_true, if_false, Option.bind_eq_bind,
      Option.bind_some, margin, List.headD_cons, show (Style.literal == .folded) = false from rfl,
      hblock, emitTo]
    rfl
  rw [result_text _ (by decide) (by decide) (by decide) (by decide) hmargin, hscalar,
    Option.bind_some]

/-- A text of several lines in a literal block is read as a scalar. -/
theorem reads_literal {x : String} {indent : Nat} (hx : Text.Ordinary x) (hne : x.toList ≠ [])
    (hfits : Outline.fitsBlock x.toList = true) (hrest : Outside limit rest)
    (hlimit : limit < m) (hm : m ≤ indent) (hplace : m ≤ place.column) :
    Reads ⟨⟨(Outline.literal x.toList indent).toList ++ rest, place⟩, log, m :: margins, keyAllowed,
        none, []⟩ true rest (log.push (.scalar .literal x)) (m :: margins) := by
  have hchars := Text.isBreak_or_eq_lineFeed hx.chars
  have hindent : 0 < indent := by omega
  obtain ⟨written, hwritten, hread⟩ := Outline.blockScalar?_literal hindent hchars hfits hne
    hx.ne_lineFeed hx.not_two_lineFeeds
  have hblock := hread (place.forward 1) m limit rest hm (by omega) hrest.startsWithin
  have hspace : result ⟨⟨(Outline.literal x.toList indent).toList ++ rest, place⟩, log,
      m :: margins, keyAllowed, none, []⟩ =
      result ⟨⟨'|' :: (written ++ rest), place.forward 1⟩, log, m :: margins, keyAllowed, none,
        []⟩ := by
    refine result_congr_toToken ?_
    rw [hwritten, List.cons_append, toToken_space, List.cons_append]
  have hmargin : m ≤ (place.forward 1).column + 1 := Nat.le_succ_of_le (Nat.le_succ_of_le hplace)
  refine Reads.of_result_eq hspace ⟨(place.forward 1).after ('|' :: written), ?_, ?_⟩
  · have hcolumn := Outline.after_literal_column x.toList indent place
    rwa [hwritten] at hcolumn
  · rw [result_literal hblock hmargin, String.ofList_toList, if_pos rfl,
      result_congr_toToken (toToken_toFirstText _ _)]

/-- A text after a colon or dash is read as a scalar. -/
theorem reads_value {x : String} {indent : Nat} (hx : Text.Ordinary x) (hrest : Outside limit rest)
    (hlimit : limit < m) (hm : m ≤ indent) (hplace : m ≤ place.column) :
    Reads ⟨⟨(Outline.valueText x indent).toList ++ rest, place⟩, log, m :: margins, keyAllowed, none,
        []⟩ true rest (log.push (.scalar (Outline.valueStyle x) x)) (m :: margins) := by
  unfold Outline.valueText Outline.valueStyle
  split
  · rename_i hblock
    simp only [Bool.and_eq_true] at hblock
    have hne : x.toList ≠ [] := by
      intro hnil
      simp [hnil] at hblock
    exact reads_literal hx hne hblock.2 hrest hlimit hm hplace
  · have htext : (" " ++ Outline.inline x ++ "\n").toList ++ rest =
        ' ' :: ((Outline.inline x).toList ++ '\n' :: rest) := by
      simp [String.toList_append]
    rw [htext]
    refine Reads.of_result_eq (result_congr_toToken (toToken_space _ _)) ?_
    exact reads_inline hx.chars hrest hlimit (Nat.le_succ_of_le hplace)

/-! ## Keys and dashes -/

/-- The colon behind a pending key. -/
theorem readValue_pending {k : PendingKey} {next : Place} {x : Token} (hrest : startsBlank rest = true)
    (hk : k.position = log.size) :
    readToken ⟨⟨':' :: rest, next⟩, log.push x, margins, keyAllowed, some k, []⟩ ':' rest =
      some (if margins.headD 0 ≤ k.place.column then
        ⟨⟨rest, next.forward 1⟩, log.pushAll [.blockMapping, .key, x, .value],
          (k.place.column + 1) :: margins, false, none, []⟩
      else ⟨⟨rest, next.forward 1⟩, log.pushAll [.key, x, .value], margins, false, none, []⟩) := by
  -- The place for the token of the key was noted before the scalar was read.
  have hinsert : ∀ ts : List Token,
      ((log.push x).insertAt k.position ts).push .value = log.pushAll (ts ++ [x, .value]) := by
    intro ts
    refine TokenLog.ext_toList ?_
    rw [TokenLog.toList_push, TokenLog.toList_insertAt, TokenLog.toList_push,
      TokenLog.toList_pushAll, hk, ← TokenLog.length_toList]
    simp
  have hopens : opensBlock ⟨⟨':' :: rest, next⟩, log.push x, margins, keyAllowed, some k, []⟩
      k.place.column = decide (margins.headD 0 ≤ k.place.column) := rfl
  rw [readToken_colon hrest, readValue]
  by_cases hcolumn : margins.headD 0 ≤ k.place.column
  · simp only [hopens, hcolumn, decide_true, if_true, emitChar, hinsert, Cursor.skip]
    rfl
  · simp only [hopens, hcolumn, decide_false, Bool.false_eq_true, if_false, emitChar, hinsert,
      Cursor.skip]
    rfl

variable (log margins place) in
/-- A key is read, and opens a mapping where its column asks for one, unless it is too long. -/
theorem result_key {key : String} (hkey : Text.OrdinaryChars key.toList)
    (hrest : startsBlank rest = true) (hm : margins.headD 0 ≤ place.column + 1) :
    result ⟨⟨(Outline.inline key).toList ++ ':' :: rest, place⟩, log, margins, true, none, []⟩ =
      if Outline.keyFits key then
        result (if margins.headD 0 ≤ place.column then
          ⟨⟨rest, place.forward ((Outline.inline key).toList.length + 1)⟩,
            log.pushAll [.blockMapping, .key, .scalar (Outline.inlineStyle key) key, .value],
            (place.column + 1) :: margins, false, none, []⟩
        else
          ⟨⟨rest, place.forward ((Outline.inline key).toList.length + 1)⟩,
            log.pushAll [.key, .scalar (Outline.inlineStyle key) key, .value], margins, false, none,
            []⟩)
      else none := by
  have hinline := Outline.inline_of_ordinary hkey
  obtain ⟨c, written, hwritten, hblank, hbreak, hhash, hmark⟩ := hinline.exists_cons hkey
  rw [hwritten] at hinline ⊢
  have hread := readToken_inline_key log margins true place hinline hrest
  have hcolon : margins.headD 0 ≤ (place.forward (c :: written).length).column + 1 :=
    Nat.le_trans hm (Nat.succ_le_succ (Nat.le_add_right _ _))
  rw [List.cons_append, result_text _ hblank hbreak hhash hmark hm, hread, Option.bind_some,
    result_eq, approach_text _ (by decide) (by decide) (by decide) (by decide) hcolon]
  unfold Outline.keyFits
  rw [hwritten]
  -- At the colon the start of the key may be too far away.
  by_cases hfits : (c :: written).length ≤ 1024
  · have hnear : keepNear (place.forward (c :: written).length) (noted log margins true place) =
        some (noted log margins true place) := by
      have hindex : ¬ place.index + 1024 < place.index + (c :: written).length := by omega
      simp only [keepNear, noted, if_true, Place.forward, hindex, Nat.lt_irrefl, decide_false,
        Bool.or_false, Bool.false_eq_true, if_false]
    rw [hnear, Option.map_some, Option.bind_some, noted, if_pos rfl, if_pos (by simpa using hfits)]
    dsimp only
    rw [readValue_pending hrest rfl, Option.bind_some, Place.forward_forward]
  · -- A key that is too far away must not be given up, or leaves no key for the colon.
    have hindex : place.index + 1024 < place.index + (c :: written).length := by omega
    rw [if_neg (by simpa using hfits)]
    cases hrequired : margins.headD 0 == place.column + 1 with
    | true =>
      have hnear : keepNear (place.forward (c :: written).length) (noted log margins true place) =
          none := by
        simp only [keepNear, noted, if_true, Place.forward, hindex, hrequired, decide_true,
          Bool.or_true]
      rw [hnear]
      rfl
    | false =>
      have hnear : keepNear (place.forward (c :: written).length) (noted log margins true place) =
          some none := by
        simp only [keepNear, noted, if_true, Place.forward, hindex, hrequired, decide_true,
          Bool.or_true, Bool.false_eq_true, if_false]
      rw [hnear, Option.map_some, Option.bind_some]
      dsimp only
      rw [readToken_colon hrest]
      rfl

/-- A key at the margin of the innermost mapping is read as one of its entries. -/
theorem reads_key {key : String} {column : Nat} {fits : Bool} {rest' : List Char}
    {log' : TokenLog} {margins' : List Nat} (hkey : Text.OrdinaryChars key.toList)
    (hrest : startsBlank rest = true) (hcolumn : place.column = column)
    (h : ∀ next : Place, column < next.column →
      Reads ⟨⟨rest, next⟩, log.pushAll [.key, .scalar (Outline.inlineStyle key) key, .value],
        (column + 1) :: margins, false, none, []⟩ fits rest' log' margins') :
    Reads ⟨⟨(Outline.inline key).toList ++ ':' :: rest, place⟩, log, (column + 1) :: margins,
      true, none, []⟩ (Outline.keyFits key && fits) rest' log' margins' := by
  subst hcolumn
  have hstep := result_key log ((place.column + 1) :: margins) place hkey hrest (Nat.le_refl _)
  have hinside : ¬ ((place.column + 1) :: margins).headD 0 ≤ place.column :=
    Nat.not_le.2 (Nat.lt_succ_self _)
  rw [if_neg hinside] at hstep
  obtain ⟨last, hlast, hresult⟩ := h (place.forward ((Outline.inline key).toList.length + 1))
    (Nat.lt_add_of_pos_right (Nat.succ_pos _))
  refine ⟨last, hlast, ?_⟩
  rw [hstep, hresult]
  cases Outline.keyFits key <;> simp

variable (log) in
/-- A key to the right of the innermost entries opens a mapping, wherever that is noted. -/
theorem result_openMapping {key : String} (hkey : Text.OrdinaryChars key.toList)
    (hrest : startsBlank rest = true) (hm : margins.headD 0 ≤ place.column) :
    result ⟨⟨(Outline.inline key).toList ++ ':' :: rest, place⟩, log, margins, true, none, []⟩ =
      result ⟨⟨(Outline.inline key).toList ++ ':' :: rest, place⟩, log.push .blockMapping,
        (place.column + 1) :: margins, true, none, []⟩ := by
  have hlog : log.pushAll [.blockMapping, .key, .scalar (Outline.inlineStyle key) key, .value] =
      (log.push .blockMapping).pushAll [.key, .scalar (Outline.inlineStyle key) key, .value] :=
    TokenLog.ext_toList (by simp)
  have hinside : ¬ ((place.column + 1) :: margins).headD 0 ≤ place.column :=
    Nat.not_le.2 (Nat.lt_succ_self _)
  rw [result_key _ _ _ hkey hrest (Nat.le_succ_of_le hm),
    result_key _ _ _ hkey hrest (Nat.le_refl _),
    if_pos hm, if_neg hinside, hlog]

variable (log) in
/-- A dash to the right of the innermost entries opens a sequence first. -/
theorem result_openSequence (hrest : startsBlank rest = true) (hm : margins.headD 0 ≤ place.column) :
    result ⟨⟨'-' :: rest, place⟩, log, margins, true, none, []⟩ =
      result ⟨⟨'-' :: rest, place⟩, log.push .blockSequence, (place.column + 1) :: margins, true,
        none, []⟩ := by
  rw [result_text _ (by decide) (by decide) (by decide) (by decide) (Nat.le_succ_of_le hm),
    result_text _ (by decide) (by decide) (by decide) (by decide) (Nat.le_refl _),
    readToken_dash hrest, readToken_dash hrest]
  have hopens : opensBlock ⟨⟨'-' :: rest, place⟩, log, margins, true, none, []⟩ place.column =
      true := decide_eq_true hm
  have hinside : opensBlock ⟨⟨'-' :: rest, place⟩, log.push .blockSequence,
      (place.column + 1) :: margins, true, none, []⟩ place.column = false :=
    decide_eq_false (Nat.not_le.2 (Nat.lt_succ_self _))
  simp only [readDash, openBlock?, inFlow, openBlock, column, hopens, hinside]
  rfl

variable (log margins place) in
/-- A dash at the margin of the innermost sequence starts an item. -/
theorem result_dash (hrest : startsBlank rest = true) :
    result ⟨⟨'-' :: rest, place⟩, log, (place.column + 1) :: margins, true, none, []⟩ =
      result ⟨⟨rest, place.forward 1⟩, log.push .dash, (place.column + 1) :: margins, true, none,
        []⟩ := by
  have hinside : opensBlock ⟨⟨'-' :: rest, place⟩, log, (place.column + 1) :: margins, true, none,
      []⟩ place.column = false := decide_eq_false (Nat.not_le.2 (Nat.lt_succ_self _))
  rw [result_text _ (by decide) (by decide) (by decide) (by decide) (Nat.le_refl _),
    readToken_dash hrest]
  simp only [readDash, openBlock?, inFlow, openBlock, column, hinside]
  rfl

end

end Scan
end Yaml
end CiPipelines
