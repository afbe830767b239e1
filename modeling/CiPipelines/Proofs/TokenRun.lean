import CiPipelines.Proofs.Places
import CiPipelines.Proofs.TokenProgress

/-!
# Runs of the token reader

Since each token shortens the text that is left, the steps that the reader is allowed always
suffice and can be forgotten: `Scan.result` is what a run gives from any state on.  A run depends
on a state only through the state at its next token, so white space, comments and pending keys
that are too far away make no difference.
-/

namespace CiPipelines
namespace Yaml

/-- Logs with the same tokens are the same. -/
theorem TokenLog.ext_toList {a b : TokenLog} (h : a.toList = b.toList) : a = b := by
  have hnewest : a.newest = b.newest := List.reverse_inj.1 h
  have hsize : a.size = b.size := by rw [a.size_eq, b.size_eq, hnewest]
  cases a
  cases b
  simp_all

namespace Scan

/-- The state at the next token: pending keys that are too far away are given up and the blocks
that end in front of the token are closed. -/
def approach (s : Scan) : Option Scan :=
  s.toToken.dropFarKeys.map fun s => s.closeBlocks (s.column + 1)

/-- What a run gives from a state on. -/
def result (s : Scan) : Option (List Token) := tokens? (s.cursor.rest.length + 1) s

/-- Where there is nothing to skip nothing changes. -/
theorem skipBlank_cursor (inFlow keyAllowed inComment : Bool) (place : Place) (text : List Char) :
    (skipBlank inFlow keyAllowed inComment place text).1 = ⟨text, place⟩ ∨
      (skipBlank inFlow keyAllowed inComment place text).1.rest.length < text.length := by
  have hskip : ∀ (skipped : List Char) {cursor : Cursor} {rest : List Char} {place : Place},
      cursor = ⟨rest, place⟩ ∨ cursor.rest.length < rest.length → skipped ≠ [] →
        cursor.rest.length < (skipped ++ rest).length := by
    intro skipped cursor rest place hcursor hskipped
    have hpos := List.length_pos_iff.2 hskipped
    rw [List.length_append]
    rcases hcursor with rfl | hlt
    · simp only
      omega
    · omega
  fun_induction skipBlank inFlow keyAllowed inComment place text with
  | case1 | case6 => exact .inl rfl
  | case2 keyAllowed inComment place rest ih =>
    exact .inr (hskip ['\r', '\n'] ih (by simp))
  | case3 keyAllowed inComment place c rest _ _ ih
  | case4 keyAllowed inComment place c rest _ _ _ ih
  | case5 keyAllowed inComment place c rest _ _ _ _ ih =>
    exact .inr (hskip [c] ih (by simp))

theorem toToken_cursor (s : Scan) :
    s.toToken.cursor = s.cursor ∨ s.toToken.cursor.rest.length < s.cursor.rest.length := by
  unfold toToken
  have hskip := fun here : Cursor =>
    skipBlank_cursor s.inFlow s.keyAllowed false here.place here.rest
  split
  · rename_i rest hrest
    split
    · have hmark : (s.cursor.skip 1).rest.length < s.cursor.rest.length :=
        Cursor.length_skip_one_lt (by simp [hrest])
      rcases hskip (s.cursor.skip 1) with heq | hlt
      · exact .inr (by simpa [heq] using hmark)
      · exact .inr (Nat.lt_trans hlt hmark)
    · exact hskip s.cursor
  · exact hskip s.cursor

/-- Giving up keys changes nothing else. -/
theorem dropFarKeys_eq {s s' : Scan} (h : s.dropFarKeys = some s') :
    ∃ pending outerPending, s' = { s with pending, outerPending } := by
  obtain ⟨pending, -, h⟩ := Option.bind_eq_some_iff.1 h
  obtain ⟨outerPending, -, h⟩ := Option.bind_eq_some_iff.1 h
  exact ⟨pending, outerPending, (Option.some.inj h).symm⟩

/-- Nothing in front of a token is text of a scalar. -/
theorem prepares_approach {s s' : Scan} (h : s.approach = some s') :
    (s'.cursor = s.cursor ∨ s'.cursor.rest.length < s.cursor.rest.length) ∧
      HoldsScalars s.log s'.log := by
  obtain ⟨near, hnear, rfl⟩ := Option.map_eq_some_iff.1 h
  obtain ⟨pending, outerPending, rfl⟩ := dropFarKeys_eq hnear
  have hprepares := prepares_closeBlocks { s.toToken with pending, outerPending }
    (s.toToken.column + 1)
  refine ⟨?_, hprepares.scalars⟩
  have hcursor : (closeBlocks { s.toToken with pending, outerPending }
      (s.toToken.column + 1)).cursor = s.toToken.cursor := hprepares.cursor
  simp only [column] at hcursor ⊢
  rw [hcursor]
  exact toToken_cursor s

theorem length_approach_le {s s' : Scan} (h : s.approach = some s') :
    s'.cursor.rest.length ≤ s.cursor.rest.length := by
  rcases (prepares_approach h).1 with heq | hlt
  · exact Nat.le_of_eq (congrArg (·.rest.length) heq)
  · exact Nat.le_of_lt hlt

/-- One step of a run. -/
theorem tokens?_succ (steps : Nat) (s : Scan) :
    tokens? (steps + 1) s = s.approach.bind fun s =>
      match s.cursor.rest with
      | [] => s.finish
      | c :: rest => (s.readToken c rest).bind (tokens? steps) := by
  rw [tokens?, approach, Option.bind_map]
  rfl

/-- More steps than there are characters left are as good as any other such number. -/
theorem tokens?_eq_of_lt {n m : Nat} {s : Scan} (hn : s.cursor.rest.length < n)
    (hm : s.cursor.rest.length < m) : tokens? n s = tokens? m s := by
  induction n generalizing m s with
  | zero => exact absurd hn (Nat.not_lt_zero _)
  | succ n ih =>
    obtain ⟨m, rfl⟩ : ∃ k, m = k + 1 := ⟨m - 1, by omega⟩
    rw [tokens?_succ, tokens?_succ]
    refine Option.bind_congr fun near hnear => ?_
    have hlength := length_approach_le hnear
    split
    · rfl
    · rename_i c rest hrest
      refine Option.bind_congr fun next hnext => ?_
      have hshorter := (readToken_advances hrest hnext).1
      exact ih (by omega) (by omega)

theorem tokens?_eq_result {n : Nat} {s : Scan} (h : s.cursor.rest.length < n) :
    tokens? n s = result s :=
  tokens?_eq_of_lt h (Nat.lt_succ_self _)

/-- A run reads the next token and goes on. -/
theorem result_eq (s : Scan) :
    result s = s.approach.bind fun s =>
      match s.cursor.rest with
      | [] => s.finish
      | c :: rest => (s.readToken c rest).bind result := by
  rw [result, tokens?_succ]
  refine Option.bind_congr fun near hnear => ?_
  have hlength := length_approach_le hnear
  split
  · rfl
  · rename_i c rest hrest
    refine Option.bind_congr fun next hnext => ?_
    have hshorter := (readToken_advances hrest hnext).1
    exact tokens?_eq_result (by omega)

/-- States with the same next token have the same run. -/
theorem result_congr {s s' : Scan} (h : s.approach = s'.approach) : result s = result s' := by
  rw [result_eq, result_eq, h]

theorem result_congr_toToken {s s' : Scan} (h : s.toToken = s'.toToken) : result s = result s' :=
  result_congr (by rw [approach, approach, h])

/-- A run from a state at a token. -/
theorem result_of_approach {s s' : Scan} {c : Char} {rest : List Char}
    (h : s.approach = some s') (hrest : s'.cursor.rest = c :: rest) :
    result s = (s'.readToken c rest).bind result := by
  rw [result_eq, h, Option.bind_some]
  split
  · rename_i hnil
    rw [hrest] at hnil
    cases hnil
  · rename_i c' rest' hcons
    obtain ⟨rfl, rfl⟩ := List.cons.inj (hrest.symm.trans hcons)
    rfl

/-- A scalar that a run gives was there before, or holds at most as many characters as were left. -/
theorem scalar_of_mem_tokens? {steps : Nat} {s : Scan} {ts : List Token}
    (h : tokens? steps s = some ts) {style : Style} {text : String}
    (hmem : .scalar style text ∈ ts) : .scalar style text ∈ s.log.toList ∨
      text.length + style.marks ≤ s.cursor.rest.length := by
  -- A later scalar is bounded by what is left later, and that is less.
  induction steps generalizing s with
  | zero => simp [tokens?] at h
  | succ steps ih =>
    rw [tokens?_succ] at h
    obtain ⟨near, hnear, h⟩ := Option.bind_eq_some_iff.1 h
    have hlength := length_approach_le hnear
    have hscalars := (prepares_approach hnear).2
    split at h
    · obtain ⟨dropped, hdropped, h⟩ := Option.bind_eq_some_iff.1 h
      obtain rfl := Option.some.inj h
      have hprepares := (prepares_closeBlocks near 0).trans (prepares_dropKey hdropped)
      exact .inl (hscalars _ _ (hprepares.scalars _ _ hmem))
    · rename_i c rest hrest
      obtain ⟨next, hnext, h⟩ := Option.bind_eq_some_iff.1 h
      obtain ⟨hshorter, hadded⟩ := readToken_advances hrest hnext
      rcases ih h with hold | hnew
      · rcases hadded _ _ hold with hold | hnew
        · exact .inl (hscalars _ _ hold)
        · exact .inr (by omega)
      · exact .inr (by omega)

/-! ## White space in a block -/

section

variable {log : TokenLog} {margins : List Nat} {keyAllowed : Bool} {pending : Option PendingKey}

/-- Going to the next token where no byte order mark is to be skipped. -/
theorem toToken_eq {place : Place} {rest : List Char}
    (h : place.index = 0 → rest.head? ≠ some '\ufeff') :
    toToken ⟨⟨rest, place⟩, log, margins, keyAllowed, pending, []⟩ =
      let (cursor, keyAllowed) := skipBlank false keyAllowed false place rest
      ⟨cursor, log, margins, keyAllowed, pending, []⟩ := by
  unfold toToken
  split
  · rename_i rest' hrest
    have hrest : rest = '\ufeff' :: rest' := hrest
    have hpos : place.index ≠ 0 := fun hzero => h hzero (by rw [hrest]; rfl)
    simp [hpos, inFlow]
  · rfl

/-- After a line break a key may start. -/
theorem toToken_break {c : Char} {rest : List Char} (place : Place) (hbreak : isBreak c = true)
    (hcrlf : ∀ rest', c = '\r' → rest = '\n' :: rest' → False) :
    toToken ⟨⟨c :: rest, place⟩, log, margins, keyAllowed, pending, []⟩ =
      toToken ⟨⟨rest, place.newLine 1⟩, log, margins, true, pending, []⟩ := by
  have hmark : c ≠ '\ufeff' := by
    rintro rfl
    exact absurd hbreak (by decide)
  rw [toToken_eq fun _ => by simpa using hmark, toToken_eq fun h => absurd h (Nat.succ_ne_zero _),
    skipBlank.eq_3 _ _ _ _ _ _ hcrlf, if_pos hbreak, Bool.not_false, Bool.or_true]

theorem toToken_lineFeed (place : Place) (rest : List Char) :
    toToken ⟨⟨'\n' :: rest, place⟩, log, margins, keyAllowed, pending, []⟩ =
      toToken ⟨⟨rest, place.newLine 1⟩, log, margins, true, pending, []⟩ :=
  toToken_break place (by decide) fun _ h => absurd h (by decide)

theorem toToken_carriageReturn (place : Place) (rest : List Char) :
    toToken ⟨⟨'\r' :: '\n' :: rest, place⟩, log, margins, keyAllowed, pending, []⟩ =
      toToken ⟨⟨rest, place.newLine 2⟩, log, margins, true, pending, []⟩ := by
  rw [toToken_eq (by simp), toToken_eq fun h => absurd h (Nat.succ_ne_zero _), skipBlank.eq_2,
    Bool.not_false, Bool.or_true]

theorem toToken_space (place : Place) (rest : List Char) :
    toToken ⟨⟨' ' :: rest, place⟩, log, margins, keyAllowed, pending, []⟩ =
      toToken ⟨⟨rest, place.forward 1⟩, log, margins, keyAllowed, pending, []⟩ := by
  rw [toToken_eq (by simp), toToken_eq fun h => absurd h (Nat.succ_ne_zero _)]
  simp [skipBlank, isBreak]

theorem toToken_spaces (n : Nat) (place : Place) (rest : List Char) :
    toToken ⟨⟨List.replicate n ' ' ++ rest, place⟩, log, margins, keyAllowed, pending, []⟩ =
      toToken ⟨⟨rest, place.forward n⟩, log, margins, keyAllowed, pending, []⟩ := by
  induction n generalizing place with
  | zero => rfl
  | succ n ih =>
    rw [List.replicate_succ, List.cons_append, toToken_space, ih, Place.forward_forward,
      Nat.add_comm]

/-- The text of a comment is skipped. -/
theorem skipBlank_comment {note : List Char} (keyAllowed : Bool) (place : Place)
    (rest : List Char) (h : ∀ c ∈ note, isBreak c = false) :
    skipBlank false keyAllowed true place (note ++ '\n' :: rest) =
      skipBlank false true false ((place.forward note.length).newLine 1) rest := by
  induction note generalizing place with
  | nil => simp [skipBlank, isBreak, Place.forward]
  | cons c note ih =>
    have hbreak := h c (List.mem_cons_self ..)
    rw [List.cons_append, skipBlank.eq_3 _ _ _ _ _ _ fun _ h =>
      absurd h (ne_carriageReturn_of_isBreak hbreak)]
    simp only [hbreak, Bool.false_eq_true, if_false, Bool.true_or, if_true]
    rw [ih _ fun d hd => h d (List.mem_cons_of_mem _ hd)]
    simp [Nat.add_comm]

theorem toToken_comment {note : List Char} (place : Place) (rest : List Char)
    (h : ∀ c ∈ note, isBreak c = false) :
    toToken ⟨⟨'#' :: (note ++ '\n' :: rest), place⟩, log, margins, keyAllowed, pending, []⟩ =
      toToken ⟨⟨rest, (place.forward (note.length + 1)).newLine 1⟩, log, margins, true, pending,
        []⟩ := by
  have hskip : skipBlank false keyAllowed false place ('#' :: (note ++ '\n' :: rest)) =
      skipBlank false keyAllowed true (place.forward 1) (note ++ '\n' :: rest) := by
    rw [skipBlank.eq_3 _ _ _ _ _ _ fun _ h => absurd h (by decide)]
    simp [isBreak]
  rw [toToken_eq (by simp), toToken_eq fun h => absurd h (Nat.succ_ne_zero _), hskip,
    skipBlank_comment _ _ _ h, Place.forward_forward, Nat.add_comm]

/-- A token starts at a character that is neither white space nor a comment. -/
theorem toToken_text {c : Char} (place : Place) (rest : List Char) (hblank : isBlank c = false)
    (hbreak : isBreak c = false) (hhash : c ≠ '#') (hmark : c ≠ '\ufeff') :
    toToken ⟨⟨c :: rest, place⟩, log, margins, keyAllowed, pending, []⟩ =
      ⟨⟨c :: rest, place⟩, log, margins, keyAllowed, pending, []⟩ := by
  rw [toToken_eq (by simp [hmark]), skipBlank.eq_3 _ _ _ _ _ _ fun _ h =>
    absurd h (ne_carriageReturn_of_isBreak hbreak)]
  simp [hbreak, ne_space_of_isBlank hblank, ne_tab_of_isBlank hblank, hhash]

/-- Going to the first text on a line skips only white space. -/
theorem toToken_toFirstText (place : Place) (text : List Char) :
    toToken ⟨toFirstText place text, log, margins, true, pending, []⟩ =
      toToken ⟨⟨text, place⟩, log, margins, true, pending, []⟩ := by
  induction text generalizing place with
  | nil => rfl
  | cons c rest ih =>
    rw [toFirstText]
    split
    · rename_i hc
      rw [ih, hc, toToken_lineFeed]
    · split
      · rename_i hc
        rw [ih, hc, toToken_space]
      · rfl

/-- In front of text that starts at column `limit` at most, so does the next token. -/
theorem toToken_outside {limit : Nat} {text : List Char} {place : Place} (h : Outside limit text)
    (hplace : place.column = 0) :
    ∃ cursor : Cursor, cursor.place.column ≤ limit ∧ place.line ≤ cursor.place.line ∧
      ∀ log margins pending, toToken ⟨⟨text, place⟩, log, margins, true, pending, []⟩ =
        ⟨cursor, log, margins, true, pending, []⟩ := by
  induction h generalizing place with
  | nothing => exact ⟨⟨[], place⟩, by simp [hplace], Nat.le_refl _, fun _ _ _ => rfl⟩
  | @emptyLine rest _ ih =>
    obtain ⟨cursor, hcolumn, hline, hto⟩ := @ih (place.newLine 1) rfl
    refine ⟨cursor, hcolumn, Nat.le_of_succ_le hline, fun log margins pending => ?_⟩
    rw [toToken_lineFeed, hto]
  | @comment column note rest _ hnote _ ih =>
    obtain ⟨cursor, hcolumn, hline, hto⟩ :=
      @ih (((place.forward column).forward (note.length + 1)).newLine 1) rfl
    refine ⟨cursor, hcolumn, Nat.le_of_succ_le hline, fun log margins pending => ?_⟩
    rw [toToken_spaces, toToken_comment _ _ hnote, hto]
  | @token column c rest hcolumn hblank hbreak hhash hmark =>
    refine ⟨⟨c :: rest, place.forward column⟩, ?_, Nat.le_refl _, fun log margins pending => ?_⟩
    · simpa [Place.forward, hplace] using hcolumn
    · rw [toToken_spaces, toToken_text _ _ hblank hbreak hhash hmark]

/-- The innermost block ends in front of text that is left of its entries. -/
theorem closeBlocks_cons {cursor : Cursor} {x limit : Nat} (h : limit < x) :
    closeBlocks ⟨cursor, log, x :: margins, keyAllowed, pending, []⟩ limit =
      closeBlocks ⟨cursor, log.push .blockEnd, margins, keyAllowed, pending, []⟩ limit := by
  have hlog : ∀ n, log.pushAll (List.replicate (n + 1) .blockEnd) =
      (log.push .blockEnd).pushAll (List.replicate n .blockEnd) := fun n =>
    TokenLog.ext_toList (by simp [List.replicate_succ])
  have htake : (x :: margins).takeWhile (limit < ·) = x :: margins.takeWhile (limit < ·) := by
    simp [h]
  simp only [closeBlocks, inFlow, List.isEmpty_nil, Bool.not_true, Bool.false_eq_true, if_false,
    htake, List.length_cons, List.drop_succ_cons, hlog]

/-- No block ends in front of text inside the innermost one. -/
theorem closeBlocks_eq_self {cursor : Cursor} {limit : Nat} (h : margins.headD 0 ≤ limit) :
    closeBlocks ⟨cursor, log, margins, keyAllowed, pending, []⟩ limit =
      ⟨cursor, log, margins, keyAllowed, pending, []⟩ := by
  have hnone : margins.takeWhile (limit < ·) = [] := by
    cases margins with
    | nil => rfl
    | cons x margins =>
      have hx : x ≤ limit := h
      simp [Nat.not_lt.2 hx]
  simp [closeBlocks, inFlow, hnone, TokenLog.pushAll]

/-- A block ends in front of text that is left of its entries. -/
theorem result_close {limit x : Nat} {text : List Char} {place : Place} (h : Outside limit text)
    (hplace : place.column = 0) (hx : limit + 1 < x) :
    result ⟨⟨text, place⟩, log, x :: margins, true, none, []⟩ =
      result ⟨⟨text, place⟩, log.push .blockEnd, margins, true, none, []⟩ := by
  obtain ⟨cursor, hcolumn, -, hto⟩ := toToken_outside h hplace
  have hlimit : cursor.place.column + 1 < x := by omega
  refine result_congr ?_
  rw [approach, approach, hto, hto]
  exact congrArg some (closeBlocks_cons hlimit)

/-- A token is never in front of the white space that leads to it. -/
theorem skipBlank_line_le (inFlow keyAllowed inComment : Bool) (place : Place) (text : List Char) :
    place.line ≤ (skipBlank inFlow keyAllowed inComment place text).1.place.line := by
  fun_induction skipBlank inFlow keyAllowed inComment place text with
  | case1 | case6 => exact Nat.le_refl _
  | case2 keyAllowed inComment place rest ih => exact Nat.le_of_succ_le ih
  | case3 keyAllowed inComment place c rest _ _ ih => exact Nat.le_of_succ_le ih
  | case4 keyAllowed inComment place c rest _ _ _ ih => exact ih
  | case5 keyAllowed inComment place c rest _ _ _ _ ih => exact ih

/-- The next token is the same whatever key is pending. -/
theorem exists_toToken_eq (place : Place) (text : List Char) (log : TokenLog) (margins : List Nat)
    (keyAllowed : Bool) : ∃ (cursor : Cursor) (keyAllowed' : Bool), place.line ≤ cursor.place.line ∧
      ∀ pending, toToken ⟨⟨text, place⟩, log, margins, keyAllowed, pending, []⟩ =
        ⟨cursor, log, margins, keyAllowed', pending, []⟩ := by
  have hskip := fun (place : Place) (text : List Char) =>
    skipBlank_line_le false keyAllowed false place text
  by_cases hmark : place.index = 0 ∧ text.head? = some '\ufeff'
  · obtain ⟨rest, rfl⟩ := List.head?_eq_some_iff.1 hmark.2
    refine ⟨_, (skipBlank false keyAllowed false (place.forward 1) rest).2,
      hskip (place.forward 1) rest, fun pending => ?_⟩
    unfold toToken
    dsimp only
    rw [if_pos hmark.1]
    rfl
  · exact ⟨_, _, hskip place text, fun _ => toToken_eq fun hindex hhead => hmark ⟨hindex, hhead⟩⟩

/-- A pending key on an earlier line that need not be one is forgotten. -/
theorem result_pending {text : List Char} {place : Place} {k : PendingKey}
    (hrequired : k.required = false) (hline : k.place.line < place.line) :
    result ⟨⟨text, place⟩, log, margins, keyAllowed, some k, []⟩ =
      result ⟨⟨text, place⟩, log, margins, keyAllowed, none, []⟩ := by
  obtain ⟨cursor, keyAllowed', hmore, hto⟩ :=
    exists_toToken_eq place text log margins keyAllowed
  have hfar : keepNear cursor.place (some k) = some none := by
    simp [keepNear, hrequired, Nat.lt_of_lt_of_le hline hmore]
  refine result_congr ?_
  rw [approach, approach, hto, hto]
  simp only [dropFarKeys, hfar]
  rfl

/-- At a token inside the innermost block only a pending key may be given up. -/
theorem approach_text {c : Char} {place : Place} (rest : List Char) (hblank : isBlank c = false)
    (hbreak : isBreak c = false) (hhash : c ≠ '#') (hmark : c ≠ '\ufeff')
    (hmargin : margins.headD 0 ≤ place.column + 1) :
    approach ⟨⟨c :: rest, place⟩, log, margins, keyAllowed, pending, []⟩ =
      (keepNear place pending).map fun pending =>
        ⟨⟨c :: rest, place⟩, log, margins, keyAllowed, pending, []⟩ := by
  rw [approach, toToken_text _ _ hblank hbreak hhash hmark]
  cases hkeep : keepNear place pending with
  | none => simp [dropFarKeys, hkeep]
  | some kept =>
    simp only [dropFarKeys, hkeep, List.mapM_nil, Option.bind_eq_bind, Option.bind_some,
      Option.pure_def, Option.map_some, column]
    rw [closeBlocks_eq_self hmargin]

/-- A token inside the innermost block is read next. -/
theorem result_text {c : Char} {place : Place} (rest : List Char) (hblank : isBlank c = false)
    (hbreak : isBreak c = false) (hhash : c ≠ '#') (hmark : c ≠ '\ufeff')
    (hmargin : margins.headD 0 ≤ place.column + 1) :
    result ⟨⟨c :: rest, place⟩, log, margins, keyAllowed, none, []⟩ =
      (readToken ⟨⟨c :: rest, place⟩, log, margins, keyAllowed, none, []⟩ c rest).bind result :=
  result_of_approach (approach_text rest hblank hbreak hhash hmark hmargin) rfl

/-- At the end of the text all blocks that start in the first column end. -/
theorem result_end (place : Place) (h : margins.headD 0 ≤ 1) :
    result ⟨⟨[], place⟩, log, margins, true, none, []⟩ =
      some (closeBlocks ⟨⟨[], place⟩, log, margins, true, none, []⟩ 0).log.toList := by
  have happroach : approach ⟨⟨[], place⟩, log, margins, true, none, []⟩ =
      some ⟨⟨[], place⟩, log, margins, true, none, []⟩ := by
    have hclose : closeBlocks ⟨⟨[], place⟩, log, margins, true, none, []⟩ (place.column + 1) =
        ⟨⟨[], place⟩, log, margins, true, none, []⟩ :=
      closeBlocks_eq_self (Nat.le_trans h (Nat.le_add_left _ _))
    exact congrArg some hclose
  rw [result_eq, happroach, Option.bind_some]
  simp [finish, dropKey, closeBlocks, inFlow]

end

end Scan
end Yaml
end CiPipelines
