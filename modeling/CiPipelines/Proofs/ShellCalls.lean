import CiPipelines.Proofs.JenkinsLines
import Mathlib.Data.List.Basic

/-!
# Calls of the `sh` step

A command can stand between single or double quotes, one or three of them, and the call around it
can have parentheses, the word `script:` in front and further arguments behind.  Whatever stands in
the command, the reader finds its end, for the last quote of the line is the one that closes it.

Which quotes they are is another matter.  Three quotes are told from one only where the quoted
command is the whole call.  With `script:` in front or arguments behind, two of the three are read as
part of the command, on either side.
-/

namespace CiPipelines

namespace Jenkins

/-! ## Quotations -/

namespace Fence

/-- One of the three quotes. -/
def quote : Fence → Char
  | single => '\''
  | double => '"'

/-- A command as it is written between the quotes. -/
def written (f : Fence) (command : List Char) : List Char :=
  match f with
  | single => escape command
  | double => command

/-- Whether a command can stand between the quotes: nothing is escaped between double ones. -/
def Admits (f : Fence) (command : List Char) : Prop := f = double → '"' ∉ command

theorem isQuote_quote (f : Fence) : isQuote f.quote = true := by
  cases f <;> rfl

theorem isSpace_quote (f : Fence) : Text.isSpace f.quote = false := by
  cases f <;> rfl

theorem mark_eq (f : Fence) : f.mark = [f.quote, f.quote, f.quote] := by
  cases f <;> rfl

theorem command_written (f : Fence) (command : List Char) :
    f.command (f.written command) = command := by
  cases f with
  | single => exact unescape_escape command
  | double => rfl

theorem head?_written {f : Fence} {command : List Char} (h : f.Admits command) :
    (f.written command).head? ≠ some f.quote := by
  cases f with
  | single => exact head?_escape command
  | double => exact fun heq => h rfl (List.mem_of_head? heq)

theorem written_ne_nil (f : Fence) {command : List Char} (h : command ≠ []) :
    f.written command ≠ [] := by
  cases f with
  | single => exact escape_ne_nil h
  | double => exact h

/-- What stands between fences, read exactly. -/
theorem inside?_eq_some_iff (f : Fence) {argument inside : List Char} :
    f.inside? argument = some inside ↔ argument = f.mark ++ inside ++ f.mark := by
  unfold inside?
  cases hrest : f.mark.isPrefixOf? argument with
  | none =>
    refine iff_of_false (by simp) fun heq => ?_
    have hstart : f.mark.isPrefixOf? argument = some (inside ++ f.mark) :=
      List.isPrefixOf?_eq_some_iff_append_eq.2 (by rw [heq, List.append_assoc])
    exact absurd (hrest.symm.trans hstart) (by simp)
  | some rest =>
    obtain rfl := List.isPrefixOf?_eq_some_iff_append_eq.1 hrest
    have hmark : f.mark.length = 3 := by rw [mark_eq]; rfl
    rw [List.append_assoc, List.append_cancel_left_eq]
    constructor
    · intro h
      simp only [Option.bind_eq_bind, Option.bind_some] at h
      split at h
      · rename_i hend
        rw [Bool.and_eq_true, beq_iff_eq] at hend
        obtain rfl := Option.some.inj h
        rw [← hend.2, List.take_append_drop]
      · cases h
    · rintro rfl
      simp [hmark]

end Fence

/-- The quotes around a command. -/
structure Quotation where
  fence : Fence
  /-- Whether there are three of them on either side. -/
  tripled : Bool
  deriving DecidableEq, Repr

namespace Quotation

/-- Quotes that belong to the quotation besides the innermost one. -/
def outer (q : Quotation) : List Char :=
  if q.tripled then [q.fence.quote, q.fence.quote] else []

/-- A command in quotes. -/
def text (q : Quotation) (command : List Char) : List Char :=
  let marks := if q.tripled then q.fence.mark else [q.fence.quote]
  marks ++ q.fence.written command ++ marks

/-- Whatever the number of quotes, the text stands between two of them. -/
theorem text_eq (q : Quotation) (command : List Char) :
    q.text command = q.fence.quote ::
      (q.outer ++ q.fence.written command ++ q.outer ++ [q.fence.quote]) := by
  obtain ⟨fence, tripled⟩ := q
  cases tripled
  · simp [text, outer]
  · simp [text, outer, Fence.mark_eq]

theorem mem_text (q : Quotation) {command : List Char} {c : Char} (h : c ∈ q.text command) :
    c = q.fence.quote ∨ c ∈ command ∨ c = '\\' := by
  have houter : ∀ {c}, c ∈ q.outer → c = q.fence.quote := by
    intro c hc
    rw [outer] at hc
    split at hc
    · simpa using hc
    · exact absurd hc List.not_mem_nil
  rw [text_eq, List.mem_cons, List.mem_append, List.mem_append, List.mem_append,
    List.mem_singleton] at h
  rcases h with h | ((h | h) | h) | h
  · exact .inl h
  · exact .inl (houter h)
  · cases hfence : q.fence with
    | single =>
      rw [hfence] at h
      exact .inr (mem_escape h)
    | double =>
      rw [hfence] at h
      exact .inr (.inl h)
  · exact .inl (houter h)
  · exact .inl h

end Quotation

/-- What follows escaped text is read behind the text. -/
theorem unescape_escape_append (text rest : List Char) :
    unescape (escape text ++ rest) = text ++ unescape rest := by
  induction text with
  | nil => rfl
  | cons c text ih =>
    rw [escape]
    split
    · rename_i h
      rcases h with rfl | rfl <;> simp [unescape, ih]
    · rename_i h
      have hb : c ≠ '\\' := fun e => h (.inr e)
      rw [List.cons_append, unescape.eq_3 _ _ (fun _ e _ => hb e) (fun _ e _ => hb e), ih,
        List.cons_append]

/-- Further quotes inside a quotation are read as part of the command. -/
theorem command_outer (q : Quotation) (command : List Char) :
    q.fence.command (q.outer ++ q.fence.written command ++ q.outer) =
      q.outer ++ command ++ q.outer := by
  obtain ⟨fence, tripled⟩ := q
  cases tripled
  · simpa [Quotation.outer] using fence.command_written command
  · cases fence with
    | single =>
      show unescape ('\'' :: '\'' :: (escape command ++ ['\'', '\''])) = _
      have hend : unescape ['\'', '\''] = ['\'', '\''] := by decide
      rw [unescape.eq_3 _ _ (by simp) (by simp), unescape.eq_3 _ _ (by simp) (by simp),
        unescape_escape_append, hend]
      rfl
    | double => rfl

/-! ## Calls -/

/-- The marks that end a call. -/
def callEnd (parenthesized semicolon : Bool) : List Char :=
  (if parenthesized then [')'] else []) ++ if semicolon then [';'] else []

/-- A call of the `sh` step, apart from its command. -/
structure Call where
  /-- Whether the arguments stand in parentheses. -/
  parenthesized : Bool
  /-- Whether the command is an argument by the name of `script`. -/
  named : Bool
  /-- Further arguments: names and values. -/
  arguments : List (String × String)
  /-- Whether a semicolon ends the call. -/
  semicolon : Bool
  deriving DecidableEq, Repr

namespace Call

/-- A further argument. -/
def argumentText (argument : String × String) : List Char :=
  ", ".toList ++ argument.1.toList ++ ": ".toList ++ argument.2.toList

/-- What stands before the command. -/
def opening (call : Call) : List Char :=
  (if call.parenthesized then "sh(".toList else "sh ".toList)
    ++ (if call.named then "script: ".toList else [])

/-- What stands behind the command. -/
def closing (call : Call) : List Char :=
  call.arguments.flatMap argumentText ++ callEnd call.parenthesized call.semicolon

/-- The call of a command. -/
def text (call : Call) (q : Quotation) (command : List Char) : List Char :=
  call.opening ++ q.text command ++ call.closing

/-- A call on one line whose further arguments hold no quotes. -/
def Plain (call : Call) : Prop :=
  ∀ argument ∈ call.arguments, ∀ c ∈ argument.1.toList ++ argument.2.toList,
    isQuote c = false ∧ c ≠ '\n'

/-- Whether the quoted command is all that the call has. -/
def bare (call : Call) : Bool := !call.named && call.arguments.isEmpty

/-- The command that is read of a call. -/
def command (call : Call) (q : Quotation) (text : List Char) : List Char :=
  if call.bare then text else q.outer ++ text ++ q.outer

theorem command_of_other {call : Call} {q : Quotation}
    (h : ¬(call.bare = true ∧ q.tripled = true)) (text : List Char) :
    call.command q text = q.outer ++ text ++ q.outer := by
  rw [command]
  split
  · rename_i hbare
    have hsingle : ¬q.tripled = true := fun htripled => h ⟨hbare, htripled⟩
    rw [Quotation.outer, if_neg hsingle, List.nil_append, List.append_nil]
  · rfl

/-- Nothing is added to the command unless three quotes stand in a call with more than a command. -/
theorem command_eq_iff {call : Call} {q : Quotation} {text : List Char} :
    call.command q text = text ↔ (q.tripled = true → call.bare = true) := by
  rw [command]
  split
  · rename_i hbare
    exact iff_of_true rfl fun _ => hbare
  · rename_i hbare
    rw [Quotation.outer]
    constructor
    · intro heq htripled
      have hlength := congrArg List.length heq
      simp [htripled] at hlength
      omega
    · intro h
      rw [if_neg fun htripled => hbare (h htripled), List.nil_append, List.append_nil]

end Call

/-- What can stand behind the quoted command of a call, and whether it ends there. -/
inductive IsClosing : Bool → List Char → Prop where
  /-- Nothing but the end of the call. -/
  | stop (parenthesized semicolon : Bool) : IsClosing true (callEnd parenthesized semicolon)
  /-- Further arguments. -/
  | arguments {rest : List Char} (h : ∀ c ∈ rest, isQuote c = false) : IsClosing false (',' :: rest)

namespace IsClosing

variable {ends : Bool} {closing : List Char}

theorem isQuote (h : IsClosing ends closing) : ∀ c ∈ closing, isQuote c = false := by
  cases h with
  | stop parenthesized semicolon =>
    cases parenthesized <;> cases semicolon <;> simp [callEnd, Jenkins.isQuote]
  | arguments h => exact List.forall_mem_cons.2 ⟨by decide, h⟩

theorem endsCall (h : IsClosing ends closing) : endsCall closing = true := by
  cases h with
  | stop parenthesized semicolon => cases parenthesized <;> cases semicolon <;> rfl
  | arguments h => rfl

/-- White space at the end of the line does not matter. -/
theorem dropEndWhile (h : IsClosing ends closing) :
    IsClosing ends (Text.dropEndWhile Text.isSpace closing) := by
  cases h with
  | stop parenthesized semicolon =>
    have hstop : Text.dropEndWhile Text.isSpace (callEnd parenthesized semicolon) =
        callEnd parenthesized semicolon := by
      cases parenthesized <;> cases semicolon <;> rfl
    rw [hstop]
    exact .stop parenthesized semicolon
  | @arguments rest h =>
    have hcomma : Text.dropEndWhile Text.isSpace (',' :: rest) =
        ',' :: Text.dropEndWhile Text.isSpace rest := Text.dropEndWhile_append (by decide) [] rest
    rw [hcomma]
    exact .arguments fun c hc => h c ((List.rdropWhile_prefix ..).subset hc)

end IsClosing

namespace Call.Plain

variable {call : Call} (h : call.Plain)

include h

/-- Behind the command there are neither quotes nor line feeds. -/
theorem closing : ∀ c ∈ call.closing, isQuote c = false ∧ c ≠ '\n' := by
  have hcomma : ∀ c ∈ ", ".toList, isQuote c = false ∧ c ≠ '\n' := by simp [isQuote]
  have hcolon : ∀ c ∈ ": ".toList, isQuote c = false ∧ c ≠ '\n' := by simp [isQuote]
  intro c hc
  rw [Call.closing, List.mem_append] at hc
  rcases hc with hc | hc
  · obtain ⟨argument, hargument, hc⟩ := List.mem_flatMap.1 hc
    rw [argumentText, List.mem_append, List.mem_append, List.mem_append] at hc
    rcases hc with ((hc | hc) | hc) | hc
    · exact hcomma c hc
    · exact h argument hargument c (List.mem_append_left _ hc)
    · exact hcolon c hc
    · exact h argument hargument c (List.mem_append_right _ hc)
  · have hfeed : '\n' ∉ callEnd call.parenthesized call.semicolon := by
      cases call.parenthesized <;> cases call.semicolon <;> simp [callEnd]
    exact ⟨(IsClosing.stop call.parenthesized call.semicolon).isQuote c hc,
      fun heq => hfeed (heq ▸ hc)⟩

/-- A call closes with its arguments, or ends behind the command. -/
theorem isClosing : IsClosing call.arguments.isEmpty call.closing := by
  have hclosing := h.closing
  obtain ⟨parenthesized, named, arguments, semicolon⟩ := call
  cases arguments with
  | nil => exact .stop parenthesized semicolon
  | cons argument arguments =>
    exact .arguments fun c hc => (hclosing c (List.mem_cons_of_mem _ hc)).1

end Call.Plain

/-! ## The end of the command -/

/-- Behind any opening, the text between the first quote and the last one is the command. -/
theorem quotedCommand?_opening (call : Call) (f : Fence) (rest : List Char) :
    quotedCommand? (call.opening ++ f.quote :: rest) =
      (let tail := (rest.reverse.takeWhile fun c => !isQuote c).reverse
      let inside := rest.take (rest.length - tail.length)
      if isQuote f.quote && inside.getLast? == some f.quote && endsCall tail then
        some (if f.quote == '\'' then unescape inside.dropLast else inside.dropLast)
      else none) := by
  obtain ⟨parenthesized, named, arguments, semicolon⟩ := call
  cases parenthesized <;> cases named <;> cases f <;> rfl

/-- A quoted text is read up to the last quote, whatever quotes stand inside. -/
theorem quotedCommand?_quoted (call : Call) (f : Fence) (inside : List Char) {ends : Bool}
    {closing : List Char} (h : IsClosing ends closing) :
    quotedCommand? (call.opening ++ f.quote :: (inside ++ [f.quote] ++ closing)) =
      some (f.command inside) := by
  have htail : ((inside ++ [f.quote] ++ closing).reverse.takeWhile fun c => !isQuote c).reverse =
      closing := by
    have hall : ∀ c ∈ closing.reverse, (!isQuote c) = true := fun c hc => by
      rw [h.isQuote c (List.mem_reverse.1 hc)]
      rfl
    have hlast : ((inside ++ [f.quote]).reverse.takeWhile fun c => !isQuote c) = [] := by
      simp [f.isQuote_quote]
    rw [List.reverse_append, List.takeWhile_append_of_pos hall, hlast, List.append_nil,
      List.reverse_reverse]
  have hinside : (inside ++ [f.quote] ++ closing).take
      ((inside ++ [f.quote] ++ closing).length - closing.length) = inside ++ [f.quote] := by
    rw [List.length_append, Nat.add_sub_cancel, List.take_left]
  rw [quotedCommand?_opening]
  dsimp only
  rw [htail, hinside, List.getLast?_concat, List.dropLast_concat, h.endsCall, f.isQuote_quote]
  cases f <;> rfl

/-! ## Three quotes -/

/-- The argument of a call starts behind its opening parenthesis. -/
theorem shellArgument_opening (call : Call) (f : Fence) (rest : List Char) :
    shellArgument (call.opening ++ f.quote :: rest) =
      (if call.named then "script: ".toList else []) ++ f.quote :: rest := by
  obtain ⟨parenthesized, named, arguments, semicolon⟩ := call
  cases parenthesized <;> cases named <;> cases f <;> rfl

section

variable {call : Call} {q : Quotation} {command closing : List Char}

theorem shellArgument_call : shellArgument (call.opening ++ q.text command ++ closing) =
    (if call.named then "script: ".toList else []) ++ q.text command ++ closing := by
  rw [q.text_eq, List.append_assoc call.opening, List.cons_append, shellArgument_opening]
  exact (List.append_assoc _ (q.fence.quote :: _) closing).symm

/-- Only three quotes at the start of an argument are two. -/
theorem call_ne_quotes (hne : command ≠ []) (hadmits : q.fence.Admits command)
    (h : call.named = true ∨ q.tripled = false) (f : Fence) (rest : List Char) :
    (if call.named then "script: ".toList else []) ++ q.text command ++ closing ≠
      f.quote :: f.quote :: rest := by
  intro heq
  by_cases hnamed : call.named = true
  · rw [if_pos hnamed] at heq
    have hletter : 's' = f.quote := (List.cons.inj heq).1
    cases f <;> exact absurd hletter (by decide)
  · have htripled : q.tripled = false := h.resolve_left hnamed
    obtain ⟨c, written, hwritten⟩ := List.exists_cons_of_ne_nil (q.fence.written_ne_nil hne)
    have hc := Fence.head?_written hadmits
    rw [hwritten, List.head?_cons] at hc
    rw [if_neg hnamed, Quotation.text, htripled, hwritten] at heq
    obtain ⟨hfirst, hrest⟩ := List.cons.inj heq
    have hsecond : c = f.quote := (List.cons.inj hrest).1
    exact hc (by rw [hsecond, ← hfirst])

/-- A call of a command does not open a text of several lines. -/
theorem openedFence?_call (hne : command ≠ []) (hadmits : q.fence.Admits command) :
    openedFence? (call.opening ++ q.text command ++ closing) = none := by
  have hnone : ∀ f : Fence, shellArgument (call.opening ++ q.text command ++ closing) ≠ f.mark := by
    intro f heq
    rw [shellArgument_call] at heq
    by_cases h : call.named = true ∨ q.tripled = false
    · exact call_ne_quotes hne hadmits h f [f.quote] (heq.trans f.mark_eq)
    · -- An argument in three quotes is longer than three quotes.
      rw [not_or, Bool.not_eq_false] at h
      have hlength := congrArg List.length heq
      simp [Quotation.text, h.1, h.2, Fence.mark_eq] at hlength
  rw [openedFence?, Fence.ofArgument?]
  simp only [List.find?_cons, List.find?_nil, beq_eq_false_iff_ne.2 (hnone _)]

/-- What is taken away from the end of a call in search of three quotes. -/
def isCallEnd (c : Char) : Bool := c == ' ' || c == ';' || c == ')'

theorem isCallEnd_quote (f : Fence) : isCallEnd f.quote = false := by
  cases f <;> rfl

/-- What is removed from the end of a call stands behind its quoted command. -/
theorem dropEndWhile_call {p : Char → Bool} (hkept : p q.fence.quote = false)
    (before : List Char) : Text.dropEndWhile p (before ++ q.text command ++ closing) =
      before ++ q.text command ++ Text.dropEndWhile p closing := by
  have hquote := Text.dropEndWhile_append hkept
    (before ++ q.fence.quote :: (q.outer ++ q.fence.written command ++ q.outer)) closing
  simpa [q.text_eq] using hquote

/-- A command between three quotes that is all of the call is read without them. -/
theorem fencedCommand?_of_bare (hbare : call.bare = true) (htripled : q.tripled = true)
    (hclosing : IsClosing call.arguments.isEmpty closing) :
    fencedCommand? (call.opening ++ q.text command ++ closing) = some command := by
  rw [Call.bare, Bool.and_eq_true, Bool.not_eq_true'] at hbare
  obtain ⟨hnamed, hempty⟩ := hbare
  -- Behind a call without further arguments there is nothing that `isCallEnd` would keep.
  have hstop : Text.dropEndWhile isCallEnd closing = [] := by
    rw [hempty] at hclosing
    cases hclosing with
    | stop parenthesized semicolon => cases parenthesized <;> cases semicolon <;> rfl
  have hargument : Text.dropEndWhile isCallEnd
      (shellArgument (call.opening ++ q.text command ++ closing)) =
        q.fence.mark ++ q.fence.written command ++ q.fence.mark := by
    rw [shellArgument_call, hnamed, dropEndWhile_call (isCallEnd_quote _), hstop,
      List.append_nil, Quotation.text, htripled]
    rfl
  have hinside := q.fence.inside?_eq_some_iff.2 hargument
  show ([Fence.single, Fence.double].findSome? fun f => (f.inside? (Text.dropEndWhile isCallEnd
    (shellArgument (call.opening ++ q.text command ++ closing)))).map f.command) = _
  cases hfence : q.fence with
  | single =>
    rw [hfence] at hinside
    rw [List.findSome?_cons, hinside]
    exact congrArg some (Fence.single.command_written command)
  | double =>
    rw [hfence] at hinside hargument
    have hsingle : Fence.single.inside? (Text.dropEndWhile isCallEnd
        (shellArgument (call.opening ++ q.text command ++ closing))) = none := by
      rw [hargument]
      rfl
    rw [List.findSome?_cons, hsingle, Option.map_none, List.findSome?_cons, hinside]
    rfl

theorem fencedCommand?_eq_none {line : List Char}
    (h : ∀ (f : Fence) (inside : List Char),
      Text.dropEndWhile isCallEnd (shellArgument line) ≠ f.mark ++ inside ++ f.mark) :
    fencedCommand? line = none := by
  have hinside : ∀ f : Fence,
      f.inside? (Text.dropEndWhile isCallEnd (shellArgument line)) = none := fun f =>
    Option.eq_none_iff_forall_ne_some.2 fun inside hsome => h f inside (f.inside?_eq_some_iff.1 hsome)
  show ([Fence.single, Fence.double].findSome? fun f =>
    (f.inside? (Text.dropEndWhile isCallEnd (shellArgument line))).map f.command) = none
  simp [hinside]

/-- Further arguments do not end in a quote. -/
theorem getLast?_arguments (hclosing : IsClosing false closing) (before : List Char) (f : Fence) :
    (before ++ Text.dropEndWhile isCallEnd closing).getLast? ≠ some f.quote := by
  cases hclosing with
  | @arguments rest hquotes =>
    have hcomma : Text.dropEndWhile isCallEnd (',' :: rest) =
        ',' :: Text.dropEndWhile isCallEnd rest :=
      Text.dropEndWhile_append (by decide) [] rest
    intro hlast
    rw [hcomma, List.getLast?_append_cons] at hlast
    have hmem : f.quote ∈ ',' :: rest := by
      rcases List.mem_cons.1 (List.mem_of_getLast? hlast) with heq | hmem
      · exact heq ▸ List.mem_cons_self ..
      · exact List.mem_cons_of_mem _ ((List.rdropWhile_prefix ..).subset hmem)
    exact absurd (IsClosing.isQuote (.arguments hquotes) _ hmem) (by simp [f.isQuote_quote])

/-- In any other call no three quotes are found. -/
theorem fencedCommand?_of_not_bare (hne : command ≠ []) (hadmits : q.fence.Admits command)
    (hother : ¬(call.bare = true ∧ q.tripled = true))
    (hclosing : IsClosing call.arguments.isEmpty closing) :
    fencedCommand? (call.opening ++ q.text command ++ closing) = none := by
  have hnone : ∀ (f : Fence) (inside : List Char), Text.dropEndWhile isCallEnd
      (shellArgument (call.opening ++ q.text command ++ closing)) ≠ f.mark ++ inside ++ f.mark := by
    intro f inside heq
    rw [shellArgument_call, dropEndWhile_call (isCallEnd_quote _)] at heq
    by_cases h : call.named = true ∨ q.tripled = false
    · rw [f.mark_eq] at heq
      exact call_ne_quotes hne hadmits h f _ heq
    · -- The call has further arguments, so it does not end in a quote.
      rw [not_or, Bool.not_eq_false, Bool.not_eq_true] at h
      have hmore : call.arguments.isEmpty = false := by
        rw [← Bool.not_eq_true]
        exact fun hempty => hother ⟨by rw [Call.bare, h.1, hempty]; rfl, h.2⟩
      refine getLast?_arguments (hmore ▸ hclosing) _ f ((congrArg List.getLast? heq).trans ?_)
      rw [f.mark_eq, List.getLast?_append]
      rfl
  exact fencedCommand?_eq_none hnone

/-- A call is read as one command. -/
theorem readShell_call (hne : command ≠ []) (hadmits : q.fence.Admits command)
    (hclosing : IsClosing call.arguments.isEmpty closing) (c : Contents) :
    c.readShell (call.opening ++ q.text command ++ closing) =
      c.addCommand (call.command q command) := by
  rw [Contents.readShell, openedFence?_call hne hadmits]
  show c.addCommand ((fencedCommand? (call.opening ++ q.text command ++ closing)).getD
    (shellCommand (call.opening ++ q.text command ++ closing))) = _
  by_cases h : call.bare = true ∧ q.tripled = true
  · rw [fencedCommand?_of_bare h.1 h.2 hclosing, Call.command, if_pos h.1]
    rfl
  · have hquoted := quotedCommand?_quoted call q.fence
      (q.outer ++ q.fence.written command ++ q.outer) hclosing
    rw [command_outer, ← List.cons_append, ← List.append_assoc, ← q.text_eq] at hquoted
    rw [fencedCommand?_of_not_bare hne hadmits h hclosing, Option.getD_none, shellCommand, hquoted]
    exact congrArg c.addCommand (Call.command_of_other h command).symm

/-- A line that starts like a call is one. -/
theorem readStepLine_opening (call : Call) (rest : List Char) (c : Contents) :
    c.readStepLine (call.opening ++ rest) = c.readShell (call.opening ++ rest) := by
  obtain ⟨parenthesized, named, arguments, semicolon⟩ := call
  obtain ⟨mode, commands, environment, image⟩ := c
  cases parenthesized <;> cases image <;> rfl

/-- A line is trimmed to its call, which may lose white space at its end. -/
theorem trim_call {indent : List Char} (hindent : ∀ c ∈ indent, Text.isSpace c = true) :
    Text.trim (indent ++ call.text q command) =
      call.opening ++ q.text command ++ Text.dropEndWhile Text.isSpace call.closing := by
  have hstart : (call.text q command).dropWhile Text.isSpace = call.text q command := by
    rw [Call.text, Call.opening]
    split <;> rfl
  rw [Text.trim, Text.stripWhile, List.dropWhile_append_of_pos hindent, hstart]
  exact dropEndWhile_call q.fence.isSpace_quote call.opening

end

/-! ## Files -/

/-- White space at the end of a line is trimmed. -/
theorem trim_concat {c : Char} (h : Text.isSpace c = true) (text : List Char) :
    Text.trim (text ++ [c]) = Text.trim text := by
  have hend : ∀ text : List Char, Text.dropEndWhile Text.isSpace (text ++ [c]) =
      Text.dropEndWhile Text.isSpace text := fun text => List.rdropWhile_concat_pos _ text c h
  rw [Text.trim, Text.trim, Text.stripWhile, Text.stripWhile, List.dropWhile_append]
  split
  · rename_i hempty
    rw [List.isEmpty_iff.1 hempty, List.dropWhile_cons, if_pos h]
    rfl
  · exact hend _

theorem trim_dropLastChar (text : List Char) :
    Text.trim (Text.dropLastChar '\r' text) = Text.trim text := by
  rw [Text.dropLastChar]
  split
  · rename_i hlast
    obtain ⟨before, rfl⟩ := List.getLast?_eq_some_iff.1 hlast
    rw [List.dropLast_concat, trim_concat (by decide)]
  · rfl

/-- How a line can end: with the file, or with a line break. -/
def lineEndings : List String := ["", "\n", "\r\n"]

/-- A file of one line is that line, but for its break. -/
theorem lines_line {l : List Char} (hfeed : '\n' ∉ l) (hne : l ≠ []) {ending : String}
    (hending : ending ∈ lineEndings) :
    ∃ l', Text.lines (l ++ ending.toList) = [l'] ∧ Text.trim l' = Text.trim l := by
  simp only [lineEndings, List.mem_cons, List.not_mem_nil, or_false] at hending
  rcases hending with rfl | rfl | rfl
  · have hsplit : l.splitOn '\n' = [l] := List.splitOn_eq_singleton hfeed
    refine ⟨l, ?_, rfl⟩
    obtain ⟨c, rest, rfl⟩ := List.exists_cons_of_ne_nil hne
    show Text.lines (c :: rest ++ []) = _
    rw [List.append_nil, Text.lines, hsplit]
    rfl
  · have hlines := Text.lines_flatMap (List.forall_mem_singleton.2 hfeed)
    rw [List.flatMap_singleton, List.map_singleton] at hlines
    exact ⟨_, hlines, trim_dropLastChar l⟩
  · have hfeed' : '\n' ∉ l ++ ['\r'] := by simpa using hfeed
    have hlines := Text.lines_flatMap (List.forall_mem_singleton.2 hfeed')
    rw [List.flatMap_singleton, List.map_singleton, List.append_assoc] at hlines
    exact ⟨_, hlines, (trim_dropLastChar _).trans (trim_concat (by decide) l)⟩

section

variable {call : Call} {q : Quotation} {command : String} (hcall : call.Plain)
  (hne : command ≠ "") (hline : '\n' ∉ command.toList) (hadmits : q.fence.Admits command.toList)

include hcall hline in
theorem lineFeed_not_mem_call : '\n' ∉ call.text q command.toList := by
  intro hmem
  rw [Call.text, List.mem_append, List.mem_append] at hmem
  rcases hmem with (hmem | hmem) | hmem
  · rw [Call.opening] at hmem
    split at hmem <;> split at hmem <;> exact absurd hmem (by decide)
  · rcases q.mem_text hmem with hmem | hmem | hmem
    · cases hfence : q.fence <;> exact absurd hmem (by rw [hfence]; decide)
    · exact hline hmem
    · exact absurd hmem (by decide)
  · exact (hcall.closing _ hmem).2 rfl

include hcall hne hline hadmits

/-- A file with a call on a line of its own is read as one step. -/
theorem steps_read_call {indent ending : String}
    (hindent : ∀ c ∈ indent.toList, Text.isSpace c = true ∧ c ≠ '\n')
    (hending : ending ∈ lineEndings) (settings : Settings) :
    (read settings (indent ++ String.ofList (call.text q command.toList) ++ ending)).jobs.map
      (·.steps) = [[.run (String.ofList (call.command q command.toList))]] := by
  have hfeed : '\n' ∉ indent.toList ++ call.text q command.toList := by
    rw [List.mem_append, not_or]
    exact ⟨fun hmem => (hindent _ hmem).2 rfl, lineFeed_not_mem_call hcall hline⟩
  have hstart : indent.toList ++ call.text q command.toList ≠ [] := by
    rw [Call.text, q.text_eq]
    simp
  obtain ⟨l, hlines, htrim⟩ := lines_line hfeed hstart hending
  have hcommand : command.toList ≠ [] := fun hnil => hne (String.toList_eq_nil_iff.1 hnil)
  have hcontents : contents (indent ++ String.ofList (call.text q command.toList) ++
      ending).toList = Contents.empty.addCommand (call.command q command.toList) := by
    rw [String.toList_append, String.toList_append,
      @String.toList_ofList (call.text q command.toList), contents, hlines]
    show (Contents.empty.readStepLine (Text.trim l)).finish = _
    rw [htrim, trim_call fun c hc => (hindent c hc).1, List.append_assoc, readStepLine_opening,
      ← List.append_assoc, readShell_call hcommand hadmits hcall.isClosing.dropEndWhile]
    rfl
  show [stepsOf (contents _).commands] = _
  rw [hcontents]
  rfl

/-- The step runs the command of the call exactly if the command stands in single or double quotes,
or in three of them that are all of the call. -/
theorem steps_read_call_iff {indent ending : String}
    (hindent : ∀ c ∈ indent.toList, Text.isSpace c = true ∧ c ≠ '\n')
    (hending : ending ∈ lineEndings) (settings : Settings) :
    (read settings (indent ++ String.ofList (call.text q command.toList) ++ ending)).jobs.map
      (·.steps) = [[.run command]] ↔ (q.tripled = true → call.bare = true) := by
  rw [steps_read_call hcall hne hline hadmits hindent hending, ← Call.command_eq_iff]
  constructor
  · intro heq
    have hcommand : String.ofList (call.command q command.toList) = command := by
      simpa [Step.run, Step.ofAction] using heq
    have hlist := congrArg String.toList hcommand
    rwa [@String.toList_ofList (call.command q command.toList)] at hlist
  · intro heq
    rw [heq, String.ofList_toList]

end

/-- A call of a command in three double quotes that is alone in its parentheses. -/
def bareCall : Call := ⟨true, false, [], true⟩

/-- Its command is read as it is, also with single quotes inside. -/
theorem steps_read_call_iff_bareCall : bareCall.Plain ∧ "echo 'a'" ≠ "" ∧
    '\n' ∉ "echo 'a'".toList ∧ Fence.double.Admits "echo 'a'".toList ∧
    (∀ c ∈ "\t".toList, Text.isSpace c = true ∧ c ≠ '\n') ∧ "\n" ∈ lineEndings ∧
    (read {} ("\t" ++ String.ofList (bareCall.text ⟨.double, true⟩ "echo 'a'".toList) ++ "\n")).jobs.map
      (·.steps) = [[.run "echo 'a'"]] := by
  have hcall : bareCall.Plain := nofun
  have hline : '\n' ∉ "echo 'a'".toList := by decide
  have hadmits : Fence.double.Admits "echo 'a'".toList := fun _ => by decide
  have hindent : ∀ c ∈ "\t".toList, Text.isSpace c = true ∧ c ≠ '\n' :=
    List.forall_mem_singleton.2 (by decide)
  have hending : "\n" ∈ lineEndings := by decide
  exact ⟨hcall, by decide, hline, hadmits, hindent, hending,
    (steps_read_call_iff hcall (q := ⟨.double, true⟩) (by decide) hline hadmits hindent hending {}).2
      fun _ => rfl⟩

/-- Two quotes on either side become part of the command where it is called by name. -/
theorem steps_read_namedCall :
    (read {} "sh(script: '''make''')").jobs.map (·.steps) = [[.run "''make''"]] := by
  decide +kernel

end Jenkins
end CiPipelines
