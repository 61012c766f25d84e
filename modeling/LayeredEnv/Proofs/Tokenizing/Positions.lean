import LayeredEnv.Proofs.Tokenizing.FlagLines

namespace LayeredEnv

namespace Lexeme

open Text

variable {block : Kind} {cs rest : List Char} {lexeme : Lexeme}

/-- A scanner that leaves an end of what it was given. -/
def Cuts (scanner : Scanner) : Prop :=
  ∀ {cs rest lexeme}, scanner cs = some (lexeme, rest) → rest <:+ cs

theorem escaped_cuts : Cuts escaped := by
  intro cs rest lexeme h
  obtain ⟨c, -, rfl, -⟩ := escaped_eq_some h
  exact List.suffix_append ['\\', c] rest

theorem assignment_cuts : Cuts assignment := by
  intro cs rest lexeme h
  obtain ⟨_, tail, -, hname, rfl⟩ := assignment_eq_some h
  have htail : tail <:+ cs := (List.suffix_cons '=' tail).trans (takeRun_suffix hname)
  exact (List.dropWhile_suffix _).trans htail

theorem trailingBlanks_cuts : Cuts trailingBlanks := by
  intro cs rest lexeme h
  obtain ⟨_, -, hblanks, -⟩ := trailingBlanks_eq_some h
  exact takeRun_suffix hblanks

theorem lengthMark_suffix (cs : List Char) : (lengthMark cs).2 <:+ cs := by
  unfold lengthMark
  split
  · exact (List.dropWhile_suffix _).trans (List.suffix_cons ..)
  · exact List.suffix_rfl

theorem interpolation_cuts : Cuts interpolation := by
  intro cs rest lexeme h
  obtain ⟨tail, _, b, -, rfl, hname, rfl⟩ := interpolation_eq_some h
  have htail : b <:+ tail :=
    (takeRun_suffix hname).trans ((lengthMark_suffix _).trans (List.dropWhile_suffix _))
  exact (List.dropWhile_suffix _).trans (htail.trans (List.suffix_append ['$', '\x7b'] tail))

theorem interpolationEnd_cuts : Cuts interpolationEnd := by
  intro cs rest lexeme h
  obtain ⟨-, rfl⟩ := interpolationEnd_eq_some h
  exact List.suffix_cons ..

theorem operatorRun_cuts : Cuts operatorRun := by
  intro cs rest lexeme h
  obtain ⟨c, -, rfl, -⟩ := operatorRun_eq_some h
  exact List.suffix_cons ..

theorem reference_cuts : Cuts reference := by
  intro cs rest lexeme h
  obtain ⟨_, _, -, rfl, hname⟩ := reference_eq_some h
  exact (takeRun_suffix hname).trans (List.suffix_cons ..)

theorem quoteStart_cuts : Cuts quoteStart := by
  intro cs rest lexeme h
  obtain ⟨-, rfl⟩ := quoteStart_eq_some h
  exact List.suffix_cons ..

theorem quoteEnd_cuts : Cuts quoteEnd := by
  intro cs rest lexeme h
  obtain ⟨-, rfl⟩ := quoteEnd_eq_some h
  exact List.suffix_cons ..

theorem comment_cuts : Cuts comment := by
  intro cs rest lexeme h
  obtain ⟨tail, -, rfl, rfl⟩ := comment_eq_some h
  have htail : dropOptional ' ' tail <:+ '#' :: tail :=
    (dropOptional_suffix ' ' tail).trans (List.suffix_cons ..)
  exact (List.dropWhile_suffix _).trans htail

theorem whitespace_cuts : Cuts whitespace := by
  intro cs rest lexeme h
  obtain ⟨_, -, hrun⟩ := whitespace_eq_some h
  exact takeRun_suffix hrun

theorem anyChar_cuts : Cuts anyChar := by
  intro cs rest lexeme h
  obtain ⟨c, -, rfl, -⟩ := anyChar_eq_some h
  exact List.suffix_cons ..

theorem valueRun_cuts : Cuts valueRun := by
  intro cs rest lexeme h
  obtain ⟨run, -, rfl, -⟩ := valueRun_eq_some h
  exact List.suffix_append ..

theorem blankRun_cuts : Cuts blankRun := by
  intro cs rest lexeme h
  obtain ⟨_, -, hrun⟩ := blankRun_eq_some h
  exact takeRun_suffix hrun

theorem quotedRun_cuts : Cuts quotedRun := by
  intro cs rest lexeme h
  obtain ⟨run, -, rfl, -⟩ := quotedRun_eq_some h
  exact List.suffix_append ..

theorem argumentRun_cuts : Cuts argumentRun := by
  intro cs rest lexeme h
  obtain ⟨_, -, hrun⟩ := argumentRun_eq_some h
  exact takeRun_suffix hrun

theorem rules_cut (block : Kind) : ∀ rule ∈ rules block, Cuts rule := by
  have top : ∀ rule ∈ rules .main, Cuts rule := by
    simp only [rules, List.forall_mem_cons]
    exact ⟨includeFlag_suffix, preserveFlag_suffix, escaped_cuts, assignment_cuts, comment_cuts,
      whitespace_cuts, by simp⟩
  cases block with
  | assignment =>
    simp only [rules, List.forall_mem_cons]
    exact ⟨escaped_cuts, trailingBlanks_cuts, interpolation_cuts, reference_cuts, quoteStart_cuts,
      comment_cuts, valueRun_cuts, blankRun_cuts, anyChar_cuts, by simp⟩
  | interpolation =>
    simp only [rules, List.forall_mem_cons]
    exact ⟨escaped_cuts, interpolationEnd_cuts, operatorRun_cuts, whitespace_cuts, by simp⟩
  | expression =>
    simp only [rules, List.forall_mem_cons]
    exact ⟨escaped_cuts, interpolation_cuts, interpolationEnd_cuts, operatorRun_cuts,
      reference_cuts, quoteStart_cuts, argumentRun_cuts, anyChar_cuts, by simp⟩
  | quoted =>
    simp only [rules, List.forall_mem_cons]
    exact ⟨escaped_cuts, interpolation_cuts, reference_cuts, quoteEnd_cuts, quotedRun_cuts,
      by simp⟩
  | main | text | comment | includeFlag | preserveFlag => exact top

theorem scan_suffix (h : scan block cs = some (lexeme, rest)) : rest <:+ cs := by
  obtain ⟨rule, hm, hr⟩ := List.exists_of_findSome?_eq_some h
  exact rules_cut block rule hm hr

end Lexeme

namespace Text

variable {p : Char → Bool} {c : Char} {cs : List Char}

theorem byteLength_eq_utf8ByteSize (cs : List Char) :
    byteLength cs = (String.ofList cs).utf8ByteSize := by
  rw [String.utf8ByteSize_ofList]
  induction cs with
  | nil => rfl
  | cons c cs ih => rw [byteLength, String.utf8Len_cons, ih, Nat.add_comm]

/-- Between two characters of a text is a boundary of its bytes. -/
theorem isValid_byteLength {source : String} {before cursor : List Char}
    (h : source.toList = before ++ cursor) :
    String.Pos.Raw.IsValid source ⟨byteLength before⟩ := by
  refine String.Pos.Raw.isValid_iff_exists_append.mpr ⟨.ofList before, .ofList cursor, ?_, ?_⟩
  · rw [← String.ofList_append, ← h, String.ofList_toList]
  · rw [byteLength_eq_utf8ByteSize]
    rfl

theorem of_mem_takeEndWhile (h : c ∈ takeEndWhile p cs) : p c = true :=
  List.mem_takeWhile_imp (List.mem_reverse.mp h)

theorem not_of_getLast?_dropEndWhile (h : c ∈ (dropEndWhile p cs).getLast?) : p c = false := by
  rw [dropEndWhile, List.getLast?_reverse] at h
  have hhead := List.head?_dropWhile_not p cs.reverse
  rwa [Option.mem_def.mp h] at hhead

/-- The text is as long as without the carriage returns at its end exactly if it ends in none. -/
theorem length_eq_iff_of_returns {text shown returns : List Char} (h : text = shown ++ returns)
    (hr : ∀ c ∈ returns, c = '\r') (hs : ∀ c ∈ shown.getLast?, c ≠ '\r') :
    text.length = shown.length ↔ text.getLast? ≠ some '\r' := by
  subst h
  cases returns using List.reverseRecOn with
  | nil =>
    rw [List.append_nil]
    exact iff_of_true rfl fun he => hs _ he rfl
  | append_singleton returns c =>
    have hc : c = '\r' := hr c (List.mem_append_right _ List.mem_cons_self)
    refine iff_of_false ?_ ?_
    · simp
    · rw [← List.append_assoc, List.getLast?_concat, hc]
      exact fun hne => hne rfl

end Text

namespace Tokenize

open Text Lexeme

variable {table : OperatorTable} {blocks : Blocks} {start last : State} {cs : List Char} {c : Char}

/-- The cursor only moves on. -/
theorem Reaches.suffix (hr : Reaches table start last) : last.2 <:+ start.2 := by
  induction hr using Reaches.head_induction with
  | last => exact List.suffix_rfl
  | @head start middle hn _ ih =>
    refine ih.trans ?_
    unfold next at hn
    split at hn
    · cases hn
      exact List.suffix_rfl
    · obtain ⟨⟨lexeme, tail⟩, hscan, he⟩ := Option.map_eq_some_iff.mp hn
      cases he
      exact (List.drop_suffix _ _).trans (scan_suffix hscan)

/-- White space is refused only where it is a line feed in an argument. -/
theorem expression_of_isWhitespace (h : blocks.Nested) (hn : next table (blocks, c :: cs) = none)
    (hc : isWhitespace c = true) : blocks.innermost = .expression ∧ c = '\n' := by
  have hskips : ¬(blocks.innermost = .main ∨ blocks.innermost = .interpolation) := by
    intro hb
    have hne : blocks.innermost ≠ .assignment := by
      intro he
      rw [he] at hb
      exact hb.elim Kind.noConfusion Kind.noConfusion
    -- the rule for white space would have applied
    rw [next_eq_step hne, Blocks.step, scan_whitespace hb hc] at hn
    cases hn
  obtain hb | hb | hb := innermost_of_next_eq_none h hn
  · exact absurd (Or.inl hb) hskips
  · exact absurd (Or.inr hb) hskips
  · exact hb

/-- A character of a text and what stands before and behind it. Of the text before it, `front` is
in the same line and `above` in the lines above. -/
structure Spot where
  above : List Char
  front : List Char
  char : Char
  rest : List Char
  above_ends : ∀ c ∈ above.getLast?, c = '\n'
  front_line : '\n' ∉ front

namespace Spot

variable (spot : Spot)

def before : List Char := spot.above ++ spot.front

def cursor : List Char := spot.char :: spot.rest

def line : List Char := spot.front ++ spot.cursor.takeWhile (· != '\n')

def lineNumber : ℕ := spot.before.count '\n' + 1

def column : ℕ := spot.front.length + 1

end Spot

/-- A caret behind so many spaces is under the character, or directly behind the line if the
character is its line feed. -/
def PointsTo (shown : List Char) (spaces : ℕ) (c : Char) : Prop :=
  if c = '\n' then spaces = shown.length else shown[spaces]? = some c

structure Spot.Shown (spot : Spot) (excerpt : String) (shown returns : List Char) : Prop where
  excerpt_eq : excerpt = underlined (.ofList shown) spot.column
  /-- The carriage returns at the end of the line belong to its ending. -/
  line_eq : spot.line = shown ++ returns
  return_of_mem : ∀ c ∈ returns, c = '\r'
  ne_return : ∀ c ∈ shown.getLast?, c ≠ '\r'
  one_line : '\n' ∉ shown
  /-- The caret is where it should be, unless it stands for a line feed with a carriage return
  before it. -/
  pointsTo_iff : PointsTo shown (spot.column - 1) spot.char ↔
    ¬(spot.char = '\n' ∧ spot.front.getLast? = some '\r')
  /-- Then it is beyond the line by the number of the carriage returns. -/
  beyond : spot.char = '\n' → spot.column - 1 = shown.length + returns.length

/-- The refusal, at a spot of the text, of what is read from the state `start` on. -/
structure Spot.Refused (spot : Spot) (source : String) (start : State) (line column : ℕ)
    (excerpt : String) : Prop where
  stands : source.toList = spot.before ++ spot.cursor
  boundary : String.Pos.Raw.IsValid source ⟨byteLength spot.before⟩
  /-- No rule applies at the spot, to which the reading comes. -/
  reached : ∃ blocks, Reaches .standard start (blocks, spot.cursor) ∧
    next .standard (blocks, spot.cursor) = none
  offends : isWhitespace spot.char = true → spot.char = '\n'
  line_eq : line = spot.lineNumber
  column_eq : column = spot.column
  shown : ∃ shown returns, spot.Shown excerpt shown returns

theorem consumed_self_append (before cursor : List Char) :
    consumed (before ++ cursor) cursor = before := by
  rw [consumed_append (Nat.le_refl _), consumed, Nat.sub_self, List.take_zero, List.append_nil]

namespace Spot

variable {before rest : List Char}

def ofCursor (before : List Char) (c : Char) (rest : List Char) : Spot where
  above := dropEndWhile (!isLineFeed ·) before
  front := takeEndWhile (!isLineFeed ·) before
  char := c
  rest := rest
  above_ends c hc := by
    have hfeed : isLineFeed c = true := by simpa using not_of_getLast?_dropEndWhile hc
    exact beq_iff_eq.mp hfeed
  front_line hm := Bool.noConfusion (of_mem_takeEndWhile hm : (!isLineFeed '\n') = true)

theorem before_ofCursor (before : List Char) (c : Char) (rest : List Char) :
    (ofCursor before c rest).before = before :=
  dropEndWhile_append_takeEndWhile _ before

theorem unrecognized_ofCursor (before : List Char) (c : Char) (rest : List Char) :
    unrecognized (before ++ c :: rest) (c :: rest) =
      .unrecognizedToken (ofCursor before c rest).lineNumber (ofCursor before c rest).column
        (underlined (.ofList (dropEndWhile (· == '\r') (ofCursor before c rest).line))
          (ofCursor before c rest).column) := by
  rw [lineNumber, before_ofCursor]
  exact unrecognized_eq (consumed_self_append before (c :: rest)) rfl rfl

variable {spot : Spot}

theorem lineFeed_notMem_line (spot : Spot) : '\n' ∉ spot.line := by
  intro hm
  rcases List.mem_append.mp hm with hm | hm
  · exact spot.front_line hm
  · exact absurd (List.mem_takeWhile_imp hm) (by decide)

/-- The line ends where its line feed is. -/
theorem line_of_lineFeed (hc : spot.char = '\n') : spot.line = spot.front := by
  rw [line, cursor, hc, List.takeWhile_cons_of_neg (by decide), List.append_nil]

/-- A character that is no white space is in the line, and is shown. -/
theorem getElem?_shown (hc : isWhitespace spot.char = false) :
    (dropEndWhile (· == '\r') spot.line)[spot.front.length]? = some spot.char := by
  have hfeed : (spot.char != '\n') = true := by
    rw [bne_iff_ne]
    rintro he
    rw [he] at hc
    cases hc
  have hreturn : (spot.char == '\r') = false := by
    rw [beq_eq_false_iff_ne]
    rintro he
    rw [he] at hc
    cases hc
  have hcursor : spot.cursor.takeWhile (· != '\n') =
      spot.char :: spot.rest.takeWhile (· != '\n') := List.takeWhile_cons_of_pos hfeed
  rw [line, hcursor, dropEndWhile_append_cons (p := (· == '\r')) hreturn,
    List.getElem?_append_right (Nat.le_refl _), Nat.sub_self, List.getElem?_cons_zero]

theorem shown_of_offends (h : isWhitespace spot.char = true → spot.char = '\n') :
    spot.Shown (underlined (.ofList (dropEndWhile (· == '\r') spot.line)) spot.column)
      (dropEndWhile (· == '\r') spot.line) (takeEndWhile (· == '\r') spot.line) := by
  have hparts : spot.line = dropEndWhile (· == '\r') spot.line ++
      takeEndWhile (· == '\r') spot.line := (dropEndWhile_append_takeEndWhile _ _).symm
  have hreturns : ∀ c ∈ takeEndWhile (· == '\r') spot.line, c = '\r' := fun c hc =>
    beq_iff_eq.mp (of_mem_takeEndWhile (p := (· == '\r')) hc)
  have hlast : ∀ c ∈ (dropEndWhile (· == '\r') spot.line).getLast?, c ≠ '\r' := fun c hc =>
    beq_eq_false_iff_ne.mp (not_of_getLast?_dropEndWhile (p := (· == '\r')) hc)
  have hfeed : '\n' ∉ dropEndWhile (· == '\r') spot.line := fun hm =>
    lineFeed_notMem_line spot (hparts ▸ List.mem_append_left _ hm)
  refine ⟨rfl, hparts, hreturns, hlast, hfeed, ?_, fun hc => ?_⟩
  · by_cases hc : spot.char = '\n'
    · -- all of the line stands before its line feed, also the carriage returns
      have hline : spot.line = spot.front := line_of_lineFeed hc
      rw [hline] at hparts hreturns hlast ⊢
      rw [PointsTo, if_pos hc, column, Nat.add_sub_cancel,
        length_eq_iff_of_returns hparts hreturns hlast, not_and]
      exact ⟨fun hne _ => hne, fun hne => hne hc⟩
    · -- what is no white space is kept, with all that stands before it
      have hvisible : isWhitespace spot.char = false := by
        by_contra hw
        exact hc (h (eq_true_of_ne_false hw))
      rw [PointsTo, if_neg hc]
      exact iff_of_true (getElem?_shown hvisible) fun he => hc he.1
  · rw [← List.length_append, ← hparts, line_of_lineFeed hc, column, Nat.add_sub_cancel]

end Spot

/-- A refusal that comes with a low limit comes with others too, for then no line break was met that
closes a value. -/
theorem Stops.exists_two_le {α : Type} {source : List Char} {result : ℕ → Except Error α}
    {limit line column : ℕ} {excerpt : String} (h : Stops source start result)
    (he : result limit = .error (.unrecognizedToken line column excerpt)) :
    ∃ limit, 2 ≤ limit ∧ result limit = .error (.unrecognizedToken line column excerpt) := by
  by_cases hl : 2 ≤ limit
  · exact ⟨limit, hl, he⟩
  by_cases hnone : ∀ state, Reaches .standard start state → ¬AtLineEnd state
  · exact ⟨defaultLimit, by decide, (h.unstuck limit (Nat.lt_of_not_le hl) hnone).symm.trans he⟩
  · push Not at hnone
    obtain ⟨_, hreach, hline⟩ := hnone
    obtain ⟨steps, state, hf⟩ := exists_firstLineEnd hreach hline
    rw [(h.stuck limit (Nat.lt_of_not_le hl) _ _).mpr ⟨steps, state, hf, rfl, rfl⟩] at he
    cases he

/-- Each refusal is at a spot of the text, also if the reading starts behind blanks. -/
theorem exists_refused {source : String} {limit line column : ℕ} {excerpt : String}
    (h : start.1.Nested) (hs : start.2 <:+ source.toList)
    (he : tokens limit source.toList start.1 start.2 =
      .error (.unrecognizedToken line column excerpt)) :
    ∃ spot : Spot, spot.Refused source start line column excerpt := by
  have hstops : Stops source.toList start (tokens · source.toList start.1 start.2) :=
    stops_of_run h fun _ => rfl
  obtain ⟨limit, hl, he⟩ := hstops.exists_two_le he
  obtain ⟨steps, ⟨blocks, cursor⟩, ha, hn, -, ⟨-, tokens, hok⟩ | ⟨hne, -, herror⟩⟩ :=
    hstops.ends limit hl
  · rw [hok] at he
    cases he
  have hr : Reaches .standard start (blocks, cursor) := ⟨steps, ha⟩
  obtain ⟨before, hsource⟩ := hr.suffix.trans hs
  cases cursor with
  | nil => exact absurd rfl hne
  | cons c rest =>
    have hoffends : isWhitespace c = true → c = '\n' := fun hc =>
      (expression_of_isWhitespace (hr.nested h) hn hc).2
    have hstands : source.toList = before ++ c :: rest := hsource.symm
    rw [herror, hstands, Spot.unrecognized_ofCursor] at he
    cases he
    rw [← Spot.before_ofCursor before c rest] at hstands
    exact ⟨.ofCursor before c rest, hstands, isValid_byteLength hstands, ⟨blocks, hr, hn⟩,
      hoffends, rfl, rfl, _, _, Spot.shown_of_offends hoffends⟩

end Tokenize

open Tokenize

/-- A refusal points at the character that is refused. -/
theorem tokenize_refused_at (text : String) (limit line column : ℕ) (excerpt : String) :
    (tokenize text limit = .error (.unrecognizedToken line column excerpt) →
      ∃ spot : Spot, spot.Refused text ({}, text.toList) line column excerpt) ∧
    (tokenizeValue text limit = .error (.unrecognizedToken line column excerpt) →
      ∃ spot : Spot, spot.Refused text
        (Blocks.enter {} { kind := .assignment, value := "" }, text.toList.dropWhile Text.isBlank)
        line column excerpt) := by
  have hmap : ∀ {α β : Type} {x : Except Error α} {f : α → β} {e : Error},
      x.map f = .error e → x = .error e := by
    intro α β x f e h
    cases x with
    | ok a => cases h
    | error e =>
      cases h
      rfl
  have hvalue : (Blocks.enter {} { kind := .assignment, value := "" }).Nested :=
    ⟨Or.inr (Or.inl rfl), Kind.noConfusion, List.mem_cons_of_mem _ (by decide), trivial⟩
  constructor
  · intro h
    exact exists_refused trivial List.suffix_rfl (hmap h)
  · intro h
    exact exists_refused hvalue (List.dropWhile_suffix _) (hmap h)

theorem tokenize_refused_at_nameAndLineFeed :
    (tokenize "A=1\n  lower=2" = .error (.unrecognizedToken 2 3 "  lower=2\n  ^") ∧
      ∃ spot : Spot, spot.Refused "A=1\n  lower=2" ({}, "A=1\n  lower=2".toList) 2 3
        "  lower=2\n  ^") ∧
    (tokenizeValue " $\x7bA:-b\n" = .error (.unrecognizedToken 1 8 " $\x7bA:-b\n       ^") ∧
      ∃ spot : Spot, spot.Refused " $\x7bA:-b\n"
        (Blocks.enter {} { kind := .assignment, value := "" }, "$\x7bA:-b\n".toList) 1 8
        " $\x7bA:-b\n       ^") := by
  have htokens : tokens defaultLimit "A=1\n  lower=2".toList {} "A=1\n  lower=2".toList =
      .error (.unrecognizedToken 2 3 "  lower=2\n  ^") := by decide +kernel
  have htext : tokenize "A=1\n  lower=2" = .error (.unrecognizedToken 2 3 "  lower=2\n  ^") := by
    rw [tokenize, htokens]
    rfl
  have htokens : tokens defaultLimit " $\x7bA:-b\n".toList
      (Blocks.enter {} { kind := .assignment, value := "" }) "$\x7bA:-b\n".toList =
      .error (.unrecognizedToken 1 8 " $\x7bA:-b\n       ^") := by decide +kernel
  have hvalue : tokenizeValue " $\x7bA:-b\n" =
      .error (.unrecognizedToken 1 8 " $\x7bA:-b\n       ^") :=
    congrArg (Except.map _) htokens
  exact ⟨⟨htext, (tokenize_refused_at _ _ _ _ _).1 htext⟩,
    ⟨hvalue, (tokenize_refused_at _ _ _ _ _).2 hvalue⟩⟩

/-- The line feed is refused, with a carriage return before it: the line has ten characters, and the
caret is not directly behind them. -/
theorem tokenize_refused_beyond :
    tokenize "A=$\x7bX:-abc\r\nB=1" =
        .error (.unrecognizedToken 1 12 "A=$\x7bX:-abc\n           ^") ∧
      "A=$\x7bX:-abc\r\nB=1".toList[11]? = some '\n' ∧
      "A=$\x7bX:-abc\n           ^" ≠ underlined "A=$\x7bX:-abc" ("A=$\x7bX:-abc".length + 1) := by
  have htokens : tokens defaultLimit "A=$\x7bX:-abc\r\nB=1".toList {}
      "A=$\x7bX:-abc\r\nB=1".toList =
      .error (.unrecognizedToken 1 12 "A=$\x7bX:-abc\n           ^") := by decide +kernel
  refine ⟨?_, by decide +kernel, by decide +kernel⟩
  rw [tokenize, htokens]
  rfl

end LayeredEnv
