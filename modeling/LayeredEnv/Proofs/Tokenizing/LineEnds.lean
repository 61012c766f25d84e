import LayeredEnv.Proofs.Tokenizing.Drawn
import LayeredEnv.Proofs.Tokenizing.Lines
import LayeredEnv.Proofs.Tokenizing.Trail

namespace LayeredEnv

namespace Text

def crlf : List Char → List Char
  | [] => []
  | c :: cs => if c = '\n' then '\r' :: '\n' :: crlf cs else c :: crlf cs

variable {p : Char → Bool} {c : Char} {cs : List Char}

theorem crlf_cons_of_ne (h : c ≠ '\n') (cs : List Char) : crlf (c :: cs) = c :: crlf cs := by
  rw [crlf, if_neg h]

theorem crlf_lineFeed (cs : List Char) : crlf ('\n' :: cs) = '\r' :: '\n' :: crlf cs := by
  rw [crlf, if_pos rfl]

theorem crlf_eq_nil_iff : crlf cs = [] ↔ cs = [] := by
  cases cs with
  | nil => exact Iff.rfl
  | cons c cs =>
    by_cases h : c = '\n'
    · simp [h, crlf_lineFeed]
    · simp [crlf_cons_of_ne h]

theorem crlf_append {run : List Char} (h : '\n' ∉ run) (cs : List Char) :
    crlf (run ++ cs) = run ++ crlf cs := by
  induction run with
  | nil => rfl
  | cons c run ih =>
    rw [List.mem_cons, not_or] at h
    rw [List.cons_append, crlf_cons_of_ne (Ne.symm h.1), ih h.2, List.cons_append]

/-- What a text starts with is the same if it is not looked at closely. -/
theorem head?_any_crlf (hp : p '\n' = p '\r') (cs : List Char) :
    (crlf cs).head?.any p = cs.head?.any p := by
  cases cs with
  | nil => rfl
  | cons c cs =>
    by_cases h : c = '\n'
    · rw [h, crlf_lineFeed]
      exact hp.symm
    · rw [crlf_cons_of_ne h]
      rfl

theorem takeWhile_crlf (hp : ∀ c, isLineBreak c = true → p c = false) (cs : List Char) :
    (crlf cs).takeWhile p = cs.takeWhile p := by
  induction cs with
  | nil => rfl
  | cons c cs ih =>
    by_cases h : c = '\n'
    · rw [h, crlf_lineFeed, List.takeWhile_cons_of_neg (by simp [hp '\r' rfl]),
        List.takeWhile_cons_of_neg (by simp [hp '\n' rfl])]
    · rw [crlf_cons_of_ne h, List.takeWhile_cons, List.takeWhile_cons, ih]

theorem dropWhile_crlf (hp : ∀ c, isLineBreak c = true → p c = false) (cs : List Char) :
    (crlf cs).dropWhile p = crlf (cs.dropWhile p) := by
  induction cs with
  | nil => rfl
  | cons c cs ih =>
    by_cases h : c = '\n'
    · rw [h, crlf_lineFeed, List.dropWhile_cons_of_neg (by simp [hp '\r' rfl]),
        List.dropWhile_cons_of_neg (by simp [hp '\n' rfl]), crlf_lineFeed]
    · rw [crlf_cons_of_ne h, List.dropWhile_cons, List.dropWhile_cons, ih]
      split
      · rfl
      · rw [crlf_cons_of_ne h]

/-- White space is left out with its line ends. -/
theorem dropWhile_isWhitespace_crlf (cs : List Char) :
    (crlf cs).dropWhile isWhitespace = crlf (cs.dropWhile isWhitespace) := by
  induction cs with
  | nil => rfl
  | cons c cs ih =>
    by_cases h : c = '\n'
    · rw [h, crlf_lineFeed, List.dropWhile_cons_of_pos rfl, List.dropWhile_cons_of_pos rfl,
        List.dropWhile_cons_of_pos rfl, ih]
    · rw [crlf_cons_of_ne h, List.dropWhile_cons, List.dropWhile_cons, ih]
      split
      · rfl
      · rw [crlf_cons_of_ne h]

theorem dropKeyword_crlf {word : List Char}
    (hw : ∀ w ∈ word, ∀ c, isLineBreak c = true → (foldAscii c == w) = false) (cs : List Char) :
    dropKeyword word (crlf cs) = (dropKeyword word cs).map crlf := by
  induction word generalizing cs with
  | nil => simp [dropKeyword]
  | cons w word ih =>
    have ih := ih fun v hv => hw v (List.mem_cons_of_mem _ hv)
    cases cs with
    | nil => rfl
    | cons c cs =>
      by_cases h : c = '\n'
      · rw [h, crlf_lineFeed, dropKeyword, dropKeyword, hw w List.mem_cons_self '\r' rfl,
          hw w List.mem_cons_self '\n' rfl]
        rfl
      · rw [crlf_cons_of_ne h, dropKeyword, dropKeyword, ih]
        split <;> rfl

end Text

namespace Lexeme

open Text

variable {p : Char → Bool} {cs rest : List Char} {block : Kind} {lexeme : Lexeme} {rule : Scanner}

theorem takeRun_crlf (hp : ∀ c, isLineBreak c = true → p c = false) (cs : List Char) :
    takeRun p (crlf cs) = (takeRun p cs).map fun (run, rest) => (run, crlf rest) := by
  rw [takeRun, takeRun, takeWhile_crlf hp, dropWhile_crlf hp]
  split <;> rfl

theorem dropOptional_crlf {d : Char} (hd : isLineBreak d = false) (cs : List Char) :
    dropOptional d (crlf cs) = crlf (dropOptional d cs) := by
  cases cs with
  | nil => rfl
  | cons c cs =>
    by_cases h : c = '\n'
    · subst h
      have hreturn : ('\r' == d) = false := by
        apply beq_eq_false_iff_ne.mpr
        rintro rfl
        cases hd
      have hfeed : ('\n' == d) = false := by
        apply beq_eq_false_iff_ne.mpr
        rintro rfl
        cases hd
      simp [crlf_lineFeed, dropOptional, hreturn, hfeed]
    · rw [crlf_cons_of_ne h, dropOptional, dropOptional]
      split
      · rfl
      · rw [crlf_cons_of_ne h]

/-- A rule reads the same from a text whether its line ends have a carriage return or not. -/
def ReadsAt (rule : Scanner) (cs : List Char) : Prop :=
  rule (crlf cs) = (rule cs).map fun (lexeme, rest) => (lexeme, crlf rest)

def ReadsLineEnds (rule : Scanner) : Prop := ∀ cs, ReadsAt rule cs

/-- A rule that applies only in front of one character. -/
theorem readsLineEnds_of_first {first : Char} (hf : isLineBreak first = false)
    (hne : ∀ {cs}, Starts (· != first) cs → rule cs = none)
    (h : ∀ cs, rule (first :: crlf cs) =
      (rule (first :: cs)).map fun (lexeme, rest) => (lexeme, crlf rest)) :
    ReadsLineEnds rule := by
  have hbreak : ∀ c, isLineBreak c = true → c ≠ first := by
    rintro c hc rfl
    rw [hc] at hf
    cases hf
  intro cs
  rw [ReadsAt]
  rcases cs with _ | ⟨c, cs⟩
  · rw [crlf, hne Starts.nil]
    rfl
  · by_cases hc : c = first
    · subst hc
      rw [crlf_cons_of_ne fun he => by simp [he, isLineBreak] at hf]
      exact h cs
    · rw [hne (starts_cons.mpr (bne_iff_ne.mpr hc))]
      by_cases hfeed : c = '\n'
      · rw [hfeed, crlf_lineFeed, hne (starts_cons.mpr (bne_iff_ne.mpr (hbreak '\r' rfl)))]
        rfl
      · rw [crlf_cons_of_ne hfeed, hne (starts_cons.mpr (bne_iff_ne.mpr hc))]
        rfl

theorem directive_crlf {word : String}
    (hw : ∀ w ∈ word.toList, ∀ c, isLineBreak c = true → (foldAscii c == w) = false)
    (cs : List Char) : directive word (crlf cs) = (directive word cs).map crlf := by
  have hspace : ∀ c, isLineBreak c = true → isSpace c = false := not_of_isLineBreak rfl rfl
  unfold directive
  rw [dropOptional_crlf rfl]
  rcases dropOptional ' ' cs with _ | ⟨c, cs⟩
  · rfl
  · by_cases hc : c = '/'
    · subst hc
      rw [crlf_cons_of_ne (by decide)]
      show dropKeyword word.toList ((crlf cs).dropWhile isSpace) =
        (dropKeyword word.toList (cs.dropWhile isSpace)).map crlf
      rw [dropWhile_crlf hspace, dropKeyword_crlf hw]
    · by_cases hfeed : c = '\n'
      · simp [hfeed, crlf_lineFeed]
      · simp [crlf_cons_of_ne hfeed, hc]

theorem includeFlag_readsLineEnds : ReadsLineEnds includeFlag := by
  have hw : ∀ w ∈ "include".toList, ∀ c, isLineBreak c = true → (foldAscii c == w) = false :=
    foldAscii_ne_of_isLineBreak (by decide)
  have hspace : ∀ c, isLineBreak c = true → isSpace c = false := not_of_isLineBreak rfl rfl
  have hname : ∀ c, isLineBreak c = true → isSourceNameChar c = false :=
    not_of_isLineBreak (by decide) (by decide)
  have hquote : isLineBreak '"' = false := rfl
  refine readsLineEnds_of_first rfl includeFlag_of_ne fun cs => ?_
  rw [includeFlag, includeFlag, directive_crlf hw]
  cases directive "include" cs with
  | none => rfl
  | some first =>
    simp only [Option.map_some, Option.bind_eq_bind, Option.bind_some, takeRun_crlf hspace]
    cases takeRun isSpace first with
    | none => rfl
    | some second =>
      simp only [Option.map_some, Option.bind_some, dropOptional_crlf hquote, takeRun_crlf hname]
      cases takeRun isSourceNameChar (dropOptional '"' second.2) with
      | none => rfl
      | some third => simp [dropOptional_crlf hquote]

theorem preserveFlag_readsLineEnds : ReadsLineEnds preserveFlag := by
  have hw : ∀ w ∈ "preserve".toList, ∀ c, isLineBreak c = true → (foldAscii c == w) = false :=
    foldAscii_ne_of_isLineBreak (by decide)
  have hspace : ∀ c, isLineBreak c = true → isSpace c = false := not_of_isLineBreak rfl rfl
  refine readsLineEnds_of_first rfl preserveFlag_of_ne fun cs => ?_
  rw [preserveFlag, preserveFlag, directive_crlf hw]
  cases directive "preserve" cs with
  | none => rfl
  | some rest => simp [dropWhile_crlf hspace]

theorem assignment_readsLineEnds : ReadsLineEnds assignment := by
  intro cs
  simp only [ReadsAt, assignment, takeRun_crlf not_isNameChar_of_isLineBreak, Option.bind_eq_bind]
  rcases takeRun isNameChar cs with _ | ⟨name, _ | ⟨c, rest⟩⟩
  · rfl
  · rfl
  · by_cases hc : c = '='
    · subst hc
      simp [crlf_cons_of_ne, dropWhile_crlf not_isBlank_of_isLineBreak]
    · by_cases hfeed : c = '\n'
      · simp [hfeed, crlf_lineFeed]
      · simp [crlf_cons_of_ne hfeed, hc]

theorem trailingBlanks_readsLineEnds : ReadsLineEnds trailingBlanks := by
  intro cs
  simp only [ReadsAt, trailingBlanks, takeRun_crlf not_isBlank_of_isLineBreak, Option.bind_eq_bind]
  rcases takeRun isBlank cs with _ | ⟨_, _ | ⟨c, rest⟩⟩
  · rfl
  · rfl
  · by_cases hfeed : c = '\n'
    · simp [hfeed, crlf_lineFeed, isLineBreak]
    · simp only [Option.map_some, Option.bind_some, crlf_cons_of_ne hfeed]
      by_cases hc : isLineBreak c = true
      · simp [hc, crlf_cons_of_ne hfeed]
      · simp [hc]

theorem lengthMark_crlf (cs : List Char) :
    lengthMark (crlf cs) = ((lengthMark cs).1, crlf (lengthMark cs).2) := by
  rcases cs with _ | ⟨c, cs⟩
  · rfl
  · by_cases hc : c = '#'
    · subst hc
      rw [crlf_cons_of_ne (by decide)]
      simp [lengthMark, dropWhile_crlf not_isSpace_of_isLineBreak]
    · by_cases hfeed : c = '\n'
      · simp [hfeed, crlf_lineFeed, lengthMark]
      · simp [crlf_cons_of_ne hfeed, lengthMark, hc]

theorem interpolation_readsLineEnds : ReadsLineEnds interpolation := by
  refine readsLineEnds_of_first rfl interpolation_of_ne fun cs => ?_
  rcases cs with _ | ⟨c, cs⟩
  · rfl
  by_cases hc : c = '\x7b'
  · subst hc
    rw [crlf_cons_of_ne (by decide)]
    simp only [interpolation, dropWhile_crlf not_isSpace_of_isLineBreak, lengthMark_crlf,
      takeRun_crlf not_isNameChar_of_isLineBreak]
    rcases takeRun isNameChar (lengthMark (cs.dropWhile isSpace)).2 with _ | ⟨name, rest⟩
    · rfl
    · simp [dropWhile_crlf not_isSpace_of_isLineBreak]
  · by_cases hfeed : c = '\n'
    · simp [hfeed, crlf_lineFeed, interpolation]
    · simp [crlf_cons_of_ne hfeed, interpolation, hc]

theorem interpolationEnd_readsLineEnds : ReadsLineEnds interpolationEnd :=
  readsLineEnds_of_first rfl interpolationEnd_of_ne fun _ => rfl

theorem reference_readsLineEnds : ReadsLineEnds reference := by
  refine readsLineEnds_of_first rfl reference_of_ne fun cs => ?_
  simp only [reference, takeRun_crlf not_isNameChar_of_isLineBreak, Option.bind_eq_bind]
  cases takeRun isNameChar cs <;> rfl

theorem quoteStart_readsLineEnds : ReadsLineEnds quoteStart :=
  readsLineEnds_of_first rfl quoteStart_of_ne fun _ => rfl

theorem operatorRun_readsLineEnds : ReadsLineEnds operatorRun := by
  intro cs
  rcases cs with _ | ⟨c, cs⟩
  · rfl
  by_cases hfeed : c = '\n'
  · rw [ReadsAt, hfeed, crlf_lineFeed]
    rfl
  · have hview : (crlf cs).head?.filter isOperatorChar = cs.head?.filter isOperatorChar := by
      rcases cs with _ | ⟨d, cs⟩
      · rfl
      · by_cases hd : d = '\n'
        · rw [hd, crlf_lineFeed]
          rfl
        · rw [crlf_cons_of_ne hd]
          rfl
    rw [ReadsAt, crlf_cons_of_ne hfeed, operatorRun, operatorRun, hview]
    split <;> rfl

theorem comment_readsLineEnds : ReadsLineEnds comment := by
  have hp : ∀ c, isLineBreak c = true → (!isLineBreak c) = false := fun c hc => by rw [hc]; rfl
  have hspace : isLineBreak ' ' = false := rfl
  refine readsLineEnds_of_first rfl comment_of_ne fun cs => ?_
  simp only [comment, dropOptional_crlf hspace, takeWhile_crlf hp, dropWhile_crlf hp,
    Option.map_some]

theorem whitespace_eq (cs : List Char) : whitespace cs =
    if cs.head?.any isWhitespace then some (.nothing, cs.dropWhile isWhitespace) else none := by
  rcases cs with _ | ⟨c, cs⟩
  · rfl
  · by_cases hc : isWhitespace c = true
    · simp [whitespace, takeRun, hc]
    · simp [whitespace, takeRun, hc]

theorem whitespace_readsLineEnds : ReadsLineEnds whitespace := by
  intro cs
  have hfirst : (crlf cs).head?.any isWhitespace = cs.head?.any isWhitespace :=
    head?_any_crlf rfl cs
  rw [ReadsAt, whitespace_eq, whitespace_eq, hfirst, dropWhile_isWhitespace_crlf]
  split <;> rfl

theorem valueRun_readsLineEnds : ReadsLineEnds valueRun := by
  intro cs
  have hp : ∀ c, isLineBreak c = true → (!isValueSpecial c) = false :=
    not_of_isLineBreak rfl rfl
  obtain ⟨rest, hrest⟩ : dropEndWhile isWhitespace (cs.takeWhile (!isValueSpecial ·)) <+: cs :=
    (List.rdropWhile_prefix isWhitespace _).trans (List.takeWhile_prefix _)
  have hfeed : '\n' ∉ dropEndWhile isWhitespace (cs.takeWhile (!isValueSpecial ·)) := by
    intro hm
    have hm := (List.rdropWhile_prefix isWhitespace _).subset hm
    exact absurd (List.mem_takeWhile_imp hm) (by decide)
  simp only [ReadsAt, valueRun, takeWhile_crlf hp]
  generalize dropEndWhile isWhitespace (cs.takeWhile (!isValueSpecial ·)) = run at hrest hfeed
  subst hrest
  rw [crlf_append hfeed]
  cases run with
  | nil => rfl
  | cons c run => simp

theorem blankRun_readsLineEnds : ReadsLineEnds blankRun := by
  intro cs
  simp only [ReadsAt, blankRun, takeRun_crlf not_isBlank_of_isLineBreak, Option.bind_eq_bind]
  cases takeRun isBlank cs <;> rfl

theorem argumentRun_readsLineEnds : ReadsLineEnds argumentRun := by
  intro cs
  have hp : ∀ c, isLineBreak c = true → isArgumentChar c = false :=
    not_of_isLineBreak (by decide) (by decide)
  simp only [ReadsAt, argumentRun, takeRun_crlf hp, Option.bind_eq_bind]
  cases takeRun isArgumentChar cs <;> rfl

/-- A backslash and then a line feed, which no escape takes. -/
def EscapesFeed (cs : List Char) : Prop := ∃ rest, cs = '\\' :: '\n' :: rest

theorem escaped_readsAt (h : ¬EscapesFeed cs) : ReadsAt escaped cs := by
  have hother : ∀ {c} {cs : List Char}, c ≠ '\\' → escaped (c :: cs) = none :=
    fun hc => escaped_of_ne (starts_cons.mpr (bne_iff_ne.mpr hc))
  rw [ReadsAt]
  rcases cs with _ | ⟨c, cs⟩
  · rfl
  by_cases hc : c = '\\'
  · subst hc
    rw [crlf_cons_of_ne (by decide)]
    rcases cs with _ | ⟨d, cs⟩
    · rfl
    · have hd : d ≠ '\n' := by
        rintro rfl
        exact h ⟨cs, rfl⟩
      simp [crlf_cons_of_ne hd, escaped, hd]
  · rw [hother hc]
    by_cases hfeed : c = '\n'
    · rw [hfeed, crlf_lineFeed, hother (by decide)]
      rfl
    · rw [crlf_cons_of_ne hfeed, hother hc]
      rfl

theorem anyChar_readsAt (h : cs.head? ≠ some '\n') : ReadsAt anyChar cs := by
  rw [ReadsAt]
  rcases cs with _ | ⟨c, cs⟩
  · rfl
  · have hc : c ≠ '\n' := fun he => h (by rw [he]; rfl)
    simp [crlf_cons_of_ne hc, anyChar, hc]

theorem ReadsAt.findSome? {rules : List Scanner} (h : ∀ rule ∈ rules, ReadsAt rule cs) :
    ReadsAt (fun cs => rules.findSome? (· cs)) cs := by
  rw [ReadsAt]
  induction rules with
  | nil => rfl
  | cons rule rules ih =>
    obtain ⟨hrule, hrules⟩ := List.forall_mem_cons.mp h
    simp only [List.findSome?_cons]
    rw [hrule]
    cases rule cs with
    | none => exact ih hrules
    | some found => rfl

/-- Outside quotes a lexeme is read the same, unless a line feed is escaped, or stands where no rule
takes it. -/
theorem scan_crlf (hb : IsBlock block) (hq : block ≠ .quoted) (he : ¬EscapesFeed cs)
    (hline : block = .assignment ∨ block = .expression → cs.head? ≠ some '\n') :
    ReadsAt (scan block) cs := by
  have hrules : ∀ rule ∈ rules block, ReadsAt rule cs := by
    rcases hb with rfl | rfl | rfl | rfl | rfl <;>
      simp only [rules, List.forall_mem_cons]
    · exact ⟨includeFlag_readsLineEnds cs, preserveFlag_readsLineEnds cs, escaped_readsAt he,
        assignment_readsLineEnds cs, comment_readsLineEnds cs, whitespace_readsLineEnds cs, by simp⟩
    · exact ⟨escaped_readsAt he, trailingBlanks_readsLineEnds cs, interpolation_readsLineEnds cs,
        reference_readsLineEnds cs, quoteStart_readsLineEnds cs, comment_readsLineEnds cs,
        valueRun_readsLineEnds cs, blankRun_readsLineEnds cs,
        anyChar_readsAt (hline (Or.inl rfl)), by simp⟩
    · exact ⟨escaped_readsAt he, interpolationEnd_readsLineEnds cs, operatorRun_readsLineEnds cs,
        whitespace_readsLineEnds cs, by simp⟩
    · exact ⟨escaped_readsAt he, interpolation_readsLineEnds cs, interpolationEnd_readsLineEnds cs,
        operatorRun_readsLineEnds cs, reference_readsLineEnds cs, quoteStart_readsLineEnds cs,
        argumentRun_readsLineEnds cs, anyChar_readsAt (hline (Or.inr rfl)), by simp⟩
    · exact absurd rfl hq
  exact ReadsAt.findSome? hrules

end Lexeme

namespace Blocks

open Text Lexeme

variable {table : OperatorTable} {blocks next : Blocks} {cs rest : List Char}

variable (table) in
/-- The second character of a symbol is no line feed. -/
theorem drop_more_crlf {lexeme : Lexeme} (hf : lexeme.Fits blocks.innermost cs rest) :
    (crlf rest).drop (blocks.apply table lexeme).2 =
      crlf (rest.drop (blocks.apply table lexeme).2) := by
  cases lexeme with
  | operators first second =>
    obtain ⟨-, -, hsecond, -⟩ := hf
    simp only [Blocks.apply, operate]
    split
    · next symbol hp =>
      obtain rfl | ⟨c, hc, rfl⟩ := OperatorTable.pick_cases hp
      · rfl
      · obtain ⟨hhead, hoperator⟩ := Option.filter_eq_some_iff.mp (hsecond.symm.trans hc)
        obtain ⟨tail, rfl⟩ := List.head?_eq_some_iff.mp hhead
        have hne : c ≠ '\n' := by
          rintro rfl
          exact absurd hoperator (by decide)
        rw [crlf_cons_of_ne hne]
        rfl
    · rfl
  | _ => rfl

variable (table) in
/-- A step outside quotes. -/
theorem step_crlf (h : blocks.Nested) (hq : blocks.innermost ≠ .quoted) (he : ¬EscapesFeed cs)
    (hline : blocks.innermost = .assignment ∨ blocks.innermost = .expression →
      cs.head? ≠ some '\n') :
    blocks.step table (crlf cs) =
      (blocks.step table cs).map fun (next, rest) => (next, crlf rest) := by
  have hscan := scan_crlf h.isBlock hq he hline
  rw [ReadsAt] at hscan
  rw [step, step, hscan]
  cases hs : scan blocks.innermost cs with
  | none => rfl
  | some found =>
    have hdrop := drop_more_crlf table (fits_of_scan h.isBlock hs)
    simp only [Option.map_some, hdrop]

def Unquoted (blocks : Blocks) : Prop := .quoted ∉ blocks.kinds

theorem Unquoted.innermost_ne (h : blocks.Unquoted) : blocks.innermost ≠ .quoted := by
  intro he
  rw [← headD_kinds] at he
  unfold Unquoted at h
  cases hk : blocks.kinds with
  | nil =>
    rw [hk] at he
    cases he
  | cons kind kinds =>
    rw [hk] at he h
    exact h (List.mem_cons.mpr (.inl he.symm))

theorem Unquoted.of_suffix (h : blocks.Unquoted) (hs : next.kinds <:+ blocks.kinds) :
    next.Unquoted := fun hm => h (hs.subset hm)

/-- Only a quotation mark opens quotes. -/
theorem Unquoted.apply {lexeme : Lexeme} (h : blocks.Unquoted) (hl : '"' ∉ lexeme.chars) :
    (blocks.apply table lexeme).1.Unquoted := by
  have hsame : ∀ {next : Blocks}, next.kinds = blocks.kinds → next.Unquoted :=
    fun he => h.of_suffix (he ▸ List.suffix_rfl)
  have henter : ∀ {outer : Blocks} {frame : Frame}, outer.Unquoted → frame.kind ≠ .quoted →
      (outer.enter frame).Unquoted :=
    fun ho hk hm => (List.mem_cons.mp hm).elim (fun he => hk he.symm) ho
  cases lexeme with
  | nothing => exact h
  | text chars => exact hsame (kinds_pushText ..)
  | leaf kind value => exact hsame (kinds_push ..)
  | openAssignment name => exact henter h Kind.noConfusion
  | openInterpolation isLength name => exact henter h Kind.noConfusion
  | closeInterpolation =>
    rw [Blocks.apply, closeNearest_eq]
    exact (h.of_suffix (kinds_closeTo_suffix ..)).of_suffix (kinds_close _ ▸ List.tail_suffix _)
  | operators first second =>
    simp only [Blocks.apply, operate]
    split
    · exact henter (h.of_suffix (kinds_closeTo_suffix ..)) Kind.noConfusion
    · exact hsame (kinds_pushText ..)
  | openQuote | closeQuote => exact absurd List.mem_cons_self hl

end Blocks

namespace Tokenize

open Text Lexeme

variable {table : OperatorTable} {blocks : Blocks} {cs : List Char} {start state last : State}

/-- No quotes are open, and none are left to read. -/
structure Unquoted (state : State) : Prop where
  blocks : state.1.Unquoted
  rest : '"' ∉ state.2

theorem Unquoted.next (h : Unquoted start) (hn : next table start = some state) :
    Unquoted state := by
  refine ⟨?_, fun hm => h.rest (subset_of_next hn hm)⟩
  obtain ⟨blocks, cs⟩ := start
  unfold Tokenize.next at hn
  split at hn
  · cases hn
    exact h.blocks.of_suffix (Blocks.kinds_close _ ▸ List.tail_suffix _)
  · obtain ⟨⟨lexeme, rest⟩, hscan, he⟩ := Option.map_eq_some_iff.mp hn
    cases he
    exact h.blocks.apply fun hm => h.rest (mem_of_scan hscan (.inl hm))

theorem Unquoted.reaches (h : Unquoted start) (hr : Reaches table start state) :
    Unquoted state := by
  induction hr using Reaches.head_induction with
  | last => exact h
  | head hn _ ih => exact ih (h.next hn)

def State.crlf (state : State) : State := (state.1, Text.crlf state.2)

theorem atLineEnd_crlf : AtLineEnd state.crlf ↔ AtLineEnd state := by
  unfold AtLineEnd State.crlf
  rw [head?_any_crlf rfl]

theorem scan_expression_lineFeed (cs : List Char) : scan .expression ('\n' :: cs) = none := by
  simp [scan, rules, escaped, interpolation, interpolationEnd, operatorRun, reference, quoteStart,
    argumentRun, anyChar, takeRun, isOperatorChar, isArgumentChar, isAlphanumeric, isUpper,
    isLower, isDigit]

theorem head_ne_of_step {next : Blocks} {rest : List Char} (he : ¬AtLineEnd (blocks, cs))
    (hs : blocks.step table cs = some (next, rest))
    (hb : blocks.innermost = .assignment ∨ blocks.innermost = .expression) :
    cs.head? ≠ some '\n' := by
  intro hh
  obtain ⟨tail, rfl⟩ := List.head?_eq_some_iff.mp hh
  obtain hb | hb := hb
  · exact he ⟨hb, rfl⟩
  · rw [Blocks.step, hb, scan_expression_lineFeed] at hs
    cases hs

/-- A step is the same with the other line ends. -/
theorem next_crlf (h : start.1.Nested) (hu : Unquoted start) (he : ¬EscapesFeed start.2)
    (hn : next table start = some state) : next table start.crlf = some state.crlf := by
  obtain ⟨blocks, cs⟩ := start
  by_cases hend : AtLineEnd (blocks, cs)
  · rw [next, if_pos hend] at hn
    cases hn
    rw [next, if_pos (atLineEnd_crlf.mpr hend)]
    rfl
  · rw [next, if_neg hend] at hn
    obtain ⟨middle, rest⟩ := state
    have hstep := Blocks.step_crlf table h hu.blocks.innermost_ne he
      (head_ne_of_step hend hn)
    rw [hn] at hstep
    rw [next, if_neg (mt atLineEnd_crlf.mp hend)]
    exact hstep

variable (table) in
/-- In an argument a carriage return is literal, and the line feed behind it is refused. -/
theorem refuses_lineFeed (hb : blocks.innermost = .expression) (cs : List Char) :
    next table (blocks, '\r' :: '\n' :: cs) = some (blocks.pushText "\r", '\n' :: cs) ∧
      next table (blocks.pushText "\r", '\n' :: cs) = none := by
  have hne : blocks.innermost ≠ .assignment := by rw [hb]; decide
  have hb' : (blocks.pushText "\r").innermost = .expression :=
    (Blocks.innermost_pushText ..).trans hb
  have hne' : (blocks.pushText "\r").innermost ≠ .assignment := by rw [hb']; decide
  have hscan : scan .expression ('\r' :: '\n' :: cs) = some (.text ['\r'], '\n' :: cs) := by
    simp [scan, rules, escaped, interpolation, interpolationEnd, operatorRun, reference, quoteStart,
      argumentRun, anyChar, takeRun, isOperatorChar, isArgumentChar, isAlphanumeric, isUpper,
      isLower, isDigit]
  constructor
  · rw [next_eq_step hne, Blocks.step, hb, hscan]
    rfl
  · rw [next_eq_step hne', Blocks.step, hb', scan_expression_lineFeed]
    rfl

/-- Where no step is possible, the text is refused with the other line ends too. -/
theorem exists_refused_crlf (h : start.1.Nested) (hu : Unquoted start) (he : ¬EscapesFeed start.2)
    (hn : next table start = none) (hne : start.2 ≠ []) :
    ∃ last, Reaches table start.crlf last ∧ next table last = none ∧ last.2 ≠ [] := by
  obtain ⟨blocks, cs⟩ := start
  have hend : ¬AtLineEnd (blocks, cs) := by
    intro hend
    rw [next, if_pos hend] at hn
    cases hn
  by_cases hf : blocks.innermost = .expression ∧ cs.head? = some '\n'
  · obtain ⟨hb, hhead⟩ := hf
    obtain ⟨tail, rfl⟩ := List.head?_eq_some_iff.mp hhead
    obtain ⟨hreturn, hfeed⟩ := refuses_lineFeed table hb (Text.crlf tail)
    refine ⟨_, .head ?_ (.refl ..), hfeed, List.cons_ne_nil _ _⟩
    rw [State.crlf, crlf_lineFeed]
    exact hreturn
  · have hline : blocks.innermost = .assignment ∨ blocks.innermost = .expression →
        cs.head? ≠ some '\n' := by
      rintro (hb | hb) hhead
      · exact hend ⟨hb, by rw [hhead]; rfl⟩
      · exact hf ⟨hb, hhead⟩
    rw [next, if_neg hend] at hn
    have hstep := Blocks.step_crlf table h hu.blocks.innermost_ne he hline
    rw [hn] at hstep
    refine ⟨_, .refl .., ?_, mt crlf_eq_nil_iff.mp hne⟩
    rw [next, if_neg (mt atLineEnd_crlf.mp hend)]
    exact hstep

/-- As long as no line feed is escaped, the states are the same with the other line ends. -/
theorem Reaches.crlf (hr : Reaches table start last) (h : start.1.Nested) (hu : Unquoted start)
    (he : ∀ state, Reaches table start state → ¬EscapesFeed state.2) :
    Reaches table start.crlf last.crlf := by
  induction hr using Reaches.head_induction with
  | last => exact .refl ..
  | head hn _ ih =>
    exact .head (next_crlf h hu (he _ (.refl ..)) hn)
      (ih (nested_next h hn) (hu.next hn) fun state hr => he state (hr.head hn))

/-- The first escaped line feed is reached with the other line ends too. -/
theorem exists_first_crlf (hr : Reaches table start state) (h : start.1.Nested)
    (hu : Unquoted start) (he : EscapesFeed state.2) :
    ∃ first, Reaches table start first ∧ EscapesFeed first.2 ∧
      Reaches table start.crlf first.crlf := by
  induction hr using Reaches.head_induction with
  | last => exact ⟨state, .refl .., he, .refl ..⟩
  | @head start middle hn _ ih =>
    by_cases hstart : EscapesFeed start.2
    · exact ⟨start, .refl .., hstart, .refl ..⟩
    · obtain ⟨first, hfirst, hescapes, hcrlf⟩ := ih (nested_next h hn) (hu.next hn)
      exact ⟨first, hfirst.head hn, hescapes, hcrlf.head (next_crlf h hu hstart hn)⟩

/-- Without escaped line feeds the same blocks come out, or both texts are refused. -/
theorem run_crlf {limit : ℕ} (hl : 2 ≤ limit) (h : start.1.Nested) (hu : Unquoted start)
    (he : ∀ state, Reaches table start state → ¬EscapesFeed state.2) (source source' : List Char) :
    (∃ opened, run table limit source 0 start.1 start.2 = .ok opened ∧
        run table limit source' 0 start.1 (Text.crlf start.2) = .ok opened) ∨
      ∃ e e', run table limit source 0 start.1 start.2 = .error e ∧
        run table limit source' 0 start.1 (Text.crlf start.2) = .error e' := by
  obtain ⟨blocks, cs⟩ := start
  obtain ⟨steps, last, ha, hn, -⟩ := exists_last table h cs
  have hlast : Reaches table (blocks, cs) last := ⟨steps, ha⟩
  have hnested : last.1.Nested := hlast.nested h
  have hrun : run table limit source 0 blocks cs = outcome source last := run_of_last hl h hlast hn
  have hcrlf : Reaches table (State.crlf (blocks, cs)) last.crlf := hlast.crlf h hu he
  have hstart : (State.crlf (blocks, cs)).1.Nested := h
  have hrun' : run table limit source' 0 blocks (Text.crlf cs) =
      run table limit source' 0 last.1 (Text.crlf last.2) := run_of_reaches hl hstart hcrlf
  by_cases hrest : last.2 = []
  · refine .inl ⟨last.1, ?_, ?_⟩
    · rw [hrun, outcome, if_pos hrest]
    · rw [hrun', hrest, Text.crlf, run]
  · obtain ⟨refused, hrefused, hnone, hne⟩ :=
      exists_refused_crlf hnested (hu.reaches hlast) (he last hlast) hn hrest
    have hlast' : last.crlf.1.Nested := hnested
    have hend : run table limit source' 0 last.1 (Text.crlf last.2) = outcome source' refused :=
      run_of_last hl hlast' hrefused hnone
    refine .inr ⟨unrecognized source last.2, unrecognized source' refused.2, ?_, ?_⟩
    · rw [hrun, outcome, if_neg hrest]
    · rw [hrun', hend, outcome, if_neg hne]

theorem textFree_of_nested (h : blocks.Nested) : blocks.TextFree := by
  obtain ⟨frames, top⟩ := blocks
  induction frames with
  | nil => exact fun _ hf => nomatch hf
  | cons frame frames ih =>
    refine List.forall_mem_cons.mpr ⟨?_, ih h.2.2.2⟩
    rcases h.1 with hk | hk | hk | hk | hk <;> rw [hk] <;> decide

/-- A backslash that cannot escape is literal. -/
theorem scan_escapesFeed {block : Kind} {lexeme : Lexeme} {rest : List Char} (hb : IsBlock block)
    (hq : block ≠ .quoted) (h : scan block ('\\' :: '\n' :: cs) = some (lexeme, rest)) :
    lexeme = .text ['\\'] ∧ rest = '\n' :: cs := by
  have hmain : scan .main ('\\' :: '\n' :: cs) = none := by
    simp [scan, rules, includeFlag, preserveFlag, escaped, assignment, comment, whitespace, takeRun,
      isNameChar, isUpper, isDigit, isWhitespace]
  have hassignment : scan .assignment ('\\' :: '\n' :: cs) = some (.text ['\\'], '\n' :: cs) := by
    simp [scan, rules, escaped, trailingBlanks, interpolation, reference, quoteStart, comment,
      valueRun, blankRun, anyChar, takeRun, isBlank, isValueSpecial, dropEndWhile]
  have hinterpolation : scan .interpolation ('\\' :: '\n' :: cs) = none := by
    simp [scan, rules, escaped, interpolationEnd, operatorRun, whitespace, takeRun, isOperatorChar,
      isWhitespace]
  have hexpression : scan .expression ('\\' :: '\n' :: cs) = some (.text ['\\'], '\n' :: cs) := by
    simp [scan, rules, escaped, interpolation, interpolationEnd, operatorRun, reference, quoteStart,
      argumentRun, anyChar, takeRun, isOperatorChar, isArgumentChar, isAlphanumeric, isUpper,
      isLower, isDigit]
  rcases hb with rfl | rfl | rfl | rfl | rfl
  · rw [hmain] at h
    cases h
  · rw [hassignment] at h
    cases h
    exact ⟨rfl, rfl⟩
  · rw [hinterpolation] at h
    cases h
  · rw [hexpression] at h
    cases h
    exact ⟨rfl, rfl⟩
  · exact absurd rfl hq

/-- A character that was read as literal text is on the trail of all that comes out. -/
theorem trail_of_text {limit : ℕ} {source rest : List Char} {opened : Blocks} {c : Char}
    (hl : 2 ≤ limit) (h : blocks.Nested) (hend : ¬AtLineEnd (blocks, cs))
    (hs : scan blocks.innermost cs = some (.text [c], rest))
    (hr : run table limit source 0 blocks cs = .ok opened) :
    ∃ signs, opened.trail = blocks.trail ++ (blocks.depth, .char c) :: signs := by
  have hstep : blocks.step table cs = some (blocks.pushText (.ofList [c]), rest) :=
    Blocks.step_of_scan hs
  have hnext : next table (blocks, cs) = some (blocks.pushText (.ofList [c]), rest) := by
    rw [next, if_neg hend, hstep]
  rw [run_of_next hl h hnext] at hr
  have hfree : (blocks.pushText (.ofList [c])).TextFree := (textFree_of_nested h).pushText _
  obtain ⟨-, signs, ht, -⟩ := Blocks.grows_of_run hfree hr
  refine ⟨signs, ?_⟩
  rw [ht, Blocks.trail_pushText, String.toList_ofList, List.append_assoc]
  rfl

/-- An escaped line feed makes a difference to what comes out. -/
theorem trail_ne_of_escapesFeed {limit : ℕ} {source source' : List Char} {opened opened' : Blocks}
    (hl : 2 ≤ limit) (h : start.1.Nested) (hu : Unquoted start) (he : EscapesFeed start.2)
    (hr : run table limit source 0 start.1 start.2 = .ok opened)
    (hr' : run table limit source' 0 start.1 (Text.crlf start.2) = .ok opened') :
    opened.trail ≠ opened'.trail := by
  obtain ⟨blocks, cs⟩ := start
  obtain ⟨rest, rfl⟩ := he
  have hend : ∀ cs, ¬AtLineEnd (blocks, '\\' :: cs) := fun cs hend => Bool.noConfusion hend.2
  -- the backslash stays where it could not escape, and is gone where it could
  obtain ⟨signs, ht⟩ :
      ∃ signs, opened.trail = blocks.trail ++ (blocks.depth, .char '\\') :: signs := by
    cases hs : scan blocks.innermost ('\\' :: '\n' :: rest) with
    | none =>
      have hnone : next table (blocks, '\\' :: '\n' :: rest) = none := by
        rw [next, if_neg (hend _), Blocks.step, hs]
        rfl
      rw [run_of_next_eq_none hnone] at hr
      cases hr
    | some found =>
      obtain ⟨lexeme, after⟩ := found
      obtain ⟨rfl, rfl⟩ := scan_escapesFeed h.isBlock hu.blocks.innermost_ne hs
      exact trail_of_text hl h (hend _) hs hr
  obtain ⟨signs', ht'⟩ : ∃ signs', opened'.trail =
      blocks.trail ++ (blocks.depth, .char '\r') :: signs' := by
    have hs : scan blocks.innermost ('\\' :: '\r' :: '\n' :: Text.crlf rest) =
        some (.text ['\r'], '\n' :: Text.crlf rest) := scan_escaped _ (by decide) _
    rw [crlf_cons_of_ne (by decide), crlf_lineFeed] at hr'
    exact trail_of_text hl h (hend _) hs hr'
  rw [ht, ht']
  intro hsame
  have hsigns := List.append_cancel_left hsame
  cases hsigns

end Tokenize

open Tokenize

def withReturns (text : String) : String := .ofList (Text.crlf text.toList)

def EscapesLineFeed (text : String) : Prop :=
  ∃ state, Reaches .standard ({}, text.toList) state ∧ Lexeme.EscapesFeed state.2

theorem not_escapesLineFeed {text : String} (h : '\\' ∉ text.toList) : ¬EscapesLineFeed text := by
  rintro ⟨state, hreach, rest, hrest⟩
  exact h (hreach.subset (hrest ▸ List.mem_cons_self))

theorem unquoted_start {text : List Char} (h : '"' ∉ text) : Unquoted ({}, text) :=
  ⟨List.not_mem_nil, h⟩

/-- The trail of what is read in a text that is accepted. -/
theorem exists_trail_of_tokenize {text : String} {limit : ℕ} {tree : TokenTree} (hl : 2 ≤ limit)
    (h : tokenize text limit = .ok tree) : ∃ opened ts, tree = .ofTokens ts ∧
      run .standard limit text.toList 0 {} text.toList = .ok opened ∧
      opened.trail = Token.trailAll 0 ts := by
  obtain ⟨ts, rfl, hts⟩ := TokenTree.exists_tokens_of_tokenize h
  obtain ⟨opened, hr, hs, rfl⟩ := exists_run_of_tokens hts
  have hmax : max limit 1 = limit := by omega
  rw [hmax] at hr
  have hfree : Blocks.TextFree {} := fun _ hm => nomatch hm
  exact ⟨opened, _, rfl, hr, Blocks.trail_finish (Blocks.grows_of_run hfree hr).1 hs⟩

theorem eq_of_equivalent {ts us : List Token}
    (h : (TokenTree.ofTokens ts).equivalent TokenTree.root (.ofTokens us) TokenTree.root = true) :
    ts = us := by
  have htoken := (Token.same_eq_true_iff _ _).mp h
  change (TokenTree.ofTokens ts).token = (TokenTree.ofTokens us).token at htoken
  rw [TokenTree.token_ofTokens, TokenTree.token_ofTokens] at htoken
  exact (Token.node.inj htoken).2.2.2

theorem toList_withReturns (text : String) :
    (withReturns text).toList = Text.crlf text.toList := String.toList_ofList

/-- Without escaped line feeds the same tree comes out, or both texts are refused. -/
theorem tokenize_withReturns {text : String} {limit : ℕ} (hl : 2 ≤ limit)
    (hquote : '"' ∉ text.toList) (he : ¬EscapesLineFeed text) :
    (∃ tree, tokenize text limit = .ok tree ∧ tokenize (withReturns text) limit = .ok tree) ∨
      ∃ e e', tokenize text limit = .error e ∧ tokenize (withReturns text) limit = .error e' := by
  have hempty : Blocks.Nested {} := trivial
  have hrun := run_crlf hl hempty (unquoted_start hquote)
    (fun state hr hf => he ⟨state, hr, hf⟩) text.toList (Text.crlf text.toList)
  rw [tokenize_eq_run hl, tokenize_eq_run hl, toList_withReturns]
  obtain ⟨opened, hr, hr'⟩ | ⟨e, e', hr, hr'⟩ := hrun
  · exact .inl ⟨.ofTokens opened.finish, congrArg (Except.map _) hr, congrArg (Except.map _) hr'⟩
  · exact .inr ⟨e, e', congrArg (Except.map _) hr, congrArg (Except.map _) hr'⟩

/-- With an escaped line feed other tokens come out. -/
theorem not_equivalent_withReturns {text : String} {limit : ℕ} {tree again : TokenTree}
    (hl : 2 ≤ limit) (hquote : '"' ∉ text.toList) (he : EscapesLineFeed text)
    (htree : tokenize text limit = .ok tree)
    (hagain : tokenize (withReturns text) limit = .ok again) :
    tree.equivalent TokenTree.root again TokenTree.root = false := by
  have hempty : Blocks.Nested {} := trivial
  have hu : Unquoted ({}, text.toList) := unquoted_start hquote
  obtain ⟨state, hreach, hescapes⟩ := he
  obtain ⟨opened, ts, rfl, hr, ht⟩ := exists_trail_of_tokenize hl htree
  obtain ⟨opened', ts', rfl, hr', ht'⟩ := exists_trail_of_tokenize hl hagain
  obtain ⟨first, hfirst, hf, hcrlf⟩ := exists_first_crlf hreach hempty hu hescapes
  have hnested : first.1.Nested := hfirst.nested hempty
  have hstart : (State.crlf ({}, text.toList)).1.Nested := hempty
  rw [toList_withReturns] at hr'
  have hr := (run_of_reaches hl hempty hfirst).symm.trans hr
  have hr' := (run_of_reaches hl hstart hcrlf).symm.trans hr'
  have hne := trail_ne_of_escapesFeed hl hnested (hu.reaches hfirst) hf hr hr'
  by_contra hequivalent
  have hts := eq_of_equivalent (eq_true_of_ne_false hequivalent)
  exact hne (by rw [ht, ht', hts])

/-- With a carriage return before each line feed, a text without carriage returns and quotes is
accepted if it is without them, with the same tokens and no carriage return in them, unless it
escapes a line feed; and if it does, other tokens come out. -/
theorem tokenize_crlf {text : String} {limit : ℕ} (hl : 2 ≤ limit) (hreturn : '\r' ∉ text.toList)
    (hquote : '"' ∉ text.toList) :
    (¬EscapesLineFeed text →
      ((∃ again, tokenize (withReturns text) limit = .ok again) ↔
        ∃ tree, tokenize text limit = .ok tree) ∧
      ∀ tree, tokenize text limit = .ok tree →
        ∃ again, tokenize (withReturns text) limit = .ok again ∧
          tree.equivalent TokenTree.root again TokenTree.root = true ∧
          ∀ t ∈ again.topTokens, ∀ u, t.Has u → '\r' ∉ u.value.toList) ∧
    (EscapesLineFeed text → ∀ tree again, tokenize text limit = .ok tree →
      tokenize (withReturns text) limit = .ok again →
      tree.equivalent TokenTree.root again TokenTree.root = false) := by
  -- a backslash leaves a line feed alone, but makes a carriage return literal
  refine ⟨fun he => ?_, fun he tree again htree hagain => ?_⟩
  · obtain ⟨tree, htree, hagain⟩ | ⟨e, e', htree, hagain⟩ := tokenize_withReturns hl hquote he
    · refine ⟨⟨fun _ => ⟨tree, htree⟩, fun _ => ⟨tree, hagain⟩⟩, fun found hfound => ?_⟩
      obtain rfl : tree = found := Except.ok.inj (htree.symm.trans hfound)
      refine ⟨tree, hagain, (Token.same_eq_true_iff _ _).mpr rfl, fun t hm u hu hc => ?_⟩
      exact hreturn (drawn_of_tokenize htree t hm u hu hc)
    · rw [htree, hagain]
      exact ⟨⟨nofun, nofun⟩, nofun⟩
  · exact not_equivalent_withReturns hl hquote he htree hagain

/-- Blanks and a comment before the line ends. -/
theorem tokenize_crlf_twoLines :
    ∃ again, tokenize "A=x \r\n# c\r\n" 2 = .ok again ∧
      (TokenTree.ofTokens [.node .assignment "A" false [.leaf .text "x"],
        .leaf .comment "c"]).equivalent TokenTree.root again TokenTree.root = true := by
  have hescapes : ¬EscapesLineFeed "A=x \n# c\n" := not_escapesLineFeed (by decide)
  have hread : Tokenize.tokens 2 "A=x \n# c\n".toList {} "A=x \n# c\n".toList =
      .ok [.node .assignment "A" false [.leaf .text "x"], .leaf .comment "c"] := by
    decide +kernel
  obtain ⟨-, htrees⟩ :=
    (@tokenize_crlf "A=x \n# c\n" 2 (Nat.le_refl 2) (by decide) (by decide)).1 hescapes
  obtain ⟨again, hagain, hequivalent, -⟩ := htrees _ (TokenTree.tokenize_of_tokens hread)
  have hreturns : withReturns "A=x \n# c\n" = "A=x \r\n# c\r\n" := by decide +kernel
  exact ⟨again, hreturns ▸ hagain, hequivalent⟩

/-- A value that ends in a backslash: the line feed cannot be escaped, and a carriage return is. -/
theorem tokenize_crlf_fails_trailingBackslash :
    let tree : TokenTree := .ofTokens [.node .assignment "A" false [.leaf .text "\\"]]
    let again : TokenTree := .ofTokens [.node .assignment "A" false [.leaf .text "\r"]]
    '\r' ∉ "A=\\\n".toList ∧ '"' ∉ "A=\\\n".toList ∧ withReturns "A=\\\n" = "A=\\\r\n" ∧
      tokenize "A=\\\n" = .ok tree ∧ tokenize "A=\\\r\n" = .ok again ∧
      tree.equivalent TokenTree.root again TokenTree.root = false := by
  intro tree again
  exact ⟨by decide, by decide, by decide +kernel, by cbv, by cbv, by cbv⟩

end LayeredEnv
