import LayeredEnv.Proofs.Tokenizing.Reading
import LayeredEnv.Token.Render

namespace LayeredEnv.Render

open Text Lexeme Tokenize

/-- Literal text, with a mark on the characters that a backslash stands before. -/
abbrev Marked : Type := List (Bool × Char)

def spell (text : Marked) : List Char :=
  text.flatMap fun (escaped, c) => if escaped then ['\\', c] else [c]

def chars (text : Marked) : List Char := text.map Prod.snd

def markAll (escaped : Bool) (text : List Char) : Marked := text.map fun c => (escaped, c)

/-- Inside a block, a run of characters of the class `raw` is taken as literal text, in one or more
pieces, if `ends` holds of it and what stands behind it. -/
structure Chunks (block : Kind) (raw : Char → Prop) (ends : List Char → List Char → Prop) :
    Prop where
  read : ∀ {run rest}, run ≠ [] → (∀ c ∈ run, raw c) → ends run rest →
    ∃ piece left, piece ≠ [] ∧ run = piece ++ left ∧
      scan block (run ++ rest) = some (.text piece, left ++ rest)
  backslash : ∀ run rest, ends run ('\\' :: rest)
  noBreak : ∀ c, block = .assignment → raw c → (!isLineBreak c) = true

section Spell

variable {table : OperatorTable} {block : Kind} {raw : Char → Prop}
  {ends : List Char → List Char → Prop}

@[simp] theorem spell_append (before after : Marked) :
    spell (before ++ after) = spell before ++ spell after := List.flatMap_append

@[simp] theorem chars_append (before after : Marked) :
    chars (before ++ after) = chars before ++ chars after := List.map_append

theorem spell_markAll_false (text : List Char) : spell (markAll false text) = text := by
  induction text with
  | nil => rfl
  | cons c text ih => exact congrArg (c :: ·) ih

theorem spell_markAll_true (text : List Char) :
    spell (markAll true text) = text.flatMap (['\\', ·]) := by
  unfold spell markAll
  rw [List.flatMap_map]
  rfl

@[simp] theorem chars_markAll (escaped : Bool) (text : List Char) :
    chars (markAll escaped text) = text := by
  simp [markAll, chars, Function.comp_def]

/-- The text up to the first mark, and the rest. -/
theorem exists_run (text : Marked) : ∃ run others, text = markAll false run ++ others ∧
    (others = [] ∨ ∃ c others', others = (true, c) :: others') := by
  induction text with
  | nil => exact ⟨[], [], rfl, Or.inl rfl⟩
  | cons mark text ih =>
    obtain ⟨_ | _, c⟩ := mark
    · obtain ⟨run, others, rfl, ho⟩ := ih
      exact ⟨c :: run, others, rfl, ho⟩
    · exact ⟨[], (true, c) :: text, rfl, Or.inr ⟨c, text, rfl⟩⟩

/-- A marked character, or a piece of the run before the first mark, is read in one step. -/
theorem exists_piece (h : Chunks block raw ends) {text : Marked} {rest : List Char}
    (hne : text ≠ []) (hesc : ∀ c, (true, c) ∈ text → c ≠ '\n')
    (hraw : ∀ c, (false, c) ∈ text → raw c)
    (hend : ∀ front run, text = front ++ markAll false run → run ≠ [] → ends run rest)
    {blocks : Blocks} (hb : blocks.innermost = block) :
    ∃ front others, text = front ++ others ∧ front ≠ [] ∧
      Reads table blocks (spell text ++ rest) (blocks.pushChars (chars front))
        (spell others ++ rest) := by
  obtain ⟨run, others, rfl, ho⟩ := exists_run text
  by_cases hrun : run = []
  · subst hrun
    rcases ho with rfl | ⟨c, others, rfl⟩
    · exact absurd rfl hne
    · have hc : c ≠ '\n' := hesc c List.mem_cons_self
      have hs : scan blocks.innermost ('\\' :: c :: (spell others ++ rest)) =
          some (.text [c], spell others ++ rest) := scan_escaped _ hc _
      exact ⟨[(true, c)], others, rfl, List.cons_ne_nil _ _,
        Reads.of_text (List.cons_ne_nil _ _) (fun _ => starts_cons.mpr rfl) hs⟩
  · have hrawRun : ∀ c ∈ run, raw c := fun c hc =>
      hraw c (List.mem_append_left _ (List.mem_map_of_mem hc))
    -- the backslash of the next mark ends the run, or else the end of the text does
    have hends : ends run (spell others ++ rest) := by
      rcases ho with rfl | ⟨c, others, rfl⟩
      · exact hend [] run (List.append_nil _) hrun
      · exact h.backslash _ _
    obtain ⟨piece, left, hp, rfl, hscan⟩ := h.read hrun hrawRun hends
    have hstart : blocks.innermost = .assignment →
        Starts (!isLineBreak ·) (piece ++ left ++ (spell others ++ rest)) := by
      intro ha
      cases piece with
      | nil => exact absurd rfl hp
      | cons c piece =>
        exact starts_cons.mpr (h.noBreak c (hb ▸ ha) (hrawRun c List.mem_cons_self))
    have hstep : Reads table blocks (piece ++ left ++ (spell others ++ rest))
        (blocks.pushChars piece) (left ++ (spell others ++ rest)) :=
      Reads.of_text hp hstart (hb ▸ hscan)
    refine ⟨markAll false piece, markAll false left ++ others, ?_, ?_, ?_⟩
    · simp [markAll]
    · simpa [markAll] using hp
    · simp only [spell_append, chars_markAll, spell_markAll_false, List.append_assoc] at hstep ⊢
      exact hstep

/-- Marked text is read as the text of its characters. -/
theorem reads_spell (h : Chunks block raw ends) {text : Marked} {rest : List Char}
    (hesc : ∀ c, (true, c) ∈ text → c ≠ '\n') (hraw : ∀ c, (false, c) ∈ text → raw c)
    (hend : ∀ front run, text = front ++ markAll false run → run ≠ [] → ends run rest)
    {blocks : Blocks} (hb : blocks.innermost = block) :
    Reads table blocks (spell text ++ rest) (blocks.pushChars (chars text)) rest := by
  -- a run may take several steps, so that the induction is on the length
  induction hn : text.length using Nat.strongRecOn generalizing text blocks with
  | _ n ih =>
  by_cases hne : text = []
  · subst hne
    exact Reads.refl
  obtain ⟨front, others, rfl, hfront, hstep⟩ := exists_piece h hne hesc hraw hend hb
  have hlt : others.length < n := by
    have hpos : 0 < front.length := List.length_pos_of_ne_nil hfront
    rw [← hn, List.length_append]
    omega
  have hrec : Reads table (blocks.pushChars (chars front)) (spell others ++ rest)
      ((blocks.pushChars (chars front)).pushChars (chars others)) rest :=
    ih others.length hlt (fun c hc => hesc c (List.mem_append_right _ hc))
      (fun c hc => hraw c (List.mem_append_right _ hc))
      (fun before run he => hend (front ++ before) run (by rw [he, List.append_assoc]))
      (by rw [Blocks.innermost_pushChars, hb]) rfl
  rw [Blocks.pushChars_pushChars, ← chars_append] at hrec
  exact hstep.trans hrec

end Spell

def ValueEnds (run rest : List Char) : Prop :=
  Starts isValueSpecial rest ∧
    ∀ c ∈ run.getLast?, isBlank c = true → rest ≠ [] ∧ Starts (!isLineBreak ·) rest

theorem ne_of_class {p : Char → Bool} {c d : Char} (h : p c = false) (hd : p d = true) :
    (c != d) = true := by
  apply bne_iff_ne.mpr
  rintro rfl
  rw [h] at hd
  cases hd

theorem not_isBlank_of_isValueSpecial {c : Char} (h : isValueSpecial c = true) :
    isBlank c = false := by
  have h : ((c = '\n' ∨ c = '\r') ∨ c = '$') ∨ c = '"' ∨ c = '\\' := by
    simpa [isValueSpecial, isLineBreak, or_assoc] using h
  rcases h with ((rfl | rfl) | rfl) | rfl | rfl <;> decide

theorem not_isLineBreak_of_raw {c : Char} (h : isValueSpecial c = false) :
    (!isLineBreak c) = true := by
  simp only [isValueSpecial, Bool.or_eq_false_iff] at h
  rw [h.1.1.1]
  rfl

theorem starts_of_raw {run : List Char} (hne : run ≠ [])
    (hraw : ∀ c ∈ run, isValueSpecial c = false) (rest : List Char) :
    Starts (!isLineBreak ·) (run ++ rest) := by
  cases run with
  | nil => exact absurd rfl hne
  | cons c run => exact starts_cons.mpr (not_isLineBreak_of_raw (hraw c List.mem_cons_self))

theorem trailingBlanks_of_run {run rest : List Char} (hne : run ≠ [])
    (hraw : ∀ c ∈ run, isValueSpecial c = false)
    (h : ∀ c ∈ run.getLast?, isBlank c = true →
      rest ≠ [] ∧ Starts (fun c => !isBlank c && !isLineBreak c) rest) :
    trailingBlanks (run ++ rest) = none := by
  by_cases hb : run.takeWhile isBlank = []
  · apply trailingBlanks_of_starts
    cases run with
    | nil => exact absurd rfl hne
    | cons c run =>
      apply starts_cons.mpr
      by_contra hc
      have hc : isBlank c = true := by simpa using hc
      rw [List.takeWhile_cons_of_pos hc] at hb
      cases hb
  have hsplit : run ++ rest = run.takeWhile isBlank ++ (run.dropWhile isBlank ++ rest) := by
    rw [← List.append_assoc, List.takeWhile_append_dropWhile]
  have hblanks : ∀ c ∈ run.takeWhile isBlank, isBlank c = true := fun c => List.mem_takeWhile_imp
  have hdrop := starts_dropWhile isBlank run
  rw [hsplit]
  cases hd : run.dropWhile isBlank with
  | cons c others =>
    have hc : c ∈ run := List.dropWhile_subset _ (by rw [hd]; exact List.mem_cons_self)
    rw [hd] at hdrop
    refine trailingBlanks_append hb hblanks (List.cons_ne_nil _ _) (starts_cons.mpr ?_)
    exact Bool.and_eq_true_iff.mpr
      ⟨starts_cons.mp hdrop, not_isLineBreak_of_raw (hraw c hc)⟩
  | nil =>
    -- the whole run is blank, so that the text behind it counts
    have hall : run.takeWhile isBlank = run := by
      have ha := List.takeWhile_append_dropWhile (p := isBlank) (l := run)
      rwa [hd, List.append_nil] at ha
    obtain ⟨c, hc⟩ : ∃ c, run.getLast? = some c := by
      rw [List.getLast?_eq_some_getLast hne]
      exact ⟨_, rfl⟩
    obtain ⟨hrest, hstart⟩ := h c hc (hblanks c (by rw [hall]; exact List.mem_of_getLast? hc))
    exact trailingBlanks_append hb hblanks hrest hstart

/-- A run of unquoted text is left to the last three rules. -/
theorem scan_run {run rest : List Char} (hne : run ≠ [])
    (hraw : ∀ c ∈ run, isValueSpecial c = false ∧ c ≠ '#')
    (h : ∀ c ∈ run.getLast?, isBlank c = true →
      rest ≠ [] ∧ Starts (fun c => !isBlank c && !isLineBreak c) rest) :
    scan .assignment (run ++ rest) =
      [valueRun, blankRun, anyChar].findSome? (· (run ++ rest)) := by
  have hstart : ∀ d, isValueSpecial d = true ∨ d = '#' → Starts (· != d) (run ++ rest) := by
    intro d hd
    cases run with
    | nil => exact absurd rfl hne
    | cons c run =>
      have hc := hraw c List.mem_cons_self
      apply starts_cons.mpr
      rcases hd with hd | rfl
      · exact ne_of_class hc.1 hd
      · exact bne_iff_ne.mpr hc.2
  have he := escaped_of_ne (hstart '\\' (Or.inl rfl))
  have ht := trailingBlanks_of_run hne (fun c hc => (hraw c hc).1) h
  have hi := interpolation_of_ne (hstart '$' (Or.inl rfl))
  have hr := reference_of_ne (hstart '$' (Or.inl rfl))
  have hq := quoteStart_of_ne (hstart '"' (Or.inl rfl))
  have hc := comment_of_ne (hstart '#' (Or.inr rfl))
  simp only [scan, rules, List.findSome?_cons, he, ht, hi, hr, hq, hc]

/-- As `ValueEnds`, also where blanks stand between the run and what ends it. Then the run itself
does not end in a blank. -/
def ValueStops (run rest : List Char) : Prop :=
  Starts isValueSpecial (rest.dropWhile isBlank) ∧
    ∀ c ∈ run.getLast?, isBlank c = true →
      rest ≠ [] ∧ Starts isValueSpecial rest ∧ Starts (!isLineBreak ·) rest

theorem ValueEnds.stops {run rest : List Char} (h : ValueEnds run rest) : ValueStops run rest := by
  have hdrop : rest.dropWhile isBlank = rest :=
    dropWhile_of_starts (h.1.imp fun c hc => by rw [not_isBlank_of_isValueSpecial hc]; rfl)
  refine ⟨hdrop.symm ▸ h.1, fun c hc hb => ?_⟩
  obtain ⟨hne, hbreak⟩ := h.2 c hc hb
  exact ⟨hne, h.1, hbreak⟩

theorem isWhitespace_of_isBlank {c : Char} (h : isBlank c = true) : isWhitespace c = true := by
  have h : c = ' ' ∨ c = '\t' := by simpa [isBlank] using h
  rcases h with rfl | rfl <;> rfl

/-- Of a run with blanks behind it the rule for unquoted text takes what it takes of the run. -/
theorem valueRun_of_stops {run rest : List Char}
    (hraw : ∀ c ∈ run, isValueSpecial c = false) (h : ValueStops run rest) :
    dropEndWhile isWhitespace ((run ++ rest).takeWhile (!isValueSpecial ·)) =
      dropEndWhile isWhitespace run := by
  have hblanks : ∀ c ∈ rest.takeWhile isBlank, isBlank c = true := fun c => List.mem_takeWhile_imp
  have hplain : ∀ c ∈ run ++ rest.takeWhile isBlank, (!isValueSpecial c) = true := by
    intro c hc
    rcases List.mem_append.mp hc with hc | hc
    · rw [hraw c hc]
      rfl
    · by_contra hs
      have hs : isValueSpecial c = true := by simpa using hs
      have hb := hblanks c hc
      rw [not_isBlank_of_isValueSpecial hs] at hb
      cases hb
  have htake : (run ++ rest).takeWhile (!isValueSpecial ·) = run ++ rest.takeWhile isBlank := by
    have hsplit : run ++ rest = run ++ rest.takeWhile isBlank ++ rest.dropWhile isBlank := by
      rw [List.append_assoc, List.takeWhile_append_dropWhile]
    rw [hsplit]
    exact takeWhile_append_of_starts hplain (h.1.imp fun c hc => by rw [hc]; rfl)
  have hspace : ∀ c ∈ (rest.takeWhile isBlank).reverse, isWhitespace c = true := fun c hc =>
    isWhitespace_of_isBlank (hblanks c (List.mem_reverse.mp hc))
  rw [htake, dropEndWhile, List.reverse_append, List.dropWhile_append_of_pos hspace]
  rfl

theorem starts_behind_blanks {run rest : List Char} (hne : run ≠ []) (h : ValueStops run rest) :
    Starts (!isBlank ·) (run.dropWhile isBlank ++ rest) := by
  have hdrop := starts_dropWhile isBlank run
  cases hd : run.dropWhile isBlank with
  | cons e others =>
    rw [hd] at hdrop
    exact starts_cons.mpr (starts_cons.mp hdrop)
  | nil =>
    -- a run of blanks ends in one, so that no more of them stand behind it
    have hlast : isBlank (run.getLast hne) = true :=
      List.dropWhile_eq_nil_iff.mp hd _ (List.getLast_mem hne)
    obtain ⟨-, hspecial, -⟩ := h.2 _ (List.getLast?_eq_some_getLast hne) hlast
    exact hspecial.imp fun e he => by rw [not_isBlank_of_isValueSpecial he]; rfl

theorem valueStops_chunks :
    Chunks .assignment (fun c => isValueSpecial c = false ∧ c ≠ '#') ValueStops where
  backslash run rest := by
    have hdrop : ('\\' :: rest).dropWhile isBlank = '\\' :: rest :=
      dropWhile_of_starts (starts_cons.mpr rfl)
    exact ⟨hdrop.symm ▸ starts_cons.mpr rfl,
      fun _ _ _ => ⟨List.cons_ne_nil _ _, starts_cons.mpr rfl, starts_cons.mpr rfl⟩⟩
  noBreak c _ h := not_isLineBreak_of_raw h.1
  read := by
    intro run rest hne hraw h
    have hs := scan_run hne hraw fun c hc hb => ⟨(h.2 c hc hb).1, fun d hd =>
      Bool.and_eq_true_iff.mpr ⟨by
        rw [not_isBlank_of_isValueSpecial ((h.2 c hc hb).2.1 d hd)]
        rfl, (h.2 c hc hb).2.2 d hd⟩⟩
    have htake := valueRun_of_stops (fun c hc => (hraw c hc).1) h
    -- a piece goes up to the white space at the end of the run
    cases hw : dropEndWhile isWhitespace run with
    | cons c piece =>
      obtain ⟨left, hl⟩ := List.rdropWhile_prefix isWhitespace run
      have hl : run = c :: piece ++ left := by rw [← hl, ← hw]; rfl
      have hv : valueRun (run ++ rest) = some (.text (c :: piece), left ++ rest) := by
        rw [valueRun, htake, hw, hl, List.append_assoc]
        simp
      exact ⟨c :: piece, left, List.cons_ne_nil _ _, hl,
        by rw [hs]; simp only [List.findSome?_cons, hv]⟩
    | nil =>
      have hv : valueRun (run ++ rest) = none := by rw [valueRun, htake, hw]
      -- in white space blanks are taken together, other characters one by one
      cases run with
      | nil => exact absurd rfl hne
      | cons c run =>
        by_cases hb : isBlank c = true
        · have htaken : (c :: run).takeWhile isBlank ≠ [] := by
            rw [List.takeWhile_cons_of_pos hb]
            exact List.cons_ne_nil _ _
          have hrun : takeRun isBlank (c :: run ++ rest) =
              some ((c :: run).takeWhile isBlank, (c :: run).dropWhile isBlank ++ rest) := by
            refine takeRun_eq_some_iff.mpr ⟨?_, htaken, fun d => List.mem_takeWhile_imp, ?_⟩
            · rw [← List.append_assoc, List.takeWhile_append_dropWhile]
            · exact starts_behind_blanks (List.cons_ne_nil _ _) h
          have hbr : blankRun (c :: run ++ rest) = some (.text ((c :: run).takeWhile isBlank),
              (c :: run).dropWhile isBlank ++ rest) := by
            simp only [blankRun, hrun, Option.bind_eq_bind, Option.bind_some, Option.pure_def]
          exact ⟨_, _, htaken, List.takeWhile_append_dropWhile.symm,
            by rw [hs]; simp only [List.findSome?_cons, hv, hbr]⟩
        · have hbr : blankRun (c :: run ++ rest) = none :=
            blankRun_of_starts (starts_cons.mpr (by simpa using hb))
          have hn : c ≠ '\n' := by
            rintro rfl
            exact absurd (hraw '\n' List.mem_cons_self).1 (by decide)
          have ha : anyChar (c :: run ++ rest) = some (.text [c], run ++ rest) := by
            simp [anyChar, hn]
          exact ⟨[c], run, List.cons_ne_nil _ _, rfl,
            by rw [hs]; simp only [List.findSome?_cons, hv, hbr, ha]⟩

theorem value_chunks :
    Chunks .assignment (fun c => isValueSpecial c = false ∧ c ≠ '#') ValueEnds where
  backslash _ _ :=
    ⟨starts_cons.mpr rfl, fun _ _ _ => ⟨List.cons_ne_nil _ _, starts_cons.mpr rfl⟩⟩
  noBreak := valueStops_chunks.noBreak
  read hne hraw h := valueStops_chunks.read hne hraw h.stops

theorem quoted_chunks : Chunks .quoted (fun c => isQuotedSpecial c = false)
    (fun _ rest => Starts isQuotedSpecial rest) where
  backslash _ _ := starts_cons.mpr rfl
  noBreak _ h := by cases h
  read := by
    intro run rest hne hraw h
    have hstart : ∀ d, isQuotedSpecial d = true → Starts (· != d) (run ++ rest) := by
      intro d hd
      cases run with
      | nil => exact absurd rfl hne
      | cons c run => exact starts_cons.mpr (ne_of_class (hraw c List.mem_cons_self) hd)
    have he := escaped_of_ne (hstart '\\' rfl)
    have hi := interpolation_of_ne (hstart '$' rfl)
    have hr := reference_of_ne (hstart '$' rfl)
    have hq := quoteEnd_of_ne (hstart '"' rfl)
    have ht : takeRun (!isQuotedSpecial ·) (run ++ rest) = some (run, rest) :=
      takeRun_append hne (fun c hc => by rw [hraw c hc]; rfl) (h.imp fun c hc => by rw [hc]; rfl)
    have hv : quotedRun (run ++ rest) = some (.text run, rest) := by
      simp only [quotedRun, ht]
    exact ⟨run, [], hne, (List.append_nil _).symm,
      by simp only [scan, rules, List.findSome?_cons, he, hi, hr, hq, hv, List.nil_append]⟩

/-- Operator characters are special in arguments. -/
theorem not_isOperatorChar {c : Char} (h : isSpecial .expression c = false) :
    isOperatorChar c = false := by
  by_contra ho
  have hs := of_isOperatorChar (p := isSpecial .expression) (by decide) (eq_true_of_ne_false ho)
  rw [h] at hs
  cases hs

theorem expression_chunks :
    Chunks .expression (fun c => isSpecial .expression c = false ∧ c ≠ '\n')
      (fun _ rest => Starts (!isArgumentChar ·) rest) where
  backslash _ _ := starts_cons.mpr rfl
  noBreak _ h := by cases h
  read := by
    intro run rest hne hraw h
    rcases run with _ | ⟨c, run⟩
    · exact absurd rfl hne
    obtain ⟨hc, hn⟩ := hraw c List.mem_cons_self
    have hstart : ∀ d, isSpecial .expression d = true → Starts (· != d) (c :: run ++ rest) :=
      fun d hd => starts_cons.mpr (ne_of_class hc hd)
    have hop := not_isOperatorChar hc
    have he := escaped_of_ne (hstart '\\' (by decide))
    have hi := interpolation_of_ne (hstart '$' (by decide))
    have hd := interpolationEnd_of_ne (hstart '\x7d' (by decide))
    have ho : operatorRun (c :: run ++ rest) = none :=
      operatorRun_of_starts (starts_cons.mpr (by rw [hop]; rfl))
    have hr := reference_of_ne (hstart '$' (by decide))
    have hq := quoteStart_of_ne (hstart '"' (by decide))
    by_cases hb : isArgumentChar c = true
    · have htaken : (c :: run).takeWhile isArgumentChar ≠ [] := by
        rw [List.takeWhile_cons_of_pos hb]
        exact List.cons_ne_nil _ _
      have hrun := takeRun_append_prefix htaken h
      have ha : argumentRun (c :: run ++ rest) = some (.text ((c :: run).takeWhile isArgumentChar),
          (c :: run).dropWhile isArgumentChar ++ rest) := by
        simp only [argumentRun, hrun, Option.bind_eq_bind, Option.bind_some, Option.pure_def]
      exact ⟨_, _, htaken, List.takeWhile_append_dropWhile.symm,
        by simp only [scan, rules, List.findSome?_cons, he, hi, hd, ho, hr, hq, ha]⟩
    · have ha : argumentRun (c :: run ++ rest) = none :=
        argumentRun_of_starts (starts_cons.mpr (by simpa using hb))
      have hv : anyChar (c :: run ++ rest) = some (.text [c], run ++ rest) := by
        simp [anyChar, hn]
      exact ⟨[c], run, List.cons_ne_nil _ _, rfl,
        by simp only [scan, rules, List.findSome?_cons, he, hi, hd, ho, hr, hq, ha, hv]⟩

/-- Text with a mark on every character is read anywhere. -/
theorem marked_chunks (block : Kind) : Chunks block (fun _ => False) (fun _ _ => True) where
  backslash _ _ := trivial
  noBreak _ _ h := h.elim
  read := by
    intro run rest hne hraw _
    cases run with
    | nil => exact absurd rfl hne
    | cons c run => exact (hraw c List.mem_cons_self).elim

def marks (place : Place) (text : List Char) : Marked := text.map fun c => (isSpecial place c, c)

def valueMarks (first last : Bool) (text : List Char) : Marked :=
  if trim isBlank text = [] then markAll (first || last) text
  else
    markAll first (text.takeWhile isBlank) ++ marks .value (trim isBlank text) ++
      markAll last (takeEndWhile isBlank text)

theorem spell_marks (place : Place) (text : List Char) :
    spell (marks place text) = escape place text := by
  unfold spell marks escape
  rw [List.flatMap_map]

@[simp] theorem chars_marks (place : Place) (text : List Char) :
    chars (marks place text) = text := by
  simp [marks, chars, Function.comp_def]

theorem spell_markAll (escaped : Bool) (text : List Char) :
    spell (markAll escaped text) = blanks escaped text := by
  cases escaped with
  | false => exact spell_markAll_false text
  | true => exact spell_markAll_true text

theorem spell_valueMarks (first last : Bool) (text : List Char) :
    spell (valueMarks first last text) = valueText first last text := by
  simp only [valueMarks, valueText, List.isEmpty_iff]
  split
  · exact spell_markAll _ _
  · rw [spell_append, spell_append, spell_markAll, spell_marks, spell_markAll]

/-- Blanks at the start, the text between, and blanks at the end. -/
theorem trim_parts {p : Char → Bool} {text : List Char} (h : trim p text ≠ []) :
    text.takeWhile p ++ trim p text ++ takeEndWhile p text = text := by
  have hsplit := List.takeWhile_append_dropWhile (p := p) (l := text)
  have hend : takeEndWhile p text = takeEndWhile p (text.dropWhile p) := by
    have hlt : ((text.dropWhile p).reverse.takeWhile p).length ≠
        (text.dropWhile p).reverse.length := by
      intro he
      refine h (List.reverse_eq_nil_iff.mpr (List.dropWhile_eq_nil_iff.mpr fun c hc => ?_))
      have ht := (List.takeWhile_prefix p).eq_of_length he
      rw [← ht] at hc
      exact List.mem_takeWhile_imp hc
    unfold takeEndWhile
    conv_lhs => rw [← hsplit, List.reverse_append, List.takeWhile_append, if_neg hlt]
  rw [hend, List.append_assoc]
  exact (congrArg _ (dropEndWhile_append_takeEndWhile p _)).trans hsplit

@[simp] theorem chars_valueMarks (first last : Bool) (text : List Char) :
    chars (valueMarks first last text) = text := by
  unfold valueMarks
  split
  · exact chars_markAll _ _
  · next h =>
    rw [chars_append, chars_append, chars_markAll, chars_marks, chars_markAll, trim_parts h]

theorem mem_marks {place : Place} {text : List Char} {escaped : Bool} {c : Char}
    (h : (escaped, c) ∈ marks place text) : c ∈ text ∧ isSpecial place c = escaped := by
  obtain ⟨d, hd, he⟩ := List.mem_map.mp h
  cases he
  exact ⟨hd, rfl⟩

theorem mem_markAll {escaped escaped' : Bool} {text : List Char} {c : Char}
    (h : (escaped, c) ∈ markAll escaped' text) : c ∈ text ∧ escaped' = escaped := by
  obtain ⟨d, hd, he⟩ := List.mem_map.mp h
  cases he
  exact ⟨hd, rfl⟩

theorem isBlank_of_trim {text : List Char} (h : trim isBlank text = []) :
    ∀ c ∈ text, isBlank c = true := by
  have hd := List.dropWhile_eq_nil_iff.mp (List.reverse_eq_nil_iff.mp h)
  intro c hc
  by_cases hm : c ∈ text.dropWhile isBlank
  · exact hd c (List.mem_reverse.mpr hm)
  · rw [← List.takeWhile_append_dropWhile (p := isBlank) (l := text)] at hc
    exact List.mem_takeWhile_imp ((List.mem_append.mp hc).resolve_right hm)

/-- What is not marked in a value is a blank or not special. -/
theorem mem_valueMarks {first last : Bool} {text : List Char} {c : Char}
    (h : (false, c) ∈ valueMarks first last text) :
    isBlank c = true ∨ isSpecial .value c = false := by
  unfold valueMarks at h
  split at h
  · next ht => exact Or.inl (isBlank_of_trim ht c (mem_markAll h).1)
  · rcases List.mem_append.mp h with h | h
    · rcases List.mem_append.mp h with h | h
      · exact Or.inl (List.mem_takeWhile_imp (mem_markAll h).1)
      · exact Or.inr (mem_marks h).2
    · exact Or.inl (List.mem_takeWhile_imp (List.mem_reverse.mp (mem_markAll h).1))

theorem mem_of_mem_valueMarks {first last escaped : Bool} {text : List Char} {c : Char}
    (h : (escaped, c) ∈ valueMarks first last text) : c ∈ text := by
  rw [← chars_valueMarks first last text]
  exact List.mem_map_of_mem h

theorem eq_of_isBlank {c : Char} (h : isBlank c = true) : c = ' ' ∨ c = '\t' := by
  simpa [isBlank] using h

theorem not_isSpecial_of_isBlank {place : Place} {c : Char} (h : isBlank c = true) :
    isSpecial place c = false := by
  rcases eq_of_isBlank h with rfl | rfl <;> cases place <;> decide

/-- At the end of a value no blank is without its mark. -/
theorem not_isBlank_of_last {first : Bool} {text : List Char} {c : Char}
    (h : (valueMarks first true text).getLast? = some (false, c)) : isBlank c = false := by
  unfold valueMarks at h
  split at h
  · have hm := (mem_markAll (List.mem_of_getLast? h)).2
    rw [Bool.or_true] at hm
    cases hm
  · next ht =>
    cases he : takeEndWhile isBlank text with
    | cons d tail =>
      have hm : markAll true (d :: tail) ≠ [] := List.cons_ne_nil _ _
      rw [he, List.getLast?_append_of_ne_nil _ hm] at h
      cases (mem_markAll (List.mem_of_getLast? h)).2
    | nil =>
      have hm : marks .value (trim isBlank text) ≠ [] := by simpa [marks] using ht
      rw [he, show markAll true [] = [] from rfl, List.append_nil,
        List.getLast?_append_of_ne_nil _ hm, marks, List.getLast?_map] at h
      obtain ⟨d, hd, hdc⟩ := Option.map_eq_some_iff.mp h
      obtain rfl : d = c := congrArg Prod.snd hdc
      have hl := List.rdropWhile_last_not isBlank _ ht
      rw [List.getLast?_eq_some_getLast ht] at hd
      cases hd
      exact eq_false_of_ne_true hl

/-- At the start of a value no blank is without its mark. -/
theorem not_isBlank_of_first {last : Bool} {text : List Char} {c : Char}
    (h : (valueMarks true last text).head? = some (false, c)) : isBlank c = false := by
  have hc : text.head? = some c := by
    rw [← chars_valueMarks true last text, chars, List.head?_map, h]
    rfl
  obtain ⟨tail, rfl⟩ := List.head?_eq_some_iff.mp hc
  by_contra hb
  have hb := eq_true_of_ne_false hb
  unfold valueMarks at h
  split at h
  · cases h
  · rw [List.takeWhile_cons_of_pos hb] at h
    cases h

theorem escape_append (place : Place) (before after : List Char) :
    escape place (before ++ after) = escape place before ++ escape place after :=
  List.flatMap_append

theorem escape_of_isBlank {place : Place} {text : List Char} (h : ∀ c ∈ text, isBlank c = true) :
    escape place text = text := by
  induction text with
  | nil => rfl
  | cons c text ih =>
    have hc : ¬isSpecial place c = true := by
      rw [not_isSpecial_of_isBlank (h c List.mem_cons_self)]
      exact Bool.false_ne_true
    rw [escape, List.flatMap_cons, if_neg hc]
    exact congrArg (c :: ·) (ih fun d hd => h d (List.mem_cons_of_mem _ hd))

/-- Away from the ends of a value its text is escaped as it is. -/
theorem valueText_inner (text : List Char) : valueText false false text = escape .value text := by
  rw [valueText]
  split
  · next h => exact (escape_of_isBlank (isBlank_of_trim (List.isEmpty_iff.mp h))).symm
  · next h =>
    have hparts := trim_parts (fun he => h (List.isEmpty_iff.mpr he))
    have hfirst : escape .value (text.takeWhile isBlank) = text.takeWhile isBlank :=
      escape_of_isBlank fun c => List.mem_takeWhile_imp
    have hlast : escape .value (takeEndWhile isBlank text) = takeEndWhile isBlank text :=
      escape_of_isBlank fun c hc => List.mem_takeWhile_imp (List.mem_reverse.mp hc)
    conv_rhs => rw [← hparts, escape_append, escape_append, hfirst, hlast]
    rfl

section Text

variable {table : OperatorTable} {blocks : Blocks} {text rest : List Char}

/-- Text of special characters alone is read in every block. -/
theorem reads_specials {place : Place} (h : ∀ c ∈ text, isSpecial place c = true) :
    Reads table blocks (escape place text ++ rest) (blocks.pushChars text) rest := by
  have hspecial : isSpecial place '\n' = false := by cases place <;> decide
  have hr : Reads table blocks (spell (marks place text) ++ rest)
      (blocks.pushChars (chars (marks place text))) rest := by
    refine reads_spell (marked_chunks _) ?_ ?_ (fun _ _ _ _ => trivial) rfl
    · rintro c hc rfl
      rw [(mem_marks hc).2] at hspecial
      cases hspecial
    · intro c hc
      obtain ⟨hm, hn⟩ := mem_marks hc
      rw [h c hm] at hn
      cases hn
  rwa [spell_marks, chars_marks] at hr

theorem reads_quotedText (hb : blocks.innermost = .quoted) (h : Starts isQuotedSpecial rest) :
    Reads table blocks (escape .quoted text ++ rest) (blocks.pushChars text) rest := by
  have hr : Reads table blocks (spell (marks .quoted text) ++ rest)
      (blocks.pushChars (chars (marks .quoted text))) rest := by
    refine reads_spell quoted_chunks ?_ ?_ (fun _ _ _ _ => h) hb
    · rintro c hc rfl
      exact absurd (mem_marks hc).2 (by decide)
    · intro c hc
      have hn : "\\\"$".toList.contains c = false := (mem_marks hc).2
      simp only [isQuotedSpecial]
      simpa [and_comm, and_assoc, and_left_comm] using hn
  rwa [spell_marks, chars_marks] at hr

theorem reads_expressionText (hb : blocks.innermost = .expression) (hn : '\n' ∉ text)
    (h : Starts (!isArgumentChar ·) rest) :
    Reads table blocks (escape .expression text ++ rest) (blocks.pushChars text) rest := by
  have hr : Reads table blocks (spell (marks .expression text) ++ rest)
      (blocks.pushChars (chars (marks .expression text))) rest := by
    refine reads_spell expression_chunks ?_ ?_ (fun _ _ _ _ => h) hb
    · rintro c hc rfl
      exact hn (mem_marks hc).1
    · intro c hc
      refine ⟨(mem_marks hc).2, ?_⟩
      rintro rfl
      exact hn (mem_marks hc).1
  rwa [spell_marks, chars_marks] at hr

theorem isValueSpecial_of_isBlank {c : Char} (h : isBlank c = true) :
    isValueSpecial c = false ∧ c ≠ '#' := by
  rcases eq_of_isBlank h with rfl | rfl <;> decide

/-- What is not marked in a value without line breaks may be in a run. -/
theorem raw_of_mem_valueMarks {first last : Bool} {c : Char}
    (hn : ∀ c ∈ text, isLineBreak c = false) (h : (false, c) ∈ valueMarks first last text) :
    isValueSpecial c = false ∧ c ≠ '#' := by
  rcases mem_valueMarks h with hblank | hs
  · exact isValueSpecial_of_isBlank hblank
  · have hl := hn c (mem_of_mem_valueMarks h)
    have hs : "\\\"$#".toList.contains c = false := hs
    simp only [isValueSpecial, hl, Bool.false_or]
    simp at hs
    simp [hs]

theorem not_lineFeed_of_mem_valueMarks {first last escaped : Bool} {c : Char}
    (hn : ∀ c ∈ text, isLineBreak c = false) (h : (escaped, c) ∈ valueMarks first last text) :
    c ≠ '\n' := by
  rintro rfl
  exact absurd (hn _ (mem_of_mem_valueMarks h)) (by decide)

theorem reads_valueText {first last : Bool} (hb : blocks.innermost = .assignment)
    (hn : ∀ c ∈ text, isLineBreak c = false)
    (h : ∀ c, (valueMarks first last text).getLast? = some (false, c) →
      Starts isValueSpecial rest ∧ (last = false → rest ≠ [] ∧ Starts (!isLineBreak ·) rest)) :
    Reads table blocks (valueText first last text ++ rest) (blocks.pushChars text) rest := by
  have hr : Reads table blocks (spell (valueMarks first last text) ++ rest)
      (blocks.pushChars (chars (valueMarks first last text))) rest := by
    refine reads_spell value_chunks (fun c hc => not_lineFeed_of_mem_valueMarks hn hc)
      (fun c hc => raw_of_mem_valueMarks hn hc) ?_ hb
    intro front run he hne
    obtain ⟨c, hc⟩ : ∃ c, run.getLast? = some c := by
      rw [List.getLast?_eq_some_getLast hne]
      exact ⟨_, rfl⟩
    have hmark : markAll false run ≠ [] := by simpa [markAll] using hne
    have hlast : (valueMarks first last text).getLast? = some (false, c) := by
      rw [he, List.getLast?_append_of_ne_nil _ hmark, markAll, List.getLast?_map, hc]
      rfl
    obtain ⟨hs, hl⟩ := h c hlast
    refine ⟨hs, fun d hd hblank => hl ?_⟩
    rw [hc] at hd
    cases hd
    by_contra ht
    rw [eq_true_of_ne_false ht] at hlast
    rw [not_isBlank_of_last hlast] at hblank
    cases hblank
  rwa [spell_valueMarks, chars_valueMarks] at hr

end Text

end LayeredEnv.Render
