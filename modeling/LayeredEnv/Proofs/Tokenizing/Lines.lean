import LayeredEnv.Proofs.Tokenizing.Steps

namespace LayeredEnv

def Error.shift (lines : Nat) : Error → Error
  | .unrecognizedToken line column excerpt => .unrecognizedToken (line + lines) column excerpt
  | e => e

theorem Text.takeWhile_append_starts {p : Char → Bool} {tail : List Char} (h : Starts (!p ·) tail)
    (cs : List Char) : (cs ++ tail).takeWhile p = cs.takeWhile p := by
  induction cs with
  | nil => exact takeWhile_of_starts h
  | cons c cs ih => rw [List.cons_append, List.takeWhile_cons, List.takeWhile_cons, ih]

namespace Lexeme

open Text

variable {p : Char → Bool} {cs rest tail : List Char} {block : Kind} {lexeme : Lexeme}

/-- A rule that reads no further than to a line feed, and the same whatever stands behind it. -/
def InLine (rule : Scanner) : Prop :=
  ∀ cs tail, rule (cs ++ '\n' :: tail) =
    (rule cs).map fun (lexeme, rest) => (lexeme, rest ++ '\n' :: tail)

theorem starts_lineFeed (tail : List Char) : Starts isLineBreak ('\n' :: tail) :=
  starts_cons.mpr rfl

/-- A rule that applies only in front of one character. -/
theorem inLine_of_first {rule : Scanner} {first : Char} (hf : first ≠ '\n')
    (hne : ∀ {cs}, Starts (· != first) cs → rule cs = none)
    (h : ∀ cs tail, rule (first :: (cs ++ '\n' :: tail)) =
      (rule (first :: cs)).map fun (lexeme, rest) => (lexeme, rest ++ '\n' :: tail)) :
    InLine rule := by
  intro cs tail
  rcases cs with _ | ⟨c, cs⟩
  · rw [hne Starts.nil, List.nil_append, hne (starts_cons.mpr (bne_iff_ne.mpr hf.symm))]
    rfl
  · by_cases hc : c = first
    · rw [hc]
      exact h cs tail
    · rw [List.cons_append, hne (starts_cons.mpr (bne_iff_ne.mpr hc)),
        hne (starts_cons.mpr (bne_iff_ne.mpr hc))]
      rfl

theorem includeFlag_inLine : InLine includeFlag :=
  fun cs tail => includeFlag_lineEnd (starts_lineFeed tail) cs

theorem preserveFlag_inLine : InLine preserveFlag :=
  fun cs tail => preserveFlag_lineEnd (starts_lineFeed tail) cs

theorem escaped_inLine : InLine escaped := by
  refine inLine_of_first (by decide) escaped_of_ne fun cs tail => ?_
  rcases cs with _ | ⟨c, cs⟩
  · rfl
  · by_cases hc : c = '\n' <;> simp [escaped, hc]

theorem not_isNameChar_of_isLineBreak : ∀ c, isLineBreak c = true → isNameChar c = false :=
  not_of_isLineBreak (by decide) (by decide)

theorem not_isBlank_of_isLineBreak : ∀ c, isLineBreak c = true → isBlank c = false :=
  not_of_isLineBreak rfl rfl

theorem not_isSpace_of_isLineBreak : ∀ c, isLineBreak c = true → isSpace c = false :=
  not_of_isLineBreak rfl rfl

theorem assignment_inLine : InLine assignment := by
  intro cs tail
  have hl := starts_lineFeed tail
  simp only [assignment, takeRun_lineEnd not_isNameChar_of_isLineBreak hl, Option.bind_eq_bind]
  rcases takeRun isNameChar cs with _ | ⟨name, _ | ⟨c, rest⟩⟩
  · rfl
  · rfl
  · by_cases hc : c = '='
    · subst hc
      simp [dropWhile_lineEnd not_isBlank_of_isLineBreak hl]
    · simp [hc]

theorem trailingBlanks_inLine : InLine trailingBlanks := by
  intro cs tail
  simp only [trailingBlanks, takeRun_lineEnd not_isBlank_of_isLineBreak (starts_lineFeed tail),
    Option.bind_eq_bind]
  rcases takeRun isBlank cs with _ | ⟨_, _ | ⟨c, rest⟩⟩
  · rfl
  · rfl
  · by_cases hc : isLineBreak c = true <;> simp [hc]

theorem lengthMark_lineFeed (cs tail : List Char) : lengthMark (cs ++ '\n' :: tail) =
    ((lengthMark cs).1, (lengthMark cs).2 ++ '\n' :: tail) := by
  rcases cs with _ | ⟨c, cs⟩
  · rfl
  · by_cases hc : c = '#'
    · subst hc
      simp [lengthMark, dropWhile_lineEnd not_isSpace_of_isLineBreak (starts_lineFeed tail)]
    · simp [lengthMark, hc]

theorem interpolation_inLine : InLine interpolation := by
  refine inLine_of_first (by decide) interpolation_of_ne fun cs tail => ?_
  have hl := starts_lineFeed tail
  rcases cs with _ | ⟨c, cs⟩
  · rfl
  by_cases hc : c = '\x7b'
  · subst hc
    simp only [List.cons_append, interpolation, dropWhile_lineEnd not_isSpace_of_isLineBreak hl,
      lengthMark_lineFeed, takeRun_lineEnd not_isNameChar_of_isLineBreak hl]
    rcases takeRun isNameChar (lengthMark (cs.dropWhile isSpace)).2 with _ | ⟨name, rest⟩
    · rfl
    · simp [dropWhile_lineEnd not_isSpace_of_isLineBreak hl]
  · simp [interpolation, hc]

theorem interpolationEnd_inLine : InLine interpolationEnd :=
  inLine_of_first (by decide) interpolationEnd_of_ne fun _ _ => rfl

theorem operatorRun_inLine : InLine operatorRun := by
  intro cs tail
  rcases cs with _ | ⟨c, cs⟩
  · rfl
  have hview : (cs ++ '\n' :: tail).head?.filter isOperatorChar =
      cs.head?.filter isOperatorChar := by
    cases cs <;> rfl
  rw [List.cons_append, operatorRun, operatorRun, hview]
  split <;> rfl

theorem reference_inLine : InLine reference := by
  refine inLine_of_first (by decide) reference_of_ne fun cs tail => ?_
  simp only [reference, takeRun_lineEnd not_isNameChar_of_isLineBreak (starts_lineFeed tail),
    Option.bind_eq_bind]
  cases takeRun isNameChar cs <;> rfl

theorem quoteStart_inLine : InLine quoteStart :=
  inLine_of_first (by decide) quoteStart_of_ne fun _ _ => rfl

theorem quoteEnd_inLine : InLine quoteEnd :=
  inLine_of_first (by decide) quoteEnd_of_ne fun _ _ => rfl

theorem comment_inLine : InLine comment := by
  refine inLine_of_first (by decide) comment_of_ne fun cs tail => ?_
  have hl := starts_lineFeed tail
  have hp : ∀ c, isLineBreak c = true → (!isLineBreak c) = false := fun c hc => by rw [hc]; rfl
  have hs : Starts (fun c => !(!isLineBreak c)) ('\n' :: tail) := starts_cons.mpr rfl
  have hspace : isLineBreak ' ' = false := rfl
  simp only [comment, dropOptional_lineEnd hspace hl, takeWhile_append_starts hs,
    dropWhile_lineEnd hp hl, Option.map_some]

theorem valueRun_inLine : InLine valueRun := by
  intro cs tail
  have hs : Starts (fun c => !(!isValueSpecial c)) ('\n' :: tail) := starts_cons.mpr rfl
  have hle : (dropEndWhile isWhitespace (cs.takeWhile (!isValueSpecial ·))).length ≤ cs.length :=
    ((List.rdropWhile_prefix isWhitespace _).trans (List.takeWhile_prefix _)).length_le
  simp only [valueRun, takeWhile_append_starts hs]
  split
  · rfl
  · rw [List.drop_append_of_le_length hle]
    rfl

theorem blankRun_inLine : InLine blankRun := by
  intro cs tail
  simp only [blankRun, takeRun_lineEnd not_isBlank_of_isLineBreak (starts_lineFeed tail),
    Option.bind_eq_bind]
  cases takeRun isBlank cs <;> rfl

theorem argumentRun_inLine : InLine argumentRun := by
  intro cs tail
  have hp : ∀ c, isLineBreak c = true → isArgumentChar c = false :=
    not_of_isLineBreak (by decide) (by decide)
  simp only [argumentRun, takeRun_lineEnd hp (starts_lineFeed tail), Option.bind_eq_bind]
  cases takeRun isArgumentChar cs <;> rfl

theorem anyChar_inLine : InLine anyChar := by
  intro cs tail
  rcases cs with _ | ⟨c, cs⟩
  · rfl
  · rw [List.cons_append, anyChar, anyChar]
    split <;> rfl

theorem InLine.findSome? {rules : List Scanner} (h : ∀ rule ∈ rules, InLine rule) :
    InLine fun cs => rules.findSome? (· cs) := by
  intro cs tail
  induction rules with
  | nil => rfl
  | cons rule rules ih =>
    obtain ⟨hrule, hrules⟩ := List.forall_mem_cons.mp h
    simp only [List.findSome?_cons, hrule cs tail]
    cases rule cs with
    | none => exact ih hrules
    | some found => rfl

/-- Only the last rule of a block can look behind the line feed. -/
theorem inLine_of_mem_dropLast (hb : IsBlock block) :
    ∀ rule ∈ (rules block).dropLast, InLine rule := by
  rcases hb with rfl | rfl | rfl | rfl | rfl <;>
    simp only [rules, List.dropLast_cons_cons, List.dropLast_singleton, List.forall_mem_cons]
  · exact ⟨includeFlag_inLine, preserveFlag_inLine, escaped_inLine, assignment_inLine,
      comment_inLine, by simp⟩
  · exact ⟨escaped_inLine, trailingBlanks_inLine, interpolation_inLine, reference_inLine,
      quoteStart_inLine, comment_inLine, valueRun_inLine, blankRun_inLine, by simp⟩
  · exact ⟨escaped_inLine, interpolationEnd_inLine, operatorRun_inLine, by simp⟩
  · exact ⟨escaped_inLine, interpolation_inLine, interpolationEnd_inLine, operatorRun_inLine,
      reference_inLine, quoteStart_inLine, argumentRun_inLine, by simp⟩
  · exact ⟨escaped_inLine, interpolation_inLine, reference_inLine, quoteEnd_inLine, by simp⟩

theorem scan_of_last (last : Scanner) (hb : IsBlock block)
    (hl : (rules block).getLast? = some last) (h : scan block cs = some (lexeme, rest))
    (tail : List Char) :
    scan block (cs ++ '\n' :: tail) = some (lexeme, rest ++ '\n' :: tail) ∨
      (last cs = some (lexeme, rest) ∧
        scan block (cs ++ '\n' :: tail) = last (cs ++ '\n' :: tail)) := by
  have hrules : (rules block).dropLast ++ [last] = rules block :=
    List.dropLast_append_getLast? last hl
  have hs : ∀ cs, scan block cs = ((rules block).dropLast.findSome? (· cs)).or (last cs) :=
    fun cs => by rw [scan, ← hrules, List.findSome?_append, List.findSome?_singleton, hrules]
  have hline := InLine.findSome? (inLine_of_mem_dropLast hb) cs tail
  rw [hs] at h
  simp only [hs, hline]
  cases hf : (rules block).dropLast.findSome? (· cs) with
  | some found =>
    rw [hf] at h
    cases h
    exact Or.inl rfl
  | none =>
    rw [hf] at h
    exact Or.inr ⟨h, rfl⟩

/-- A run that ends before the text does. -/
theorem takeRun_append_of_ne {run : List Char} (h : takeRun p cs = some (run, rest))
    (hne : rest ≠ []) (tail : List Char) : takeRun p (cs ++ tail) = some (run, rest ++ tail) := by
  obtain ⟨rfl, hrun, hp, hs⟩ := takeRun_eq_some_iff.mp h
  obtain ⟨c, rest, rfl⟩ := List.exists_cons_of_ne_nil hne
  have hs : Starts (!p ·) (c :: rest ++ tail) := starts_cons.mpr (starts_cons.mp hs)
  exact takeRun_eq_some_iff.mpr ⟨List.append_assoc .., hrun, hp, hs⟩

theorem whitespace_append (h : whitespace cs = some (lexeme, rest)) (tail : List Char) :
    lexeme = .nothing ∧ (rest ≠ [] → whitespace (cs ++ tail) = some (.nothing, rest ++ tail)) ∧
      (rest = [] → whitespace (cs ++ tail) = some (.nothing, tail.dropWhile isWhitespace)) := by
  simp only [whitespace, Option.bind_eq_bind, Option.bind_eq_some_iff, Option.pure_def,
    Option.some.injEq, Prod.mk.injEq, Prod.exists] at h
  obtain ⟨run, _, ht, rfl, rfl⟩ := h
  refine ⟨rfl, fun hne => ?_, fun he => ?_⟩
  · simp [whitespace, takeRun_append_of_ne ht hne]
  · -- the run goes on behind the end
    obtain ⟨rfl, hrun, hp, -⟩ := takeRun_eq_some_iff.mp ht
    subst he
    have hsplit : run ++ [] ++ tail = (run ++ tail.takeWhile isWhitespace) ++
        tail.dropWhile isWhitespace := by
      rw [List.append_nil, List.append_assoc, List.takeWhile_append_dropWhile]
    have hall : ∀ c ∈ run ++ tail.takeWhile isWhitespace, isWhitespace c = true := fun c hc =>
      (List.mem_append.mp hc).elim (hp c) List.mem_takeWhile_imp
    have htake := takeRun_append (fun hn => hrun (List.append_eq_nil_iff.mp hn).1) hall
      (starts_dropWhile isWhitespace tail)
    rw [hsplit]
    simp only [whitespace, htake, Option.bind_eq_bind, Option.bind_some, Option.pure_def]

theorem quotedRun_append (h : quotedRun cs = some (lexeme, rest)) (tail : List Char) :
    (∃ chars, lexeme = .text chars) ∧
      (rest ≠ [] → quotedRun (cs ++ tail) = some (lexeme, rest ++ tail)) := by
  unfold quotedRun at h
  split at h
  · next run after ht =>
    cases h
    exact ⟨⟨run, rfl⟩, fun hne => by simp only [quotedRun, takeRun_append_of_ne ht hne]⟩
  · next ht =>
    split at h
    · next c cs =>
      cases h
      refine ⟨⟨[c], rfl⟩, fun _ => ?_⟩
      have hc : (!isQuotedSpecial c) = false := by
        by_contra hq
        simp [takeRun, eq_true_of_ne_false hq] at ht
      have hnone : takeRun (!isQuotedSpecial ·) (c :: (rest ++ tail)) = none :=
        takeRun_of_starts (starts_cons.mpr (by rw [hc]; rfl))
      simp only [List.cons_append, quotedRun, hnone]
    · cases h

/-- What a lexeme of a text is if a line feed and more text follow: the same, unless the text ends
inside white space or quotes. -/
theorem scan_append_line (hb : IsBlock block) (h : scan block cs = some (lexeme, rest))
    (tail : List Char) :
    scan block (cs ++ '\n' :: tail) = some (lexeme, rest ++ '\n' :: tail) ∨
      (rest = [] ∧ lexeme = .nothing ∧ block = .main ∧
        scan block (cs ++ '\n' :: tail) = some (.nothing, tail.dropWhile isWhitespace)) ∨
      (rest = [] ∧ (lexeme = .nothing ∧ block = .interpolation ∨
        (∃ chars, lexeme = .text chars) ∧ block = .quoted)) := by
  have hb' := hb
  rcases hb' with rfl | rfl | rfl | rfl | rfl
  · rcases scan_of_last whitespace hb rfl h tail with hscan | ⟨hlast, hscan⟩
    · exact Or.inl hscan
    · obtain ⟨rfl, hne, he⟩ := whitespace_append hlast ('\n' :: tail)
      by_cases hr : rest = []
      · exact Or.inr (Or.inl ⟨hr, rfl, rfl, hscan.trans (he hr)⟩)
      · exact Or.inl (hscan.trans (hne hr))
  · rcases scan_of_last anyChar hb rfl h tail with hscan | ⟨hlast, hscan⟩
    · exact Or.inl hscan
    · exact Or.inl (by rw [hscan, anyChar_inLine, hlast]; rfl)
  · rcases scan_of_last whitespace hb rfl h tail with hscan | ⟨hlast, hscan⟩
    · exact Or.inl hscan
    · obtain ⟨rfl, hne, -⟩ := whitespace_append hlast ('\n' :: tail)
      by_cases hr : rest = []
      · exact Or.inr (Or.inr ⟨hr, Or.inl ⟨rfl, rfl⟩⟩)
      · exact Or.inl (hscan.trans (hne hr))
  · rcases scan_of_last anyChar hb rfl h tail with hscan | ⟨hlast, hscan⟩
    · exact Or.inl hscan
    · exact Or.inl (by rw [hscan, anyChar_inLine, hlast]; rfl)
  · rcases scan_of_last quotedRun hb rfl h tail with hscan | ⟨hlast, hscan⟩
    · exact Or.inl hscan
    · obtain ⟨hchars, hne⟩ := quotedRun_append hlast ('\n' :: tail)
      by_cases hr : rest = []
      · exact Or.inr (Or.inr ⟨hr, Or.inr ⟨hchars, rfl⟩⟩)
      · exact Or.inl (hscan.trans (hne hr))

end Lexeme

namespace Blocks

open Lexeme Text

variable {table : OperatorTable} {blocks next : Blocks} {cs rest tail : List Char} {frame : Frame}

/-- Only the top level is open, or it and one assignment. -/
def AtTop (blocks : Blocks) : Prop :=
  blocks.frames = [] ∨ ∃ frame, blocks.frames = [frame] ∧ frame.kind = .assignment

theorem AtTop.innermost (h : blocks.AtTop) :
    blocks.innermost = .main ∨ blocks.innermost = .assignment := by
  obtain ⟨frames, top⟩ := blocks
  obtain rfl | ⟨frame, rfl, hk⟩ := h
  · exact Or.inl rfl
  · exact Or.inr hk

theorem AtTop.frames_close (h : blocks.AtTop) : blocks.close.frames = [] := by
  obtain ⟨frames, top⟩ := blocks
  obtain rfl | ⟨frame, rfl, -⟩ := h <;> rfl

theorem AtTop.close_of_main (h : blocks.AtTop) (hm : blocks.innermost = .main) :
    blocks.close = blocks := by
  obtain ⟨frames, top⟩ := blocks
  obtain rfl | ⟨frame, rfl, hk⟩ := h
  · rfl
  · have hm : frame.kind = .main := hm
    rw [hk] at hm
    cases hm

theorem closeNearest_of_frames {kind : Kind} (h : blocks.frames = []) :
    blocks.closeNearest kind = blocks := by
  have hd : blocks.depth = 0 := List.length_eq_zero_iff.mpr h
  rw [closeNearest, dif_pos hd]

theorem AtTop.closeNearest (h : blocks.AtTop) : blocks.closeNearest .main = blocks.close := by
  have hclose := h.frames_close
  obtain ⟨frames, top⟩ := blocks
  obtain rfl | ⟨frame, rfl, hk⟩ := h
  · exact closeNearest_of_frames rfl
  · have hd : depth ⟨[frame], top⟩ ≠ 0 := Nat.succ_ne_zero 0
    have hm : ¬(Blocks.innermost ⟨[frame], top⟩ == .main) = true := by
      show ¬(frame.kind == .main) = true
      rw [hk]
      decide
    rw [Blocks.closeNearest, dif_neg hd, if_neg hm, closeNearest_of_frames hclose]

theorem step_of_scan {lexeme : Lexeme} (h : scan blocks.innermost cs = some (lexeme, rest)) :
    blocks.step table cs =
      some ((blocks.apply table lexeme).1, rest.drop (blocks.apply table lexeme).2) := by
  rw [step, h]
  rfl

/-- The second character of a symbol is in the text. -/
theorem more_le_length {lexeme : Lexeme} (hf : lexeme.Fits blocks.innermost cs rest) :
    (blocks.apply table lexeme).2 ≤ rest.length := by
  cases lexeme with
  | operators first second =>
    obtain ⟨-, -, hsecond, -⟩ := hf
    simp only [Blocks.apply, operate]
    split
    · next symbol hp =>
      obtain rfl | ⟨c, hc, rfl⟩ := OperatorTable.pick_cases hp
      · exact Nat.zero_le _
      · cases rest with
        | nil =>
          rw [hsecond] at hc
          cases hc
        | cons d rest => exact Nat.succ_le_succ (Nat.zero_le _)
    · exact Nat.zero_le _
  | _ => exact Nat.zero_le _

/-- What a step in a text does if a line feed and more text follow: the same, unless the text ends
inside white space or quotes. -/
theorem step_append_line (h : blocks.Nested) (hs : blocks.step table cs = some (next, rest))
    (tail : List Char) :
    blocks.step table (cs ++ '\n' :: tail) = some (next, rest ++ '\n' :: tail) ∨
      (rest = [] ∧ next = blocks ∧ blocks.innermost = .main ∧
        blocks.step table (cs ++ '\n' :: tail) = some (blocks, tail.dropWhile isWhitespace)) ∨
      (rest = [] ∧ (next.innermost = .interpolation ∨ next.innermost = .quoted)) := by
  obtain ⟨⟨lexeme, after⟩, hscan, -⟩ := Option.map_eq_some_iff.mp hs
  have hmore : (blocks.apply table lexeme).2 ≤ after.length :=
    more_le_length (fits_of_scan h.isBlock hscan)
  rw [step_of_scan hscan] at hs
  obtain ⟨rfl, rfl⟩ := Prod.mk.inj (Option.some.inj hs)
  rcases scan_append_line h.isBlock hscan tail with hline | ⟨rfl, rfl, hm, hline⟩ | ⟨rfl, hlast⟩
  · refine Or.inl ?_
    rw [step_of_scan hline, List.drop_append_of_le_length hmore]
  · refine Or.inr (Or.inl ⟨rfl, rfl, hm, ?_⟩)
    rw [step_of_scan hline]
    rfl
  · refine Or.inr (Or.inr ⟨List.drop_nil, ?_⟩)
    obtain ⟨rfl, hi⟩ | ⟨⟨chars, rfl⟩, hi⟩ := hlast
    · exact Or.inl hi
    · exact Or.inr ((innermost_pushText ..).trans hi)

end Blocks

namespace Tokenize

open Text Lexeme

variable {table : OperatorTable} {blocks last : Blocks} {cs tail : List Char} {start state : State}

theorem next_eq_step (h : blocks.innermost ≠ .assignment) :
    next table (blocks, cs) = blocks.step table cs := by
  rw [next, if_neg fun he => h he.1]

theorem next_nil : next table (blocks, []) = none := by
  cases hn : next table (blocks, []) with
  | none => rfl
  | some state =>
    rw [next, if_neg fun he => Bool.noConfusion he.2] at hn
    exact absurd (Blocks.step_bounds hn).1 (Nat.not_lt_zero _)

theorem Reaches.eq_of_nil (h : Reaches table (blocks, []) state) : state = (blocks, []) := by
  obtain ⟨_ | steps, ha⟩ := h
  · exact (Option.some.inj ha).symm
  · rw [after, next_nil] at ha
    cases ha

/-- White space at the start of a text is skipped at once. -/
theorem reaches_dropWhile (hm : blocks.innermost = .main) (cs : List Char) :
    Reaches table (blocks, cs) (blocks, cs.dropWhile isWhitespace) := by
  cases cs with
  | nil => exact .refl ..
  | cons c cs =>
    by_cases hc : isWhitespace c = true
    · rw [List.dropWhile_cons, if_pos hc]
      refine .head ?_ (.refl ..)
      rw [next_eq_step (by rw [hm]; decide), step_whitespace hm hc]
    · rw [List.dropWhile_cons, if_neg hc]
      exact .refl ..

/-- At the end of a line an open assignment is closed, and the white space is skipped up to the next
text. -/
theorem reaches_lineFeed (h : last.AtTop) (tail : List Char) :
    Reaches table (last, '\n' :: tail) (last.close, tail.dropWhile isWhitespace) := by
  have hm : last.close.innermost = .main := by rw [Blocks.innermost, h.frames_close]
  have hskip : Reaches table (last.close, '\n' :: tail) (last.close, tail.dropWhile isWhitespace) :=
    reaches_dropWhile hm ('\n' :: tail)
  rcases h.innermost with hi | hi
  · rwa [h.close_of_main hi] at hskip ⊢
  · have hend : AtLineEnd (last, '\n' :: tail) := ⟨hi, rfl⟩
    exact .head (by rw [next, if_pos hend]) hskip

/-- The steps in a text are taken also if a line feed and more text follow; and then the white space
behind the line feed is skipped. -/
theorem reaches_append_line (hs : start.1.Nested) (hr : Reaches table start (last, []))
    (h : last.AtTop) (tail : List Char) :
    Reaches table (start.1, start.2 ++ '\n' :: tail) (last.close, tail.dropWhile isWhitespace) := by
  induction hr using Reaches.head_induction with
  | last => exact reaches_lineFeed h tail
  | @head start middle hn hr ih =>
    obtain ⟨blocks, cs⟩ := start
    obtain ⟨middle, rest⟩ := middle
    have ih := ih (nested_next hs hn)
    cases cs with
    | nil =>
      rw [next_nil] at hn
      cases hn
    | cons c cs =>
      by_cases he : AtLineEnd (blocks, c :: cs)
      · rw [next, if_pos he] at hn
        cases hn
        have he' : AtLineEnd (blocks, c :: cs ++ '\n' :: tail) := he
        exact .head (by rw [next, if_pos he']) ih
      · have he' : ¬AtLineEnd (blocks, c :: cs ++ '\n' :: tail) := he
        rw [next, if_neg he] at hn
        have hnext : next table (blocks, c :: cs ++ '\n' :: tail) =
            blocks.step table (c :: cs ++ '\n' :: tail) := by rw [next, if_neg he']
        rcases Blocks.step_append_line hs hn tail with hstep | ⟨rfl, rfl, hm, hstep⟩ | ⟨rfl, hi⟩
        · exact .head (hnext.trans hstep) ih
        · -- the white space that ends the text goes on behind it
          obtain rfl := (Prod.mk.inj hr.eq_of_nil).1
          rw [h.close_of_main hm]
          exact .head (hnext.trans hstep) (.refl ..)
        · obtain rfl := (Prod.mk.inj hr.eq_of_nil).1
          rcases h.innermost with hl | hl <;> rw [hl] at hi <;> rcases hi with hi | hi <;> cases hi

end Tokenize
namespace Token

/-- A token behind others, which are given last first. Literal text is joined to literal text. -/
def join : Token → List Token → List Token
  | .node .text value _ _, .node .text before isLength children :: earlier =>
    .node .text (before ++ value) isLength children :: earlier
  | t, earlier => t :: earlier

def behind (earlier : List Token) : List Token → List Token
  | [] => earlier
  | [t] => t.join earlier
  | t :: u :: ts => t :: behind earlier (u :: ts)

variable {earlier ts : List Token} {t : Token}

theorem join_of_apart (h : ∀ u ∈ earlier.head?, ¬(u.kind = .text ∧ t.kind = .text)) :
    t.join earlier = t :: earlier := by
  unfold join
  split
  · exact absurd ⟨rfl, rfl⟩ (h _ rfl)
  · rfl

/-- More literal text is joined to all that is joined already. -/
theorem join_text_join (text value : String) (isLength : Bool) (children earlier : List Token) :
    (leaf .text text).join ((node .text value isLength children).join earlier) =
      (node .text (value ++ text) isLength children).join earlier := by
  obtain hh | ⟨before, _, _, earlier, rfl⟩ := text_cases earlier
  · have hj : ∀ t : Token, t.join earlier = t :: earlier := fun t =>
      join_of_apart fun u hu hc => hh u hu hc.1
    rw [hj, hj]
    rfl
  · show node .text (before ++ value ++ text) _ _ :: earlier = _
    rw [String.append_assoc]
    rfl

theorem behind_cons (ht : t.kind ≠ .text) (earlier ts : List Token) :
    behind earlier (t :: ts) = t :: behind earlier ts := by
  cases ts with
  | nil => exact join_of_apart fun u _ hc => ht hc.2
  | cons u ts => rfl

theorem behind_join_text (text : String) (earlier ts : List Token) :
    behind earlier ((leaf .text text).join ts) = (leaf .text text).join (behind earlier ts) := by
  obtain hh | ⟨value, isLength, children, ts, rfl⟩ := text_cases ts
  · rw [join_of_apart fun u hu hc => hh u hu hc.1]
    cases ts with
    | nil => rfl
    | cons t ts =>
      have ht : t.kind ≠ .text := hh t rfl
      show leaf .text text :: behind earlier (t :: ts) = _
      rw [behind_cons ht, join_of_apart fun u hu hc => ?_]
      cases hu
      exact ht hc.1
  · cases ts with
    | nil => exact (join_text_join ..).symm
    | cons u ts => rfl

/-- Where no literal text meets, the tokens just follow. -/
theorem behind_of_apart
    (h : ∀ t ∈ ts.getLast?, ∀ u ∈ earlier.head?, ¬(u.kind = .text ∧ t.kind = .text)) :
    behind earlier ts = ts ++ earlier := by
  induction ts with
  | nil => rfl
  | cons t ts ih =>
    cases ts with
    | nil => exact join_of_apart (h t rfl)
    | cons u ts =>
      rw [behind, ih fun v hv => h v (by rwa [List.getLast?_cons_cons])]
      rfl

end Token

namespace Blocks

variable {blocks : Blocks} {frame : Frame} {kind : Kind} {t : Token} {lexeme : Lexeme}
  {cs rest : List Char}

/-- The open blocks, with the finished top-level tokens behind earlier ones. -/
def onto (earlier : List Token) (blocks : Blocks) : Blocks :=
  { blocks with top := Token.behind earlier blocks.top }

variable (table : OperatorTable) (earlier : List Token)

@[simp] theorem innermost_onto : (blocks.onto earlier).innermost = blocks.innermost := rfl

@[simp] theorem depth_onto : (blocks.onto earlier).depth = blocks.depth := rfl

theorem pushText_eq_join (blocks : Blocks) (text : String) :
    blocks.pushText text = blocks.setCurrent ((Token.leaf .text text).join blocks.current) := by
  obtain h | ⟨value, isLength, children, ts, hc⟩ := Token.text_cases blocks.current
  · rw [pushText_of_ne h, Token.join_of_apart fun u hu hc => h u hu hc.1]
    rfl
  · rw [pushText_of_text hc, hc]
    rfl

theorem onto_pushText (text : String) :
    (blocks.onto earlier).pushText text = (blocks.pushText text).onto earlier := by
  rw [pushText_eq_join, pushText_eq_join]
  obtain ⟨_ | ⟨frame, frames⟩, top⟩ := blocks
  · exact congrArg (Blocks.mk []) (Token.behind_join_text text earlier top).symm
  · rfl

theorem onto_push (ht : t.kind ≠ .text) :
    (blocks.onto earlier).push t = (blocks.push t).onto earlier := by
  obtain ⟨_ | ⟨frame, frames⟩, top⟩ := blocks
  · exact congrArg (Blocks.mk []) (Token.behind_cons ht earlier top).symm
  · rfl

theorem onto_close (h : blocks.Nested) :
    (blocks.onto earlier).close = blocks.close.onto earlier := by
  obtain ⟨_ | ⟨frame, frames⟩, top⟩ := blocks
  · rfl
  · have hk : frame.kind ≠ .text := by
      rcases h.1 with hk | hk | hk | hk | hk <;> rw [hk] <;> decide
    have ht : frame.token.kind ≠ .text := hk
    have hpush : (onto earlier ⟨frames, top⟩).push frame.token =
        onto earlier (push ⟨frames, top⟩ frame.token) := onto_push earlier ht
    exact hpush

theorem onto_closeTo (h : blocks.Nested) (kind : Kind) :
    (blocks.onto earlier).closeTo kind = (blocks.closeTo kind).onto earlier := by
  fun_induction Blocks.closeTo kind blocks with
  | case1 blocks hd => rw [Blocks.closeTo, dif_pos (by rwa [depth_onto])]
  | case2 blocks hd hk =>
    rw [Blocks.closeTo, dif_neg (by rwa [depth_onto]), if_pos (by rwa [innermost_onto])]
  | case3 blocks hd hk ih =>
    rw [Blocks.closeTo, dif_neg (by rwa [depth_onto]), if_neg (by rwa [innermost_onto]),
      onto_close earlier h, ih h.close]

theorem onto_closeNearest (h : blocks.Nested) (kind : Kind) :
    (blocks.onto earlier).closeNearest kind = (blocks.closeNearest kind).onto earlier := by
  rw [closeNearest_eq, closeNearest_eq, onto_closeTo earlier h, onto_close earlier (h.closeTo kind)]

/-- Operators see the block that they are in, and not what is finished. -/
theorem onto_operate (h : blocks.Nested)
    (hb : blocks.innermost = .interpolation ∨ blocks.innermost = .expression) (first : Char)
    (second : Option Char) :
    (blocks.onto earlier).operate table first second =
      ((blocks.operate table first second).1.onto earlier,
        (blocks.operate table first second).2) := by
  have hsymbols : ((blocks.closeTo .interpolation).onto earlier).symbols =
      (blocks.closeTo .interpolation).symbols := by
    have hi := h.innermost_closeTo hb
    generalize blocks.closeTo .interpolation = reference at hi
    obtain ⟨_ | ⟨frame, frames⟩, top⟩ := reference
    · cases hi
    · rfl
  simp only [operate, onto_closeTo earlier h, hsymbols, onto_pushText]
  split <;> rfl

theorem onto_apply (h : blocks.Nested) (hf : lexeme.Fits blocks.innermost cs rest) :
    (blocks.onto earlier).apply table lexeme =
      ((blocks.apply table lexeme).1.onto earlier, (blocks.apply table lexeme).2) := by
  cases lexeme with
  | nothing => rfl
  | text chars => exact congrArg (·, 0) (onto_pushText earlier _)
  | leaf kind value =>
    have hk : kind ≠ .text := by
      rintro rfl
      exact absurd hf.2.2.1 (by decide)
    exact congrArg (·, 0) (onto_push earlier hk)
  | openAssignment name => rfl
  | openInterpolation isLength name => rfl
  | closeInterpolation => exact congrArg (·, 0) (onto_closeNearest earlier h .interpolation)
  | operators first second => exact onto_operate table earlier h hf.1 first second
  | openQuote => rfl
  | closeQuote => exact congrArg (·, 0) (onto_closeNearest earlier h .quoted)

theorem onto_step (h : blocks.Nested) (cs : List Char) :
    (blocks.onto earlier).step table cs =
      (blocks.step table cs).map fun (next, rest) => (next.onto earlier, rest) := by
  rw [step, step, innermost_onto]
  cases hs : Lexeme.scan blocks.innermost cs with
  | none => rfl
  | some found =>
    obtain ⟨lexeme, rest⟩ := found
    have ha := onto_apply table earlier h (Lexeme.fits_of_scan h.isBlock hs)
    simp only [Option.map_some, ha]

end Blocks

namespace Tokenize

open Text

variable {table : OperatorTable} {blocks : Blocks} {cs : List Char} {start last : State}

def State.onto (earlier : List Token) (state : State) : State := (state.1.onto earlier, state.2)

variable (earlier : List Token)

theorem next_onto (h : start.1.Nested) :
    next table (start.onto earlier) = (next table start).map (State.onto earlier) := by
  obtain ⟨blocks, cs⟩ := start
  have hiff : AtLineEnd (State.onto earlier (blocks, cs)) ↔ AtLineEnd (blocks, cs) := Iff.rfl
  by_cases he : AtLineEnd (blocks, cs)
  · rw [next, next, if_pos he, if_pos (hiff.mpr he), State.onto, Blocks.onto_close earlier h]
    rfl
  · rw [next, next, if_neg he, if_neg (mt hiff.mp he)]
    exact Blocks.onto_step table earlier h cs

/-- What is read does not depend on what was finished before. -/
theorem Reaches.onto (hr : Reaches table start last) (h : start.1.Nested) :
    Reaches table (start.onto earlier) (last.onto earlier) := by
  induction hr using Reaches.head_induction with
  | last => exact .refl ..
  | head hn _ ih =>
    refine .head ?_ (ih (nested_next h hn))
    rw [next_onto earlier h, hn]
    rfl

theorem Reaches.length_le (hr : Reaches table start last) : last.2.length ≤ start.2.length := by
  induction hr using Reaches.head_induction with
  | last => exact Nat.le_refl _
  | @head start middle hn _ ih =>
    refine ih.trans ?_
    unfold next at hn
    split at hn
    · cases hn
      exact Nat.le_refl _
    · exact (Blocks.step_bounds hn).1.le

variable {a b rest : List Char}

theorem consumed_append (h : rest.length ≤ b.length) :
    consumed (a ++ b) rest = a ++ consumed b rest := by
  have hlength : (a ++ b).length - rest.length = a.length + (b.length - rest.length) := by
    rw [List.length_append]
    omega
  rw [consumed, hlength, List.take_length_add_append, consumed]

theorem takeEndWhile_append (a b : List Char) :
    takeEndWhile (!isLineFeed ·) (a ++ '\n' :: b) = takeEndWhile (!isLineFeed ·) b := by
  have hs : Starts (fun c => !(!isLineFeed c)) ('\n' :: a.reverse) := starts_cons.mpr rfl
  rw [takeEndWhile, takeEndWhile, List.reverse_append, List.reverse_cons, List.append_assoc,
    List.singleton_append, takeWhile_append_starts hs]

/-- A text that follows a line is refused where it would be alone, but for the lines before it. -/
theorem unrecognized_append (h : rest.length ≤ b.length) :
    unrecognized (a ++ '\n' :: b) rest =
      (unrecognized b rest).shift (a.countP isLineFeed + 1) := by
  have hcount : (a ++ '\n' :: consumed b rest).countP isLineFeed + 1 =
      (consumed b rest).countP isLineFeed + 1 + (a.countP isLineFeed + 1) := by
    rw [List.countP_append, List.countP_cons_of_pos rfl]
    omega
  have hconsumed : consumed (a ++ '\n' :: b) rest = a ++ '\n' :: consumed b rest := by
    rw [List.append_cons, consumed_append h, ← List.append_cons]
  simp only [unrecognized, hconsumed, takeEndWhile_append, hcount, Error.shift]

theorem reaches_of_run {limit : Nat} {opened : Blocks} (hl : 2 ≤ limit) (h : blocks.Nested)
    (hr : run table limit a 0 blocks cs = .ok opened) :
    Reaches table (blocks, cs) (opened, []) := by
  obtain ⟨steps, ⟨reached, rest⟩, ha, hn, -⟩ := exists_last table h cs
  have hreach : Reaches table (blocks, cs) (reached, rest) := ⟨steps, ha⟩
  have ho : run table limit a 0 blocks cs = outcome a (reached, rest) :=
    run_of_last hl h hreach hn
  rw [hr] at ho
  unfold outcome at ho
  split at ho
  · next he =>
    cases ho
    obtain rfl : rest = [] := he
    exact hreach
  · cases ho

/-- Reading a text behind a line: the tokens come behind those of the line, or the refusal is so
many lines further down. -/
theorem run_append_line {limit : Nat} {opened : Blocks} (hl : 2 ≤ limit)
    (ha : run table limit a 0 {} a = .ok opened) (ht : opened.AtTop) (b : List Char) :
    run table limit (a ++ '\n' :: b) 0 {} (a ++ '\n' :: b) =
      match run table limit b 0 {} b with
      | .ok last => .ok (last.onto opened.close.top)
      | .error e => .error (e.shift (a.countP isLineFeed + 1)) := by
  have hempty : Blocks.Nested {} := trivial
  have hline : Reaches table ({}, a ++ '\n' :: b) (opened.close, b.dropWhile isWhitespace) :=
    reaches_append_line hempty (reaches_of_run hl hempty ha) ht b
  have hskip : Reaches table ({}, b) ({}, b.dropWhile isWhitespace) := reaches_dropWhile rfl b
  have honto : opened.close = Blocks.onto opened.close.top {} := by
    have hf := ht.frames_close
    generalize opened.close = closed at hf
    obtain ⟨frames, top⟩ := closed
    obtain rfl : frames = [] := hf
    rfl
  obtain ⟨steps, last, hafter, hn, -⟩ := exists_last table hempty (b.dropWhile isWhitespace)
  have hlast : Reaches table ({}, b.dropWhile isWhitespace) last := ⟨steps, hafter⟩
  have hle : last.2.length ≤ b.length := hlast.length_le.trans (length_dropWhile_le ..)
  have hlastOnto : Reaches table (opened.close, b.dropWhile isWhitespace)
      (last.onto opened.close.top) := by
    rw [honto]
    exact hlast.onto opened.close.top hempty
  have hnone : next table (last.onto opened.close.top) = none := by
    rw [next_onto _ (hlast.nested hempty), hn]
    rfl
  have hb : run table limit b 0 {} b = outcome b last :=
    (run_of_reaches hl hempty hskip).trans (run_of_last hl hempty hlast hn)
  have hab : run table limit (a ++ '\n' :: b) 0 {} (a ++ '\n' :: b) =
      outcome (a ++ '\n' :: b) (last.onto opened.close.top) :=
    (run_of_reaches hl hempty hline).trans
      (run_of_last hl (hline.nested hempty) hlastOnto hnone)
  rw [hab, hb, outcome, outcome]
  by_cases hrest : last.2 = []
  · rw [if_pos hrest, if_pos (show (last.onto opened.close.top).2 = [] from hrest)]
    rfl
  · rw [if_neg hrest, if_neg (show (last.onto opened.close.top).2 ≠ [] from hrest)]
    exact congrArg Except.error (unrecognized_append hle)

end Tokenize
theorem Blocks.finish_onto {blocks : Blocks} {earlier : List Token} (h : blocks.Nested)
    (hapart : ∀ t ∈ earlier.head?, ∀ u ∈ blocks.finish.head?, ¬(t.kind = .text ∧ u.kind = .text)) :
    (blocks.onto earlier).finish = earlier.reverse ++ blocks.finish := by
  rw [finish, List.head?_reverse] at hapart
  rw [finish, onto_closeNearest earlier h, onto, finish,
    Token.behind_of_apart fun u hu t ht => hapart t ht u hu, List.reverse_append]

theorem Blocks.finish_onto_singleton {blocks : Blocks} {t : Token} (h : blocks.Nested)
    (ht : t.kind ≠ .text) : (blocks.onto [t]).finish = t :: blocks.finish := by
  refine finish_onto h ?_
  rintro _ ⟨⟩ u - ⟨hk, -⟩
  exact ht hk

theorem tokenize_eq_run {limit : Nat} (hl : 2 ≤ limit) (text : String) :
    tokenize text limit = (Tokenize.run .standard limit text.toList 0 {} text.toList).map
      fun blocks => .ofTokens blocks.finish := by
  rw [tokenize, Tokenize.tokens, Nat.max_eq_left (by omega)]
  cases Tokenize.run .standard limit text.toList 0 {} text.toList <;> rfl

/-- Tokenizing goes line by line. Behind a text that was accepted with no more open than one
assignment, a text is accepted if it is accepted alone; its tokens follow, and a refusal is the
same, so many lines further down. -/
theorem tokenize_append_line {limit : Nat} {a : String} {opened : Blocks} (hl : 2 ≤ limit)
    (ha : Tokenize.run .standard limit a.toList 0 {} a.toList = .ok opened) (ht : opened.AtTop) :
    ∃ ta, tokenize a limit = .ok ta ∧ ∀ b : String,
      ((∃ tree, tokenize (a ++ "\n" ++ b) limit = .ok tree) ↔ ∃ tb, tokenize b limit = .ok tb) ∧
      (∀ tb, tokenize b limit = .ok tb →
        (∀ t ∈ ta.topTokens.getLast?, ∀ u ∈ tb.topTokens.head?,
          ¬(t.kind = .text ∧ u.kind = .text)) →
        ∃ tree, tokenize (a ++ "\n" ++ b) limit = .ok tree ∧
          tree.topTokens = ta.topTokens ++ tb.topTokens) ∧
      ∀ line column excerpt, tokenize b limit = .error (.unrecognizedToken line column excerpt) →
        tokenize (a ++ "\n" ++ b) limit = .error (.unrecognizedToken
          (line + (a.toList.countP Tokenize.isLineFeed + 1)) column excerpt) := by
  have hta : tokenize a limit = .ok (.ofTokens opened.close.top.reverse) := by
    rw [tokenize_eq_run hl, ha, Except.map, Blocks.finish, ht.closeNearest]
  refine ⟨_, hta, fun b => ?_⟩
  have htext : (a ++ "\n" ++ b).toList = a.toList ++ '\n' :: b.toList := by simp
  -- but for white space and quotes no rule looks behind a line feed, and none at finished tokens
  have hrun := Tokenize.run_append_line hl ha ht b.toList
  rw [tokenize_eq_run hl, tokenize_eq_run hl, htext, hrun]
  cases hb : Tokenize.run .standard limit b.toList 0 {} b.toList with
  | error e =>
    refine ⟨⟨nofun, nofun⟩, nofun, fun line column excerpt he => ?_⟩
    cases he
    rfl
  | ok last =>
    refine ⟨⟨fun _ => ⟨_, rfl⟩, fun _ => ⟨_, rfl⟩⟩, fun tb he hapart => ⟨_, rfl, ?_⟩, nofun⟩
    have hempty : Blocks.Nested {} := trivial
    have hnested : last.Nested := (Tokenize.reaches_of_run hl hempty hb).nested hempty
    cases he
    rw [TokenTree.topTokens_ofTokens, TokenTree.topTokens_ofTokens, List.getLast?_reverse]
      at hapart
    rw [TokenTree.topTokens_ofTokens, TokenTree.topTokens_ofTokens, TokenTree.topTokens_ofTokens,
      Blocks.finish_onto hnested hapart]

/-- Behind a comment and an open assignment: an indented assignment, and a sign that is refused in
the third line. -/
theorem tokenize_append_line_behindAssignment :
    Tokenize.run .standard 2 "# one\nA=x ".toList 0 {} "# one\nA=x ".toList =
        .ok ⟨[{ kind := .assignment, value := "A", children := [.leaf .text "x"] }],
          [.leaf .comment "one"]⟩ ∧
      (∃ tree, tokenize ("# one\nA=x " ++ "\n" ++ "\tB=y") 2 = .ok tree ∧ tree.topTokens =
        [.leaf .comment "one", .node .assignment "A" false [.leaf .text "x"],
          .node .assignment "B" false [.leaf .text "y"]]) ∧
      tokenize ("# one\nA=x " ++ "\n" ++ " ?") 2 =
        .error (.unrecognizedToken 3 2 " ?\n ^") := by
  have hopened : Tokenize.run .standard 2 "# one\nA=x ".toList 0 {} "# one\nA=x ".toList =
      .ok ⟨[{ kind := .assignment, value := "A", children := [.leaf .text "x"] }],
        [.leaf .comment "one"]⟩ := by cbv
  have ha : Tokenize.tokens 2 "# one\nA=x ".toList {} "# one\nA=x ".toList =
      .ok [.leaf .comment "one", .node .assignment "A" false [.leaf .text "x"]] := by
    decide +kernel
  have hb : Tokenize.tokens 2 "\tB=y".toList {} "\tB=y".toList =
      .ok [.node .assignment "B" false [.leaf .text "y"]] := by decide +kernel
  have hsign : Tokenize.tokens 2 " ?".toList {} " ?".toList =
      .error (.unrecognizedToken 1 2 " ?\n ^") := by decide +kernel
  obtain ⟨ta, hta, hline⟩ := tokenize_append_line (Nat.le_refl 2) hopened (Or.inr ⟨_, rfl, rfl⟩)
  rw [TokenTree.tokenize_of_tokens ha] at hta
  cases hta
  refine ⟨hopened, ?_, (hline " ?").2.2 1 2 _ (by rw [tokenize, hsign]; rfl)⟩
  obtain ⟨tree, htree, htop⟩ := (hline "\tB=y").2.1 _ (TokenTree.tokenize_of_tokens hb)
    (by rw [TokenTree.topTokens_ofTokens, TokenTree.topTokens_ofTokens]; decide)
  refine ⟨tree, htree, ?_⟩
  rw [htop, TokenTree.topTokens_ofTokens, TokenTree.topTokens_ofTokens]
  rfl

end LayeredEnv
