import LayeredEnv.Proofs.Rendering.Reread
import LayeredEnv.Proofs.Tokenizing.Trail

namespace LayeredEnv.Render

open Text Lexeme Tokenize Token

variable {table : OperatorTable} {blocks : Blocks} {rest : List Char} {signs : Trail}

theorem textTrail_append (depth : Nat) (before after : List Char) :
    textTrail depth (before ++ after) = textTrail depth before ++ textTrail depth after :=
  List.map_append

/-- Text that was read is on the trail. -/
theorem trail_pushChars (blocks : Blocks) (text : List Char) :
    (blocks.pushChars text).trail = blocks.trail ++ textTrail blocks.depth text := by
  by_cases ht : text = []
  · rw [ht, Blocks.pushChars_nil]
    exact (List.append_nil _).symm
  · rw [Blocks.pushChars_of_ne _ ht, Blocks.trail_pushText, String.toList_ofList]

theorem textFree_pushChars (h : blocks.TextFree) (text : List Char) :
    (blocks.pushChars text).TextFree := by
  unfold Blocks.pushChars
  split
  · exact h
  · exact h.pushText _

theorem depth_pushChars (blocks : Blocks) (text : List Char) :
    (blocks.pushChars text).depth = blocks.depth := by
  unfold Blocks.pushChars
  split
  · rfl
  · exact Blocks.depth_pushText ..

/-- White space does not help. -/
theorem Misreads.of_dropWhile {cs : List Char}
    (hb : blocks.innermost = .main ∨ blocks.innermost = .interpolation)
    (h : Misreads table blocks (cs.dropWhile isWhitespace) signs) :
    Misreads table blocks cs signs := by
  by_cases hs : Starts (!isWhitespace ·) cs
  · rwa [dropWhile_of_starts hs] at h
  · obtain ⟨c, cs, rfl, hc⟩ : ∃ c cs', cs = c :: cs' ∧ isWhitespace c = true := by
      cases cs with
      | nil => exact absurd Starts.nil hs
      | cons c cs => exact ⟨c, cs, rfl, by simpa [starts_cons] using hs⟩
    rw [List.dropWhile_cons_of_pos hc] at h
    have hnot : blocks.innermost ≠ .assignment := by
      rcases hb with hb | hb <;> rw [hb] <;> exact Kind.noConfusion
    have hr : Reads table blocks (c :: cs) blocks (cs.dropWhile isWhitespace) :=
      Reads.of_scan' (fun ha => absurd ha hnot) (scan_whitespace hb hc cs) rfl
    exact Misreads.of_reads hr (List.append_nil _).symm h

/-- Behind the white space there is no escape of the character. -/
def Unescaped (c : Char) (cs : List Char) : Prop :=
  ∀ d tail, cs.dropWhile isWhitespace = '\\' :: d :: tail → d ≠ c

/-- What is read at top level or in a reference goes by the first lexeme behind the white space. -/
theorem misreads_of_lexeme {cs : List Char} {sign : Nat × Sign}
    (hb : blocks.innermost = .main ∨ blocks.innermost = .interpolation)
    (h : ∀ lexeme rest, scan blocks.innermost (cs.dropWhile isWhitespace) = some (lexeme, rest) →
      (∀ {next : Blocks} {more : Nat}, blocks.apply table lexeme = (next, more) →
        Reads table blocks (cs.dropWhile isWhitespace) next (rest.drop more)) →
      Misreads table blocks (cs.dropWhile isWhitespace) (sign :: signs)) :
    Misreads table blocks cs (sign :: signs) := by
  apply Misreads.of_dropWhile hb
  have hnot : blocks.innermost ≠ .assignment := by
    rcases hb with hb | hb <;> rw [hb] <;> exact Kind.noConfusion
  cases hs : scan blocks.innermost (cs.dropWhile isWhitespace) with
  | none => exact misreads_of_scan hnot hs
  | some found =>
    exact h found.1 found.2 hs fun ha => (Passes.of_scan (fun he => absurd he hnot) hs ha).reads

theorem misreads_of_char {c d : Char} {cs : List Char} (hf : blocks.TextFree)
    (hr : Reads table blocks cs (blocks.pushText (.ofList [d])) rest) (hd : d ≠ c) :
    Misreads table blocks cs ((blocks.depth, .char c) :: signs) := by
  have ht := Blocks.trail_pushText blocks (.ofList [d])
  rw [String.toList_ofList] at ht
  refine Misreads.of_first hr (hf.pushText _) ht fun he => hd ?_
  cases he
  rfl

/-- At top level a character of literal text is read by its escape alone. -/
theorem misreads_top {c : Char} {cs : List Char} (hb : blocks.innermost = .main)
    (hf : blocks.TextFree) (hc : Unescaped c cs) :
    Misreads table blocks cs ((blocks.depth, .char c) :: signs) := by
  refine misreads_of_lexeme (Or.inl hb) fun lexeme rest hs hr => ?_
  rw [hb] at hs
  rcases scan_main_cases (starts_dropWhile isWhitespace cs) hs with
    ⟨kind, value, rfl, hk⟩ | ⟨name, rfl⟩ | ⟨d, rfl, hd⟩
  · have ht := Blocks.trail_push blocks (.leaf kind (.ofList value))
    rw [Token.leaf, Token.trail_of_kind hk] at ht
    exact Misreads.of_first (hr rfl) (hf.push _) ht (fun he => by cases he)
  · exact Misreads.of_first (hr rfl) (hf.enter Kind.noConfusion) (Blocks.trail_enter ..)
      (fun he => by cases he)
  · exact misreads_of_char hf (hr rfl) (hc d rest hd)

/-- In a reference, too, if it is no operator character. -/
theorem misreads_reference {c : Char} {cs : List Char} (hb : blocks.innermost = .interpolation)
    (hf : blocks.TextFree) (hc : Unescaped c cs) (hop : isOperatorChar c = false) :
    Misreads table blocks cs ((blocks.depth, .char c) :: signs) := by
  refine misreads_of_lexeme (Or.inr hb) fun lexeme rest hs hr => ?_
  rw [hb] at hs
  rcases scan_interpolation_cases (starts_dropWhile isWhitespace cs) hs with
    rfl | ⟨d, second, rfl, hd⟩ | ⟨d, rfl, hd⟩
  · -- the reference is closed, and the character stood in it
    have hclosed : blocks.closeNearest .interpolation = blocks.close :=
      Blocks.closeNearest_of_innermost Kind.noConfusion hb
    have hd : blocks.depth ≠ 0 :=
      Blocks.depth_ne_zero_of_innermost (by rw [hb]; exact Kind.noConfusion)
    have hread : Reads table blocks _ blocks.close rest := hr (by rw [Blocks.apply, hclosed])
    have hm : Misreads table blocks.close rest ((blocks.depth, .char c) :: signs) :=
      misreads_of_depth hf.close (by rw [Blocks.depth_close]; omega)
    have ht : blocks.close.trail = blocks.trail ++ [] :=
      (Blocks.trail_close hf).trans (List.append_nil _).symm
    exact Misreads.of_reads hread ht hm
  · -- an operator character opens an expression, or is literal text itself
    have hto : blocks.closeTo .interpolation = blocks := Blocks.closeTo_of_innermost hb
    cases hp : table.pick blocks.symbols d second with
    | some symbol =>
      have ha : blocks.apply table (.operators d second) =
          (blocks.enter { kind := .expression, value := .ofList symbol }, symbol.length - 1) := by
        simp only [Blocks.apply, Blocks.operate, hto, hp]
      exact Misreads.of_first (hr ha) (hf.enter Kind.noConfusion) (Blocks.trail_enter ..)
        (fun he => by cases he)
    | none =>
      have ha : blocks.apply table (.operators d second) = (blocks.pushText (.ofList [d]), 0) := by
        simp only [Blocks.apply, Blocks.operate, hto, hp]
      have hne : d ≠ c := by
        rintro rfl
        rw [hd] at hop
        cases hop
      exact misreads_of_char hf (hr ha) hne
  · exact misreads_of_char hf (hr rfl) (hc d rest hd)

/-- A text up to the first character that is not special. -/
theorem exists_plain {place : Place} {text : List Char}
    (h : ¬∀ c ∈ text, isSpecial place c = true) :
    ∃ before c after, text = before ++ c :: after ∧
      (∀ d ∈ before, isSpecial place d = true) ∧ isSpecial place c = false := by
  have hstart := starts_dropWhile (isSpecial place) text
  cases hd : text.dropWhile (isSpecial place) with
  | nil => exact absurd (List.dropWhile_eq_nil_iff.mp hd) h
  | cons c after =>
    rw [hd] at hstart
    refine ⟨text.takeWhile (isSpecial place), c, after, ?_, fun d => List.mem_takeWhile_imp,
      by simpa using starts_cons.mp hstart⟩
    rw [← hd, List.takeWhile_append_dropWhile]

def NoEscape (cs : List Char) : Prop := ∀ d tail, cs.dropWhile isWhitespace ≠ '\\' :: d :: tail

/-- Rendering escapes special characters alone. -/
theorem unescaped_escape {place : Place} {c : Char} (hc : isSpecial place c = false)
    (hrest : NoEscape rest) (text : List Char) : Unescaped c (escape place text ++ rest) := by
  induction text with
  | nil => exact fun d tail he => absurd he (hrest d tail)
  | cons e text ih =>
    intro d tail he
    rw [escape, List.flatMap_cons] at he
    by_cases hs : isSpecial place e = true
    · rw [if_pos hs] at he
      -- the escape is the one of the text's first character
      have hd : e = d := by
        have hback : ('\\' :: e :: (escape place text ++ rest)).dropWhile isWhitespace =
            '\\' :: e :: (escape place text ++ rest) := List.dropWhile_cons_of_neg (by decide)
        change ('\\' :: e :: (escape place text ++ rest)).dropWhile isWhitespace = _ at he
        rw [hback] at he
        exact (List.cons_eq_cons.mp (List.cons_eq_cons.mp he).2).1
      rintro rfl
      rw [hd, hc] at hs
      cases hs
    · rw [if_neg hs] at he
      change (e :: (escape place text ++ rest)).dropWhile isWhitespace = _ at he
      by_cases hw : isWhitespace e = true
      · rw [List.dropWhile_cons_of_pos hw] at he
        exact ih d tail he
      · rw [List.dropWhile_cons_of_neg hw] at he
        have hback : isSpecial place '\\' = true := by cases place <;> decide
        rw [(List.cons_eq_cons.mp he).1] at hs
        exact absurd hback hs

theorem dropWhile_dropWhile {p q : Char → Bool} (hqp : ∀ c, q c = true → p c = true)
    (cs : List Char) : (cs.dropWhile q).dropWhile p = cs.dropWhile p := by
  induction cs with
  | nil => rfl
  | cons c cs ih =>
    by_cases hq : q c = true
    · rw [List.dropWhile_cons_of_pos hq, ih, List.dropWhile_cons_of_pos (hqp c hq)]
    · rw [List.dropWhile_cons_of_neg hq]

/-- Text with a character that is not special is misread where the escapes are what counts, also
when white space before it is gone. -/
theorem misreads_plain {place : Place} {text : List Char}
    (htext : ¬∀ c ∈ text, isSpecial place c = true) (hf : blocks.TextFree) (hrest : NoEscape rest)
    {q : Char → Bool} (hq : ∀ c, q c = true → isWhitespace c = true)
    (hchar : ∀ c, isSpecial place c = false → ∀ (next : Blocks) (cs : List Char) (signs : Trail),
      next.innermost = blocks.innermost → next.TextFree → Unescaped c cs →
      Misreads table next cs ((next.depth, .char c) :: signs)) :
    Misreads table blocks ((escape place text ++ rest).dropWhile q)
      (textTrail blocks.depth text) := by
  obtain ⟨before, c, after, rfl, hbefore, hc⟩ := exists_plain htext
  -- the special characters before it are read by their escapes
  have hun : Unescaped c (escape place (c :: after) ++ rest) := unescaped_escape hc hrest _
  cases before with
  | nil =>
    refine hchar c hc blocks _ _ rfl hf fun d tail he => hun d tail ?_
    rwa [dropWhile_dropWhile hq] at he
  | cons e before =>
    have he : isSpecial place e = true := hbefore e List.mem_cons_self
    have hback : q '\\' = false := by
      by_contra hb
      exact absurd (hq _ (eq_true_of_ne_false hb)) (by decide)
    have hsplit : escape place (e :: before ++ c :: after) ++ rest =
        escape place (e :: before) ++ (escape place (c :: after) ++ rest) := by
      rw [escape, List.flatMap_append, List.append_assoc]
      rfl
    have hdrop : (escape place (e :: before ++ c :: after) ++ rest).dropWhile q =
        escape place (e :: before ++ c :: after) ++ rest := by
      rw [List.cons_append, escape, List.flatMap_cons, if_pos he]
      exact dropWhile_of_starts (starts_cons.mpr (by rw [hback]; rfl))
    have hread : Reads table blocks
        (escape place (e :: before) ++ (escape place (c :: after) ++ rest))
        (blocks.pushChars (e :: before)) (escape place (c :: after) ++ rest) :=
      reads_specials hbefore
    have hm := hchar c hc (blocks.pushChars (e :: before)) _ (textTrail blocks.depth after)
      (Blocks.innermost_pushChars ..) (textFree_pushChars hf _) hun
    rw [depth_pushChars] at hm
    rw [hdrop, hsplit, textTrail_append]
    exact Misreads.of_reads hread (trail_pushChars ..) hm

/-- So it is where literal text is put in quotes. -/
theorem misreads_literal {place : Place} {text : List Char} {first last : Bool}
    (hb : blocks.innermost = .main ∨ blocks.innermost = .interpolation) (hp : place ≠ .quoted)
    (hescape : (∀ c ∈ text, isLineBreak c = false) →
      literal place first last text = escape place text)
    (hne : text ≠ []) (hn : '\n' ∉ text) (htext : ¬∀ c ∈ text, isSpecial place c = true)
    (hf : blocks.TextFree) (hrest : NoEscape rest)
    {q : Char → Bool} (hq : ∀ c, q c = true → isWhitespace c = true)
    (hchar : ∀ c, isSpecial place c = false → ∀ (next : Blocks) (cs : List Char) (signs : Trail),
      next.innermost = blocks.innermost → next.TextFree → Unescaped c cs →
      Misreads table next cs ((next.depth, .char c) :: signs)) :
    Misreads table blocks ((literal place first last text ++ rest).dropWhile q)
      (textTrail blocks.depth text) := by
  by_cases hr : '\r' ∈ text
  · have hquote : q '"' = false := by
      by_contra hc
      exact absurd (hq _ (eq_true_of_ne_false hc)) (by decide)
    have hnot : blocks.innermost ≠ .assignment := by
      rcases hb with hb | hb <;> rw [hb] <;> exact Kind.noConfusion
    obtain ⟨c, cs, rfl⟩ := List.exists_cons_of_ne_nil hne
    rw [literal_of_mem hp hr, quoteChars, List.cons_append, List.cons_append,
      List.dropWhile_cons_of_neg (by rw [hquote]; exact Bool.false_ne_true)]
    exact misreads_of_scan hnot (scan_quote hb _)
  · rw [hescape (not_isLineBreak hn hr)]
    exact misreads_plain htext hf hrest hq hchar

theorem misreads_topText {text : List Char} (hb : blocks.innermost = .main) (hf : blocks.TextFree)
    (hne : text ≠ []) (hn : '\n' ∉ text) (htext : ¬∀ c ∈ text, isSpecial .value c = true)
    (hrest : NoEscape rest) :
    Misreads table blocks ((literal .value false false text ++ rest).dropWhile isWhitespace)
      (textTrail blocks.depth text) := by
  refine misreads_literal (Or.inl hb) Place.noConfusion (fun hl => ?_) hne hn htext hf hrest
    (fun _ hc => hc) fun c _ next cs signs hi hnext hc => misreads_top (hi.trans hb) hnext hc
  rw [literal_value hl, valueText_inner]

theorem misreads_leading {text : List Char} {first last : Bool}
    (hb : blocks.innermost = .interpolation) (hf : blocks.TextFree) (hne : text ≠ [])
    (hn : '\n' ∉ text) (htext : ¬∀ c ∈ text, isSpecial .expression c = true)
    (hrest : NoEscape rest) :
    Misreads table blocks ((literal .expression first last text ++ rest).dropWhile isSpace)
      (textTrail blocks.depth text) := by
  refine misreads_literal (Or.inr hb) Place.noConfusion literal_expression hne hn htext hf hrest
    (fun c hc => ?_) fun c hc next cs signs hi hnext hu => ?_
  · rw [beq_iff_eq.mp hc]
    rfl
  · exact misreads_reference (hi.trans hb) hnext hu (not_isOperatorChar hc)

/-- A name goes on as long as it can. -/
theorem misreads_name {value : String} {isLength : Bool}
    (hb : blocks.innermost = .assignment ∨ blocks.innermost = .expression ∨
      blocks.innermost = .quoted)
    (hf : blocks.TextFree) (hw : Wording .interpolation .interpolation value.toList)
    (hn : ¬Starts (!isNameChar ·) rest) :
    Misreads table blocks
      ('$' :: '\x7b' :: ((if isLength then ['#'] else []) ++ value.toList ++ rest))
      ((blocks.depth, .opens .interpolation value isLength) :: signs) := by
  obtain ⟨c, cs, rfl, hc⟩ : ∃ c cs, rest = c :: cs ∧ isNameChar c = true := by
    cases rest with
    | nil => exact absurd Starts.nil hn
    | cons c cs => exact ⟨c, cs, rfl, by simpa [starts_cons] using hn⟩
  have hsplit : value.toList ++ c :: cs =
      (value.toList ++ c :: cs.takeWhile isNameChar) ++ cs.dropWhile isNameChar := by
    rw [List.append_assoc, List.cons_append, List.takeWhile_append_dropWhile]
  have hname : ∀ d ∈ value.toList ++ c :: cs.takeWhile isNameChar, isNameChar d = true := by
    intro d hd
    rcases List.mem_append.mp hd with hd | hd
    · exact hw.2 d hd
    · rcases List.mem_cons.mp hd with rfl | hd
      · exact hc
      · exact List.mem_takeWhile_imp hd
  have hne : value.toList ++ c :: cs.takeWhile isNameChar ≠ [] :=
    List.append_ne_nil_of_right_ne_nil _ (List.cons_ne_nil _ _)
  have hscan := scan_interpolation hb isLength hne hname (starts_dropWhile isNameChar cs)
  rw [List.append_assoc, ← hsplit, ← List.append_assoc] at hscan
  have hr : Reads table blocks _ (blocks.enter
      { kind := .interpolation, value := .ofList (value.toList ++ c :: cs.takeWhile isNameChar),
        isLength }) _ := Reads.of_scan' (fun _ => starts_cons.mpr rfl) hscan rfl
  apply Misreads.of_first hr (hf.enter Kind.noConfusion) (Blocks.trail_enter ..)
  intro he
  -- the name that was read is longer
  have hvalue : String.ofList (value.toList ++ c :: cs.takeWhile isNameChar) = value :=
    (Sign.opens.inj (Prod.mk.inj he).2).2.1
  have hlength := congrArg (fun text : String => text.toList.length) hvalue
  simp only [String.toList_ofList, List.length_append, List.length_cons] at hlength
  omega

/-- Text in quotes is another token. -/
theorem misreads_returns {place : Place} {first last : Bool} {text : List Char}
    (hb : blocks.innermost = .assignment ∨ blocks.innermost = .expression) (hf : blocks.TextFree)
    (hp : place ≠ .quoted) (hr : '\r' ∈ text) :
    Misreads table blocks (literal place first last text ++ rest)
      (textTrail blocks.depth text) := by
  obtain ⟨c, cs, rfl⟩ := List.exists_cons_of_ne_nil (List.ne_nil_of_mem hr)
  have hopen : Reads table blocks (literal place first last (c :: cs) ++ rest)
      (blocks.enter { kind := .quoted, value := "" })
      (escape .quoted (c :: cs) ++ ['"'] ++ rest) := by
    rw [literal_of_mem hp hr]
    exact reads_openQuote hb
  exact Misreads.of_first hopen (hf.enter Kind.noConfusion) (Blocks.trail_enter ..)
    (fun he => by cases he)

/-- Marked text up to the run behind the last mark. -/
theorem exists_last_run (text : Marked) : ∃ front run, text = front ++ markAll false run ∧
    ∀ c, front.getLast? ≠ some (false, c) := by
  induction text using List.reverseRecOn with
  | nil => exact ⟨[], [], rfl, fun c hc => nomatch hc⟩
  | append_singleton text mark ih =>
    obtain ⟨_ | _, c⟩ := mark
    · obtain ⟨front, run, rfl, hfront⟩ := ih
      refine ⟨front, run ++ [c], ?_, hfront⟩
      simp [markAll]
    · refine ⟨text ++ [(true, c)], [], (List.append_nil _).symm, fun d hd => ?_⟩
      rw [List.getLast?_concat] at hd
      cases hd

/-- If the last character is escaped before a comment, the text is shut. -/
theorem shut_of_last {first : Bool} {text : List Char} {c : Char}
    (h : (valueMarks first false text).getLast? = some (true, c)) : Shut first text := by
  have hlast : text.getLast? = some c := by
    rw [← chars_valueMarks first false text, chars, List.getLast?_map, h]
    rfl
  unfold valueMarks at h
  split at h
  · next ht =>
    have hfirst := (mem_markAll (List.mem_of_getLast? h)).2
    rw [Bool.or_false] at hfirst
    exact Or.inr ⟨hfirst, isBlank_of_trim ht⟩
  · next ht =>
    left
    refine ⟨c, hlast, ?_⟩
    cases he : takeEndWhile isBlank text with
    | cons d tail =>
      have hm : markAll false (d :: tail) ≠ [] := List.cons_ne_nil _ _
      rw [he, List.getLast?_append_of_ne_nil _ hm] at h
      cases (mem_markAll (List.mem_of_getLast? h)).2
    | nil =>
      have hm : marks .value (trim isBlank text) ≠ [] := by simpa [marks] using ht
      rw [he, show markAll false [] = [] from rfl, List.append_nil,
        List.getLast?_append_of_ne_nil _ hm] at h
      exact (mem_marks (List.mem_of_getLast? h)).2

/-- A text that is not shut ends in a run without marks. -/
theorem exists_run_of_not_shut {first : Bool} {text : List Char} (hne : text ≠ [])
    (hs : ¬Shut first text) :
    ∃ front run, valueMarks first false text = front ++ markAll false run ∧ run ≠ [] ∧
      ∀ c, front.getLast? ≠ some (false, c) := by
  obtain ⟨front, run, hmarks, hfront⟩ := exists_last_run (valueMarks first false text)
  refine ⟨front, run, hmarks, ?_, hfront⟩
  rintro rfl
  rw [show markAll false [] = [] from rfl, List.append_nil] at hmarks
  have hne' : front ≠ [] := by
    rintro rfl
    have hchars := chars_valueMarks first false text
    rw [hmarks] at hchars
    exact hne hchars.symm
  obtain ⟨mark, hmark⟩ : ∃ mark, front.getLast? = some mark :=
    ⟨_, List.getLast?_eq_some_getLast hne'⟩
  obtain ⟨_ | _, c⟩ := mark
  · exact hfront c hmark
  · exact hs (shut_of_last (hmarks ▸ hmark))

/-- A run of unquoted text does not stop before a number sign. -/
theorem valueRun_numberSign {run : List Char} (hraw : ∀ c ∈ run, isValueSpecial c = false)
    (rest : List Char) : ∃ more tail, rest = more ++ tail ∧
      valueRun (run ++ '#' :: rest) = some (.text (run ++ '#' :: more), tail) := by
  have htake : (run ++ '#' :: rest).takeWhile (!isValueSpecial ·) =
      run ++ '#' :: rest.takeWhile (!isValueSpecial ·) := by
    rw [List.takeWhile_append_of_pos fun c hc => by rw [hraw c hc]; rfl,
      List.takeWhile_cons_of_pos (by decide)]
  obtain ⟨more, hmore⟩ : ∃ more, dropEndWhile isWhitespace
      (run ++ '#' :: rest.takeWhile (!isValueSpecial ·)) = run ++ '#' :: more :=
    ⟨_, dropEndWhile_append_cons (by decide) _ _⟩
  have hv : valueRun (run ++ '#' :: rest) = some (.text (run ++ '#' :: more),
      (run ++ '#' :: rest).drop (run ++ '#' :: more).length) := by
    rw [valueRun, htake, hmore]
    split
    · next he => exact absurd he (List.append_ne_nil_of_right_ne_nil _ (List.cons_ne_nil _ _))
    · rfl
  obtain ⟨_, hl, he, -⟩ := valueRun_eq_some hv
  cases hl
  refine ⟨more, _, ?_, hv⟩
  rw [List.append_assoc, List.append_cancel_left_eq] at he
  exact List.cons.inj he |>.2

theorem scan_run_comment {run : List Char} (hne : run ≠ [])
    (hraw : ∀ c ∈ run, isValueSpecial c = false ∧ c ≠ '#') (rest : List Char) :
    ∃ more tail, rest = more ++ tail ∧
      scan .assignment (run ++ '#' :: rest) = some (.text (run ++ '#' :: more), tail) := by
  have hs : scan .assignment (run ++ '#' :: rest) = _ := scan_run hne hraw fun c _ _ =>
    ⟨List.cons_ne_nil _ _, starts_cons.mpr rfl⟩
  obtain ⟨more, tail, he, hv⟩ := valueRun_numberSign (fun c hc => (hraw c hc).1) rest
  refine ⟨more, tail, he, ?_⟩
  rw [hs]
  simp only [List.findSome?_cons, hv]

/-- A text that does not end in an escape takes the comment behind it. -/
theorem misreads_comment {first : Bool} {text : List Char} {value : String} {isLength : Bool}
    (hb : blocks.innermost = .assignment) (hf : blocks.TextFree) (hne : text ≠ [])
    (hn : ∀ c ∈ text, isLineBreak c = false) (hs : ¬Shut first text) :
    Misreads table blocks (valueText first false text ++ '#' :: rest)
      (textTrail blocks.depth text ++ (blocks.depth, .opens .comment value isLength) :: signs) := by
  obtain ⟨front, run, hmarks, hrun, hfront⟩ := exists_run_of_not_shut hne hs
  have hchars : text = chars front ++ run := by
    rw [← chars_valueMarks first false text, hmarks, chars_append, chars_markAll]
  have hmem : ∀ mark ∈ front, mark ∈ valueMarks first false text := fun mark hm => by
    rw [hmarks]
    exact List.mem_append_left _ hm
  have hread : Reads table blocks (spell front ++ (run ++ '#' :: rest))
      (blocks.pushChars (chars front)) (run ++ '#' :: rest) := by
    refine reads_spell value_chunks (fun c hc => not_lineFeed_of_mem_valueMarks hn (hmem _ hc))
      (fun c hc => raw_of_mem_valueMarks hn (hmem _ hc)) (fun before others he hothers => ?_) hb
    -- the last character of the front is marked
    obtain ⟨c, hc⟩ : ∃ c, others.getLast? = some c := ⟨_, List.getLast?_eq_some_getLast hothers⟩
    refine absurd ?_ (hfront c)
    rw [he, List.getLast?_append_of_ne_nil _ (by simpa [markAll] using hothers), markAll,
      List.getLast?_map, hc]
    rfl
  have hraw : ∀ c ∈ run, isValueSpecial c = false ∧ c ≠ '#' := fun c hc =>
    raw_of_mem_valueMarks hn (by
      rw [hmarks]
      exact List.mem_append_right _ (List.mem_map_of_mem hc))
  -- the lexeme of the run has the number sign in it
  obtain ⟨more, tail, -, hscan⟩ := scan_run_comment hrun hraw rest
  have hstart : Starts (!isLineBreak ·) (run ++ '#' :: rest) :=
    starts_of_raw hrun (fun c hc => (hraw c hc).1) _
  have hi : (blocks.pushChars (chars front)).innermost = .assignment :=
    (Blocks.innermost_pushChars ..).trans hb
  have hstep : Reads table (blocks.pushChars (chars front)) (run ++ '#' :: rest)
      ((blocks.pushChars (chars front)).pushText (.ofList (run ++ '#' :: more))) tail :=
    Reads.of_scan' (fun _ => hstart) (hi ▸ hscan) rfl
  have htrail : ((blocks.pushChars (chars front)).pushText (.ofList (run ++ '#' :: more))).trail =
      blocks.trail ++ (textTrail blocks.depth text ++
        (blocks.depth, .char '#') :: textTrail blocks.depth more) := by
    rw [Blocks.trail_pushText, trail_pushChars, depth_pushChars, String.toList_ofList, hchars,
      textTrail_append, textTrail_append, List.append_assoc, List.append_assoc]
    rfl
  have hspell : valueText first false text ++ '#' :: rest =
      spell front ++ (run ++ '#' :: rest) := by
    rw [← spell_valueMarks, hmarks, spell_append, spell_markAll_false, List.append_assoc]
  rw [hspell]
  exact Misreads.of_sign (hread.trans hstep) ((textFree_pushChars hf _).pushText _) htrail
    (fun he => by cases he)

end LayeredEnv.Render
