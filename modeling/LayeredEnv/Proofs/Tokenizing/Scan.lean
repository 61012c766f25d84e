import LayeredEnv.Token.Lexeme
import Mathlib.Data.List.DropRight
import Mathlib.Data.List.TakeWhile

namespace LayeredEnv

/-- The text is empty or starts with a character of the class `p`. -/
def Text.Starts (p : Char → Bool) (cs : List Char) : Prop := ∀ c ∈ cs.head?, p c = true

namespace Text

variable {p q : Char → Bool} {c : Char} {cs : List Char}

theorem Starts.nil : Starts p [] := fun _ h => by cases h

theorem starts_cons : Starts p (c :: cs) ↔ p c = true := by simp [Starts]

theorem Starts.imp (h : Starts p cs) (hpq : ∀ c, p c = true → q c = true) : Starts q cs :=
  fun c hc => hpq c (h c hc)

theorem starts_dropWhile (p : Char → Bool) (cs : List Char) :
    Starts (!p ·) (cs.dropWhile p) := by
  induction cs with
  | nil => exact Starts.nil
  | cons c cs ih =>
    rw [List.dropWhile_cons]
    split
    · exact ih
    · next h => exact starts_cons.mpr (by simpa using h)

theorem dropWhile_of_starts (h : Starts (!p ·) cs) : cs.dropWhile p = cs := by
  cases cs with
  | nil => rfl
  | cons c cs => rw [List.dropWhile_cons, if_neg (by simpa using starts_cons.mp h)]

theorem takeWhile_of_starts (h : Starts (!p ·) cs) : cs.takeWhile p = [] := by
  cases cs with
  | nil => rfl
  | cons c cs => rw [List.takeWhile_cons, if_neg (by simpa using starts_cons.mp h)]

theorem takeWhile_append_of_starts {run rest : List Char} (hr : ∀ c ∈ run, p c = true)
    (h : Starts (!p ·) rest) : (run ++ rest).takeWhile p = run := by
  rw [List.takeWhile_append_of_pos hr, takeWhile_of_starts h, List.append_nil]

theorem dropWhile_append_of_starts {run rest : List Char} (hr : ∀ c ∈ run, p c = true)
    (h : Starts (!p ·) rest) : (run ++ rest).dropWhile p = rest := by
  rw [List.dropWhile_append_of_pos hr, dropWhile_of_starts h]

end Text

namespace Lexeme

open Text

variable {p : Char → Bool} {cs rest run : List Char} {block : Kind}

theorem takeRun_eq_some_iff : takeRun p cs = some (run, rest) ↔
    cs = run ++ rest ∧ run ≠ [] ∧ (∀ c ∈ run, p c = true) ∧ Starts (!p ·) rest := by
  constructor
  · intro h
    unfold takeRun at h
    split at h
    · cases h
    · next hne =>
      cases h
      exact ⟨List.takeWhile_append_dropWhile.symm, hne, fun c => List.mem_takeWhile_imp,
        starts_dropWhile p cs⟩
  · rintro ⟨rfl, hne, hr, hs⟩
    have htake := takeWhile_append_of_starts hr hs
    unfold takeRun
    rw [htake, dropWhile_append_of_starts hr hs]
    split
    · exact absurd rfl hne
    · rfl

theorem takeRun_append (hne : run ≠ []) (hr : ∀ c ∈ run, p c = true) (h : Starts (!p ·) rest) :
    takeRun p (run ++ rest) = some (run, rest) :=
  takeRun_eq_some_iff.mpr ⟨rfl, hne, hr, h⟩

/-- Of a run and what follows it, what the class takes is in the run. -/
theorem takeRun_append_prefix (hne : run.takeWhile p ≠ []) (h : Starts (!p ·) rest) :
    takeRun p (run ++ rest) = some (run.takeWhile p, run.dropWhile p ++ rest) := by
  have hsplit : run ++ rest = run.takeWhile p ++ (run.dropWhile p ++ rest) := by
    rw [← List.append_assoc, List.takeWhile_append_dropWhile]
  have hdrop := starts_dropWhile p run
  rw [hsplit]
  refine takeRun_append hne (fun c => List.mem_takeWhile_imp) ?_
  cases hd : run.dropWhile p with
  | nil => exact h
  | cons c others =>
    rw [hd] at hdrop
    exact starts_cons.mpr (starts_cons.mp hdrop)

theorem takeRun_of_starts (h : Starts (!p ·) cs) : takeRun p cs = none := by
  unfold takeRun
  rw [takeWhile_of_starts h]

theorem includeFlag_of_ne (h : Starts (· != '#') cs) : includeFlag cs = none := by
  unfold includeFlag
  split
  · exact absurd (starts_cons.mp h) (by decide)
  · rfl

theorem preserveFlag_of_ne (h : Starts (· != '#') cs) : preserveFlag cs = none := by
  unfold preserveFlag
  split
  · exact absurd (starts_cons.mp h) (by decide)
  · rfl

theorem comment_of_ne (h : Starts (· != '#') cs) : comment cs = none := by
  unfold comment
  split
  · exact absurd (starts_cons.mp h) (by decide)
  · rfl

theorem escaped_of_ne (h : Starts (· != '\\') cs) : escaped cs = none := by
  unfold escaped
  split
  · exact absurd (starts_cons.mp h) (by decide)
  · rfl

theorem interpolation_of_ne (h : Starts (· != '$') cs) : interpolation cs = none := by
  unfold interpolation
  split
  · exact absurd (starts_cons.mp h) (by decide)
  · rfl

theorem reference_of_ne (h : Starts (· != '$') cs) : reference cs = none := by
  unfold reference
  split
  · exact absurd (starts_cons.mp h) (by decide)
  · rfl

theorem interpolationEnd_of_ne (h : Starts (· != '\x7d') cs) : interpolationEnd cs = none := by
  unfold interpolationEnd
  split
  · exact absurd (starts_cons.mp h) (by decide)
  · rfl

theorem quoteStart_of_ne (h : Starts (· != '"') cs) : quoteStart cs = none := by
  unfold quoteStart
  split
  · exact absurd (starts_cons.mp h) (by decide)
  · rfl

theorem quoteEnd_of_ne (h : Starts (· != '"') cs) : quoteEnd cs = none := by
  unfold quoteEnd
  split
  · exact absurd (starts_cons.mp h) (by decide)
  · rfl

theorem operatorRun_of_starts (h : Starts (!isOperatorChar ·) cs) : operatorRun cs = none := by
  unfold operatorRun
  split
  · rw [if_neg (by simpa using starts_cons.mp h)]
  · rfl

theorem assignment_of_starts (h : Starts (!isNameChar ·) cs) : assignment cs = none := by
  simp [assignment, takeRun_of_starts h]

theorem trailingBlanks_of_starts (h : Starts (!isBlank ·) cs) : trailingBlanks cs = none := by
  simp [trailingBlanks, takeRun_of_starts h]

theorem blankRun_of_starts (h : Starts (!isBlank ·) cs) : blankRun cs = none := by
  simp [blankRun, takeRun_of_starts h]

theorem whitespace_of_starts (h : Starts (!isWhitespace ·) cs) : whitespace cs = none := by
  simp [whitespace, takeRun_of_starts h]

theorem argumentRun_of_starts (h : Starts (!isArgumentChar ·) cs) : argumentRun cs = none := by
  simp [argumentRun, takeRun_of_starts h]

/-- Blanks in front of anything but the end of the line are not trailing. -/
theorem trailingBlanks_append (hne : run ≠ []) (hr : ∀ c ∈ run, isBlank c = true)
    (hrest : rest ≠ []) (h : Starts (fun c => !isBlank c && !isLineBreak c) rest) :
    trailingBlanks (run ++ rest) = none := by
  have ht := takeRun_append hne hr (h.imp fun c hc => (Bool.and_eq_true_iff.mp hc).1)
  simp only [trailingBlanks, ht]
  cases rest with
  | nil => exact absurd rfl hrest
  | cons c rest =>
    have hc := (Bool.and_eq_true_iff.mp (starts_cons.mp h)).2
    simp_all

theorem scan_escaped (block : Kind) {c : Char} (h : c ≠ '\n') (cs : List Char) :
    scan block ('\\' :: c :: cs) = some (.text [c], cs) := by
  have he : escaped ('\\' :: c :: cs) = some (.text [c], cs) := by simp [escaped, h]
  have hi : includeFlag ('\\' :: c :: cs) = none := includeFlag_of_ne (starts_cons.mpr rfl)
  have hp : preserveFlag ('\\' :: c :: cs) = none := preserveFlag_of_ne (starts_cons.mpr rfl)
  cases block <;> simp [scan, rules, he, hi, hp]

theorem scan_quoteStart (h : block = .assignment ∨ block = .expression) (cs : List Char) :
    scan block ('"' :: cs) = some (.openQuote, cs) := by
  have he : escaped ('"' :: cs) = none := escaped_of_ne (starts_cons.mpr rfl)
  have hi : interpolation ('"' :: cs) = none := interpolation_of_ne (starts_cons.mpr rfl)
  have hr : reference ('"' :: cs) = none := reference_of_ne (starts_cons.mpr rfl)
  have hq : quoteStart ('"' :: cs) = some (.openQuote, cs) := rfl
  rcases h with rfl | rfl
  · have ht : trailingBlanks ('"' :: cs) = none := trailingBlanks_of_starts (starts_cons.mpr rfl)
    simp [scan, rules, he, ht, hi, hr, hq]
  · have hd : interpolationEnd ('"' :: cs) = none := interpolationEnd_of_ne (starts_cons.mpr rfl)
    have ho : operatorRun ('"' :: cs) = none := operatorRun_of_starts (starts_cons.mpr rfl)
    simp [scan, rules, he, hd, ho, hi, hr, hq]

/-- Quotes are no part of the top level and of references. -/
theorem scan_quote (h : block = .main ∨ block = .interpolation) (cs : List Char) :
    scan block ('"' :: cs) = none := by
  have he : escaped ('"' :: cs) = none := escaped_of_ne (starts_cons.mpr rfl)
  have hw : whitespace ('"' :: cs) = none := whitespace_of_starts (starts_cons.mpr rfl)
  rcases h with rfl | rfl
  · have hi : includeFlag ('"' :: cs) = none := includeFlag_of_ne (starts_cons.mpr rfl)
    have hp : preserveFlag ('"' :: cs) = none := preserveFlag_of_ne (starts_cons.mpr rfl)
    have ha : assignment ('"' :: cs) = none := assignment_of_starts (starts_cons.mpr rfl)
    have hc : comment ('"' :: cs) = none := comment_of_ne (starts_cons.mpr rfl)
    simp [scan, rules, hi, hp, he, ha, hc, hw]
  · have hd : interpolationEnd ('"' :: cs) = none := interpolationEnd_of_ne (starts_cons.mpr rfl)
    have ho : operatorRun ('"' :: cs) = none := operatorRun_of_starts (starts_cons.mpr rfl)
    simp [scan, rules, he, hd, ho, hw]

theorem scan_quoteEnd (cs : List Char) : scan .quoted ('"' :: cs) = some (.closeQuote, cs) := by
  have he : escaped ('"' :: cs) = none := escaped_of_ne (starts_cons.mpr rfl)
  have hi : interpolation ('"' :: cs) = none := interpolation_of_ne (starts_cons.mpr rfl)
  have hr : reference ('"' :: cs) = none := reference_of_ne (starts_cons.mpr rfl)
  have hq : quoteEnd ('"' :: cs) = some (.closeQuote, cs) := rfl
  simp [scan, rules, he, hi, hr, hq]

theorem scan_interpolationEnd (h : block = .interpolation ∨ block = .expression)
    (cs : List Char) : scan block ('\x7d' :: cs) = some (.closeInterpolation, cs) := by
  have he : escaped ('\x7d' :: cs) = none := escaped_of_ne (starts_cons.mpr rfl)
  have hi : interpolation ('\x7d' :: cs) = none := interpolation_of_ne (starts_cons.mpr rfl)
  have hd : interpolationEnd ('\x7d' :: cs) = some (.closeInterpolation, cs) := rfl
  rcases h with rfl | rfl <;> simp [scan, rules, he, hi, hd]

theorem scan_operators (h : block = .interpolation ∨ block = .expression) {c : Char}
    (hc : isOperatorChar c = true) (cs : List Char) :
    scan block (c :: cs) = some (.operators c (cs.head?.filter isOperatorChar), cs) := by
  have hne : ∀ d, isOperatorChar d = false → Starts (· != d) (c :: cs) := by
    intro d hd
    refine starts_cons.mpr (bne_iff_ne.mpr ?_)
    rintro rfl
    rw [hc] at hd
    cases hd
  have he : escaped (c :: cs) = none := escaped_of_ne (hne _ (by decide))
  have hi : interpolation (c :: cs) = none := interpolation_of_ne (hne _ (by decide))
  have hd : interpolationEnd (c :: cs) = none := interpolationEnd_of_ne (hne _ (by decide))
  have ho : operatorRun (c :: cs) = some (.operators c (cs.head?.filter isOperatorChar), cs) := by
    rw [operatorRun, if_pos hc]
  rcases h with rfl | rfl <;> simp [scan, rules, he, hi, hd, ho]

theorem lengthMark_of_ne (h : Starts (· != '#') cs) : lengthMark cs = (false, cs) := by
  unfold lengthMark
  split
  · exact absurd (starts_cons.mp h) (by decide)
  · rfl

/-- A name, as a start of a text, is neither space nor mark. -/
theorem starts_name {p : Char → Bool} {name : List Char} (hne : name ≠ [])
    (hn : ∀ c ∈ name, isNameChar c = true) (hp : ∀ c, isNameChar c = true → p c = true) :
    Starts p (name ++ rest) := by
  cases name with
  | nil => exact absurd rfl hne
  | cons c name => exact starts_cons.mpr (hp c (hn c List.mem_cons_self))

theorem ne_of_isNameChar {c d : Char} (h : isNameChar c = true) (hd : isNameChar d = false) :
    (c != d) = true := by
  apply bne_iff_ne.mpr
  rintro rfl
  rw [h] at hd
  cases hd

theorem interpolation_append (isLength : Bool) {name : List Char} (hne : name ≠ [])
    (hn : ∀ c ∈ name, isNameChar c = true) (h : Starts (!isNameChar ·) cs) :
    interpolation ('$' :: '\x7b' :: ((if isLength then ['#'] else []) ++ name ++ cs)) =
      some (.openInterpolation isLength name, cs.dropWhile isSpace) := by
  have hspace : (name ++ cs).dropWhile isSpace = name ++ cs :=
    dropWhile_of_starts (starts_name hne hn fun c hc => ne_of_isNameChar hc (by decide))
  have hmark : Starts (· != '#') (name ++ cs) :=
    starts_name hne hn fun c hc => ne_of_isNameChar hc (by decide)
  have ht := takeRun_append hne hn h
  cases isLength with
  | false =>
    simp only [Bool.false_eq_true, if_false, List.nil_append, interpolation, hspace,
      lengthMark_of_ne hmark, ht, Option.map_some]
  | true =>
    have hd : ('#' :: (name ++ cs)).dropWhile isSpace = '#' :: (name ++ cs) :=
      dropWhile_of_starts (starts_cons.mpr rfl)
    simp only [if_true, List.cons_append, List.nil_append, interpolation, hd, lengthMark, hspace,
      ht, Option.map_some]

theorem scan_interpolation (hb : block = .assignment ∨ block = .expression ∨ block = .quoted)
    (isLength : Bool) {name : List Char} (hne : name ≠ [])
    (hn : ∀ c ∈ name, isNameChar c = true) (h : Starts (!isNameChar ·) cs) :
    scan block ('$' :: '\x7b' :: ((if isLength then ['#'] else []) ++ name ++ cs)) =
      some (.openInterpolation isLength name, cs.dropWhile isSpace) := by
  have hi := interpolation_append isLength hne hn h
  generalize hcs : '\x7b' :: ((if isLength then ['#'] else []) ++ name ++ cs) = text at hi
  have he : escaped ('$' :: text) = none := escaped_of_ne (starts_cons.mpr rfl)
  rcases hb with rfl | rfl | rfl
  · have ht : trailingBlanks ('$' :: text) = none := trailingBlanks_of_starts (starts_cons.mpr rfl)
    simp [scan, rules, he, ht, hi]
  · simp [scan, rules, he, hi]
  · simp [scan, rules, he, hi]

theorem comment_append {value : List Char} (hv : ∀ c ∈ value, isLineBreak c = false)
    (h : Starts isLineBreak rest) :
    comment ('#' :: ' ' :: (value ++ rest)) = some (.leaf .comment value, rest) := by
  have hn : ∀ c ∈ value, (!isLineBreak c) = true := fun c hc => by rw [hv c hc]; rfl
  have hr : Starts (fun c => !(!isLineBreak c)) rest := h.imp fun c hc => by rw [hc]; rfl
  have hd : dropOptional ' ' (' ' :: (value ++ rest)) = value ++ rest := rfl
  rw [comment]
  simp only [hd]
  rw [takeWhile_append_of_starts hn hr, dropWhile_append_of_starts hn hr]

/-- Where a number sign comes next in a value, a comment is read. -/
theorem scan_numberSign (cs : List Char) : scan .assignment ('#' :: cs) = comment ('#' :: cs) := by
  have he : escaped ('#' :: cs) = none := escaped_of_ne (starts_cons.mpr rfl)
  have ht : trailingBlanks ('#' :: cs) = none := trailingBlanks_of_starts (starts_cons.mpr rfl)
  have hi : interpolation ('#' :: cs) = none := interpolation_of_ne (starts_cons.mpr rfl)
  have hr : reference ('#' :: cs) = none := reference_of_ne (starts_cons.mpr rfl)
  have hq : quoteStart ('#' :: cs) = none := quoteStart_of_ne (starts_cons.mpr rfl)
  simp only [scan, rules, List.findSome?_cons, he, ht, hi, hr, hq]
  rfl

theorem scan_comment {value : List Char} (hv : ∀ c ∈ value, isLineBreak c = false)
    (h : Starts isLineBreak rest) :
    scan .assignment ('#' :: ' ' :: (value ++ rest)) = some (.leaf .comment value, rest) := by
  rw [scan_numberSign, comment_append hv h]

theorem dropKeyword_append {word : List Char} (h : word.all (fun c => foldAscii c == c) = true)
    (cs : List Char) : dropKeyword word (word ++ cs) = some cs := by
  induction word with
  | nil => rfl
  | cons w word ih =>
    obtain ⟨hw, hword⟩ := Bool.and_eq_true_iff.mp h
    rw [List.cons_append, dropKeyword, if_pos hw, ih hword]

theorem scan_includeFlag {name : List Char} (hne : name ≠ [])
    (hn : ∀ c ∈ name, isSourceNameChar c = true) (cs : List Char) :
    scan .main ("#/include \"".toList ++ name ++ '"' :: cs) =
      some (.leaf .includeFlag name, cs) := by
  have hword : "#/include \"".toList ++ name ++ '"' :: cs =
      '#' :: '/' :: ("include".toList ++ ' ' :: '"' :: (name ++ '"' :: cs)) := by simp
  have hd : directive "include" ('/' :: ("include".toList ++ ' ' :: '"' :: (name ++ '"' :: cs))) =
      some (' ' :: '"' :: (name ++ '"' :: cs)) := dropKeyword_append (by decide) _
  have hs : takeRun isSpace ([' '] ++ '"' :: (name ++ '"' :: cs)) =
      some ([' '], '"' :: (name ++ '"' :: cs)) :=
    takeRun_append (List.cons_ne_nil _ _) (List.forall_mem_singleton.mpr rfl) (starts_cons.mpr rfl)
  have ht : takeRun isSourceNameChar (name ++ '"' :: cs) = some (name, '"' :: cs) :=
    takeRun_append hne hn (starts_cons.mpr (by decide))
  have hi : includeFlag ('#' :: '/' :: ("include".toList ++ ' ' :: '"' :: (name ++ '"' :: cs))) =
      some (.leaf .includeFlag name, cs) := by
    rw [List.singleton_append] at hs
    simp only [includeFlag, hd, hs, Option.bind_eq_bind, Option.bind_some, dropOptional,
      beq_self_eq_true, if_true, ht, Option.pure_def]
  rw [hword]
  simp only [scan, rules, List.findSome?_cons, hi]

theorem scan_assignment {name : List Char} (hne : name ≠ [])
    (hn : ∀ c ∈ name, isNameChar c = true) (cs : List Char) :
    scan .main (name ++ '=' :: cs) = some (.openAssignment name, cs.dropWhile isBlank) := by
  have hsharp : Starts (· != '#') (name ++ '=' :: cs) :=
    starts_name hne hn fun c hc => ne_of_isNameChar hc (by decide)
  have hback : Starts (· != '\\') (name ++ '=' :: cs) :=
    starts_name hne hn fun c hc => ne_of_isNameChar hc (by decide)
  have ht : takeRun isNameChar (name ++ '=' :: cs) = some (name, '=' :: cs) :=
    takeRun_append hne hn (starts_cons.mpr (by decide))
  have ha : assignment (name ++ '=' :: cs) = some (.openAssignment name, cs.dropWhile isBlank) := by
    simp [assignment, ht]
  simp [scan, rules, includeFlag_of_ne hsharp, preserveFlag_of_ne hsharp, escaped_of_ne hback, ha]

theorem not_isWhitespace_of_isNameChar {c : Char} (h : isNameChar c = true) :
    isWhitespace c = false := by
  have hn : (65 ≤ c.toNat ∧ c.toNat ≤ 90) ∨ (48 ≤ c.toNat ∧ c.toNat ≤ 57) ∨ c.toNat = 95 := by
    simp only [isNameChar, isUpper, isDigit, Bool.or_eq_true, Bool.and_eq_true, decide_eq_true_eq,
      beq_iff_eq, or_assoc] at h
    rcases h with ⟨ha, hz⟩ | ⟨ha, hz⟩ | rfl
    · exact Or.inl ⟨ha, hz⟩
    · exact Or.inr (Or.inl ⟨ha, hz⟩)
    · exact Or.inr (Or.inr rfl)
  simp only [isWhitespace, Bool.or_eq_false_iff, Bool.and_eq_false_iff, decide_eq_false_iff_not,
    beq_eq_false_iff_ne]
  omega

theorem of_isOperatorChar {p : Char → Bool} (hp : "-:/#%|?&+".toList.all p = true)
    {c : Char} (h : isOperatorChar c = true) : p c = true :=
  List.all_eq_true.mp hp c (List.contains_iff_mem.mp h)

/-- White space is skipped at top level and in references. -/
theorem scan_whitespace (hb : block = .main ∨ block = .interpolation) {c : Char}
    (hc : isWhitespace c = true) (cs : List Char) :
    scan block (c :: cs) = some (.nothing, cs.dropWhile isWhitespace) := by
  have hstart : ∀ d, isWhitespace d = false → Starts (· != d) (c :: cs) := by
    intro d hd
    refine starts_cons.mpr (bne_iff_ne.mpr ?_)
    rintro rfl
    rw [hc] at hd
    cases hd
  have he : escaped (c :: cs) = none := escaped_of_ne (hstart _ (by decide))
  have hw : whitespace (c :: cs) = some (.nothing, cs.dropWhile isWhitespace) := by
    simp [whitespace, takeRun, hc]
  rcases hb with rfl | rfl
  · have hi : includeFlag (c :: cs) = none := includeFlag_of_ne (hstart _ (by decide))
    have hp : preserveFlag (c :: cs) = none := preserveFlag_of_ne (hstart _ (by decide))
    have hname : isNameChar c = false := by
      by_contra hn
      rw [not_isWhitespace_of_isNameChar (eq_true_of_ne_false hn)] at hc
      cases hc
    have ha : assignment (c :: cs) = none :=
      assignment_of_starts (starts_cons.mpr (by rw [hname]; rfl))
    have hr : comment (c :: cs) = none := comment_of_ne (hstart _ (by decide))
    simp only [scan, rules, List.findSome?_cons, hi, hp, he, ha, hr, hw]
  · have hd : interpolationEnd (c :: cs) = none := interpolationEnd_of_ne (hstart _ (by decide))
    have hop : isOperatorChar c = false := by
      by_contra ho
      have hn : (!isWhitespace c) = true :=
        of_isOperatorChar (p := (!isWhitespace ·)) (by decide) (eq_true_of_ne_false ho)
      rw [hc] at hn
      cases hn
    have ho : operatorRun (c :: cs) = none :=
      operatorRun_of_starts (starts_cons.mpr (by rw [hop]; rfl))
    simp only [scan, rules, List.findSome?_cons, he, hd, ho, hw]

section LineEnd

variable {tail : List Char}

theorem takeRun_lineEnd (hp : ∀ c, isLineBreak c = true → p c = false)
    (h : Starts isLineBreak tail) :
    takeRun p (cs ++ tail) = (takeRun p cs).map fun (run, rest) => (run, rest ++ tail) := by
  have hs : Starts (!p ·) tail := h.imp fun c hc => by rw [hp c hc]; rfl
  cases ht : takeRun p cs with
  | some found =>
    obtain ⟨rfl, hne, hr, hrest⟩ := takeRun_eq_some_iff.mp ht
    refine takeRun_eq_some_iff.mpr ⟨List.append_assoc .., hne, hr, ?_⟩
    cases hf : found.2 with
    | nil => exact hs
    | cons c rest =>
      rw [hf] at hrest
      exact starts_cons.mpr (starts_cons.mp hrest)
  | none =>
    apply takeRun_of_starts
    cases cs with
    | nil => exact hs
    | cons c cs =>
      apply starts_cons.mpr
      by_contra hc
      have hc : p c = true := by simpa using hc
      simp [takeRun, hc] at ht

theorem dropWhile_lineEnd (hp : ∀ c, isLineBreak c = true → p c = false)
    (h : Starts isLineBreak tail) (cs : List Char) :
    (cs ++ tail).dropWhile p = cs.dropWhile p ++ tail := by
  induction cs with
  | nil => exact dropWhile_of_starts (h.imp fun c hc => by rw [hp c hc]; rfl)
  | cons c cs ih =>
    rw [List.cons_append, List.dropWhile_cons, List.dropWhile_cons, ih]
    split <;> rfl

theorem dropOptional_lineEnd {d : Char} (hd : isLineBreak d = false) (h : Starts isLineBreak tail)
    (cs : List Char) : dropOptional d (cs ++ tail) = dropOptional d cs ++ tail := by
  cases cs with
  | cons c cs =>
    rw [List.cons_append, dropOptional, dropOptional]
    split <;> rfl
  | nil =>
    cases tail with
    | nil => rfl
    | cons c tail =>
      have hc : (c == d) = false := by
        apply beq_eq_false_iff_ne.mpr
        rintro rfl
        rw [starts_cons.mp h] at hd
        cases hd
      show dropOptional d (c :: tail) = c :: tail
      rw [dropOptional, if_neg (by rw [hc]; exact Bool.false_ne_true)]

theorem dropKeyword_lineEnd {word : List Char}
    (hw : ∀ w ∈ word, ∀ c, isLineBreak c = true → (foldAscii c == w) = false)
    (h : Starts isLineBreak tail) (cs : List Char) :
    dropKeyword word (cs ++ tail) = (dropKeyword word cs).map (· ++ tail) := by
  fun_induction dropKeyword word cs with
  | case1 cs => rfl
  | case2 w word =>
    cases tail with
    | nil => rfl
    | cons c tail =>
      have hc := hw w List.mem_cons_self c (starts_cons.mp h)
      rw [List.nil_append, dropKeyword, hc]
      rfl
  | case3 w word c cs hc ih =>
    rw [List.cons_append, dropKeyword, if_pos hc, ih fun v hv => hw v (List.mem_cons_of_mem _ hv)]
  | case4 w word c cs hc =>
    rw [List.cons_append, dropKeyword, if_neg hc]
    rfl

theorem eq_of_isLineBreak {c : Char} (h : isLineBreak c = true) : c = '\n' ∨ c = '\r' := by
  simpa [isLineBreak] using h

theorem not_of_isLineBreak {p : Char → Bool} (hn : p '\n' = false) (hr : p '\r' = false)
    (c : Char) (h : isLineBreak c = true) : p c = false := by
  rcases eq_of_isLineBreak h with rfl | rfl
  · exact hn
  · exact hr

/-- A line break is not in the word, in whatever case. -/
theorem foldAscii_ne_of_isLineBreak {word : List Char}
    (h : word.all (fun w => foldAscii '\n' != w && foldAscii '\r' != w) = true) :
    ∀ w ∈ word, ∀ c, isLineBreak c = true → (foldAscii c == w) = false := by
  intro w hw c hc
  obtain ⟨hn, hr⟩ := Bool.and_eq_true_iff.mp (List.all_eq_true.mp h w hw)
  rcases eq_of_isLineBreak hc with rfl | rfl
  · exact beq_eq_false_iff_ne.mpr (bne_iff_ne.mp hn)
  · exact beq_eq_false_iff_ne.mpr (bne_iff_ne.mp hr)

theorem directive_lineEnd {word : String}
    (hw : ∀ w ∈ word.toList, ∀ c, isLineBreak c = true → (foldAscii c == w) = false)
    (h : Starts isLineBreak tail) (cs : List Char) :
    directive word (cs ++ tail) = (directive word cs).map (· ++ tail) := by
  have hspace : ∀ c, isLineBreak c = true → isSpace c = false := not_of_isLineBreak rfl rfl
  unfold directive
  rw [dropOptional_lineEnd rfl h]
  rcases dropOptional ' ' cs with _ | ⟨c, cs⟩
  · rcases tail with _ | ⟨c, tail⟩
    · rfl
    · rcases eq_of_isLineBreak (starts_cons.mp h) with rfl | rfl <;> rfl
  · by_cases hc : c = '/'
    · subst hc
      show dropKeyword word.toList ((cs ++ tail).dropWhile isSpace) =
        (dropKeyword word.toList (cs.dropWhile isSpace)).map (· ++ tail)
      rw [dropWhile_lineEnd hspace h, dropKeyword_lineEnd hw h]
    · simp [hc]

theorem includeFlag_lineEnd (h : Starts isLineBreak tail) (cs : List Char) :
    includeFlag (cs ++ tail) =
      (includeFlag cs).map fun (lexeme, rest) => (lexeme, rest ++ tail) := by
  have hw : ∀ w ∈ "include".toList, ∀ c, isLineBreak c = true → (foldAscii c == w) = false :=
    foldAscii_ne_of_isLineBreak (by decide)
  have hspace : ∀ c, isLineBreak c = true → isSpace c = false := not_of_isLineBreak rfl rfl
  have hname : ∀ c, isLineBreak c = true → isSourceNameChar c = false :=
    not_of_isLineBreak (by decide) (by decide)
  have hquote : isLineBreak '"' = false := rfl
  rcases cs with _ | ⟨c, cs⟩
  · exact includeFlag_of_ne (h.imp fun c hc => by
      rcases eq_of_isLineBreak hc with rfl | rfl <;> rfl)
  by_cases hc : c = '#'
  · subst hc
    rw [List.cons_append, includeFlag, includeFlag, directive_lineEnd hw h]
    cases directive "include" cs with
    | none => rfl
    | some first =>
      simp only [Option.map_some, Option.bind_eq_bind, Option.bind_some, takeRun_lineEnd hspace h]
      cases takeRun isSpace first with
      | none => rfl
      | some second =>
        simp only [Option.map_some, Option.bind_some, dropOptional_lineEnd hquote h,
          takeRun_lineEnd hname h]
        cases takeRun isSourceNameChar (dropOptional '"' second.2) with
        | none => rfl
        | some third => simp [dropOptional_lineEnd hquote h]
  · have hne : Starts (· != '#') (c :: cs) := starts_cons.mpr (bne_iff_ne.mpr hc)
    have hne' : Starts (· != '#') (c :: cs ++ tail) := starts_cons.mpr (bne_iff_ne.mpr hc)
    rw [includeFlag_of_ne hne, includeFlag_of_ne hne']
    rfl

theorem preserveFlag_lineEnd (h : Starts isLineBreak tail) (cs : List Char) :
    preserveFlag (cs ++ tail) =
      (preserveFlag cs).map fun (lexeme, rest) => (lexeme, rest ++ tail) := by
  have hw : ∀ w ∈ "preserve".toList, ∀ c, isLineBreak c = true → (foldAscii c == w) = false :=
    foldAscii_ne_of_isLineBreak (by decide)
  have hspace : ∀ c, isLineBreak c = true → isSpace c = false := not_of_isLineBreak rfl rfl
  rcases cs with _ | ⟨c, cs⟩
  · exact preserveFlag_of_ne
      (h.imp fun c hc => by rcases eq_of_isLineBreak hc with rfl | rfl <;> rfl)
  by_cases hc : c = '#'
  · subst hc
    rw [List.cons_append, preserveFlag, preserveFlag, directive_lineEnd hw h]
    cases directive "preserve" cs with
    | none => rfl
    | some rest => simp [dropWhile_lineEnd hspace h]
  · have hne : Starts (· != '#') (c :: cs) := starts_cons.mpr (bne_iff_ne.mpr hc)
    have hne' : Starts (· != '#') (c :: cs ++ tail) := starts_cons.mpr (bne_iff_ne.mpr hc)
    rw [preserveFlag_of_ne hne, preserveFlag_of_ne hne']
    rfl

end LineEnd

def IsDirective (cs : List Char) : Prop :=
  (includeFlag ('#' :: cs)).isSome = true ∨ (preserveFlag ('#' :: cs)).isSome = true

/-- A comment's text is not a directive, with or without the space before it. -/
theorem scan_topComment {value : List Char} (hv : ∀ c ∈ value, isLineBreak c = false)
    (hd : ¬IsDirective (' ' :: value)) (h : Starts isLineBreak rest) :
    scan .main ('#' :: ' ' :: (value ++ rest)) = some (.leaf .comment value, rest) := by
  obtain ⟨hi, hp⟩ := not_or.mp hd
  have hi : includeFlag ('#' :: ' ' :: (value ++ rest)) = none := by
    have he := includeFlag_lineEnd h ('#' :: ' ' :: value)
    rw [Option.not_isSome_iff_eq_none.mp hi] at he
    exact he
  have hp : preserveFlag ('#' :: ' ' :: (value ++ rest)) = none := by
    have he := preserveFlag_lineEnd h ('#' :: ' ' :: value)
    rw [Option.not_isSome_iff_eq_none.mp hp] at he
    exact he
  have hc := comment_append hv h
  generalize ' ' :: (value ++ rest) = text at hi hp hc
  have he : escaped ('#' :: text) = none := escaped_of_ne (starts_cons.mpr rfl)
  have ha : assignment ('#' :: text) = none := assignment_of_starts (starts_cons.mpr rfl)
  simp only [scan, rules, List.findSome?_cons, hi, hp, he, ha, hc]

theorem scan_preserveFlag (h : Starts isLineBreak rest) :
    scan .main ("#/preserve".toList ++ rest) = some (.leaf .preserveFlag [], rest) := by
  have hi : includeFlag ("#/preserve".toList ++ rest) = none := by
    rw [includeFlag_lineEnd h]
    have he : includeFlag "#/preserve".toList = none := by decide
    rw [he]
    rfl
  have hp : preserveFlag ("#/preserve".toList ++ rest) = some (.leaf .preserveFlag [], rest) := by
    rw [preserveFlag_lineEnd h]
    have he : preserveFlag "#/preserve".toList = some (.leaf .preserveFlag [], []) := by decide
    rw [he]
    rfl
  simp only [scan, rules, List.findSome?_cons, hi, hp]

end Lexeme
end LayeredEnv
