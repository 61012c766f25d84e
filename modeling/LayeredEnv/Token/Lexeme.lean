import LayeredEnv.Text.Class
import LayeredEnv.Token.Basic

namespace LayeredEnv

inductive Lexeme where
  /-- White space that no token keeps. -/
  | nothing
  | text (chars : List Char)
  /-- A token that has nothing below it. -/
  | leaf (kind : Kind) (value : List Char)
  | openAssignment (name : List Char)
  | openInterpolation (isLength : Bool) (name : List Char)
  | closeInterpolation
  /-- An operator character, and the next one if it is an operator character too. Only the first
  has been taken. -/
  | operators (first : Char) (second : Option Char)
  | openQuote
  | closeQuote
  deriving DecidableEq, Repr

namespace Lexeme

abbrev Scanner : Type := List Char → Option (Lexeme × List Char)

def isSourceNameChar (c : Char) : Bool :=
  Text.isAlphanumeric c || c == '-' || c == '_' || c == '.' || c == '$' || c == '%'

def isOperatorChar (c : Char) : Bool := "-:/#%|?&+".toList.contains c

def isValueSpecial (c : Char) : Bool :=
  Text.isLineBreak c || c == '$' || c == '"' || c == '\\'

def isQuotedSpecial (c : Char) : Bool := c == '$' || c == '"' || c == '\\'

/-- The characters that an argument takes in runs; others come one at a time. -/
def isArgumentChar (c : Char) : Bool := Text.isAlphanumeric c || c == '_' || c == ' '

def isSpace (c : Char) : Bool := c == ' '

def dropOptional (c : Char) : List Char → List Char
  | [] => []
  | d :: cs => if d == c then cs else d :: cs

def takeRun (p : Char → Bool) (cs : List Char) : Option (List Char × List Char) :=
  match cs.takeWhile p with
  | [] => none
  | run => some (run, cs.dropWhile p)

def directive (word : String) (cs : List Char) : Option (List Char) :=
  match dropOptional ' ' cs with
  | '/' :: cs => Text.dropKeyword word.toList (cs.dropWhile isSpace)
  | _ => none

/-- The directive `include`, a space and a source name, which may be quoted on either side. -/
def includeFlag : Scanner
  | '#' :: cs => do
    let (_, cs) ← takeRun isSpace (← directive "include" cs)
    let (name, cs) ← takeRun isSourceNameChar (dropOptional '"' cs)
    return (leaf .includeFlag name, dropOptional '"' cs)
  | _ => none

def preserveFlag : Scanner
  | '#' :: cs => do
    let cs ← directive "preserve" cs
    return (leaf .preserveFlag [], cs.dropWhile isSpace)
  | _ => none

/-- A backslash makes any character but a line feed literal. -/
def escaped : Scanner
  | '\\' :: c :: cs => if c == '\n' then none else some (text [c], cs)
  | _ => none

def assignment : Scanner := fun cs => do
  let (name, cs) ← takeRun Text.isNameChar cs
  match cs with
  | '=' :: cs => return (openAssignment name, cs.dropWhile Text.isBlank)
  | _ => none

def trailingBlanks : Scanner := fun cs => do
  let (_, rest) ← takeRun Text.isBlank cs
  match rest with
  | [] => return (nothing, [])
  | c :: _ => if Text.isLineBreak c then return (nothing, rest) else none

def lengthMark : List Char → Bool × List Char
  | '#' :: cs => (true, cs.dropWhile isSpace)
  | cs => (false, cs)

def interpolation : Scanner
  | '$' :: '{' :: cs =>
    let marked := lengthMark (cs.dropWhile isSpace)
    (takeRun Text.isNameChar marked.2).map fun (name, cs) =>
      (openInterpolation marked.1 name, cs.dropWhile isSpace)
  | _ => none

def interpolationEnd : Scanner
  | '}' :: cs => some (closeInterpolation, cs)
  | _ => none

/-- An operator character, with a look at the one after it. -/
def operatorRun : Scanner
  | c :: cs =>
    if isOperatorChar c then some (operators c (cs.head?.filter isOperatorChar), cs) else none
  | [] => none

def reference : Scanner
  | '$' :: cs => do
    let (name, cs) ← takeRun Text.isNameChar cs
    return (leaf .interpolation name, cs)
  | _ => none

def quoteStart : Scanner
  | '"' :: cs => some (openQuote, cs)
  | _ => none

def quoteEnd : Scanner
  | '"' :: cs => some (closeQuote, cs)
  | _ => none

/-- A number sign and the rest of the line, less one space after the sign. -/
def comment : Scanner
  | '#' :: cs =>
    let cs := dropOptional ' ' cs
    some (leaf .comment (cs.takeWhile (!Text.isLineBreak ·)), cs.dropWhile (!Text.isLineBreak ·))
  | _ => none

def whitespace : Scanner := fun cs => do
  let (_, cs) ← takeRun Text.isWhitespace cs
  return (nothing, cs)

def anyChar : Scanner
  | c :: cs => if c == '\n' then none else some (text [c], cs)
  | [] => none

/-- The longest text without special characters that does not end in white space. -/
def valueRun : Scanner := fun cs =>
  match Text.dropEndWhile Text.isWhitespace (cs.takeWhile (!isValueSpecial ·)) with
  | [] => none
  | run => some (text run, cs.drop run.length)

def blankRun : Scanner := fun cs => do
  let (run, cs) ← takeRun Text.isBlank cs
  return (text run, cs)

def quotedRun : Scanner := fun cs =>
  match takeRun (!isQuotedSpecial ·) cs with
  | some (run, cs) => some (text run, cs)
  | none =>
    match cs with
    | c :: cs => some (text [c], cs)
    | [] => none

def argumentRun : Scanner := fun cs => do
  let (run, cs) ← takeRun isArgumentChar cs
  return (text run, cs)

/-- The rules inside a block, in order. The end of a value is not among them, for it takes no
character. -/
def rules : Kind → List Scanner
  | .assignment =>
    [escaped, trailingBlanks, interpolation, reference, quoteStart, comment, valueRun, blankRun,
      anyChar]
  | .interpolation => [escaped, interpolationEnd, operatorRun, whitespace]
  | .expression =>
    [escaped, interpolation, interpolationEnd, operatorRun, reference, quoteStart, argumentRun,
      anyChar]
  | .quoted => [escaped, interpolation, reference, quoteEnd, quotedRun]
  | _ => [includeFlag, preserveFlag, escaped, assignment, comment, whitespace]

def scan (block : Kind) : Scanner := fun cs => (rules block).findSome? (· cs)

def Advances (scanner : Scanner) : Prop :=
  ∀ {cs rest lexeme}, scanner cs = some (lexeme, rest) → rest.length < cs.length

theorem length_dropOptional_le (c : Char) (cs : List Char) :
    (dropOptional c cs).length ≤ cs.length := by
  cases cs with
  | nil => simp [dropOptional]
  | cons d cs => rw [dropOptional]; split <;> simp

theorem length_of_takeRun {p : Char → Bool} {cs run rest : List Char}
    (h : takeRun p cs = some (run, rest)) : rest.length < cs.length := by
  unfold takeRun at h
  split at h
  · cases h
  · next hr =>
    simp only [Option.some.injEq, Prod.mk.injEq] at h
    have hl := congrArg List.length (List.takeWhile_append_dropWhile (p := p) (l := cs))
    have hp : 0 < (cs.takeWhile p).length := by
      cases he : cs.takeWhile p with
      | nil => exact absurd he hr
      | cons => simp
    rw [List.length_append] at hl
    rw [← h.2]
    omega

theorem length_of_directive {word : String} {cs rest : List Char}
    (h : directive word cs = some rest) : rest.length < cs.length := by
  unfold directive at h
  split at h
  · next tail hd =>
    have h1 := length_dropOptional_le ' ' cs
    have h2 := Text.dropKeyword_length_le h
    have h3 := Text.length_dropWhile_le isSpace tail
    rw [hd, List.length_cons] at h1
    omega
  · cases h

theorem length_dropWhile_le (p : Char → Bool) (cs : List Char) :
    (cs.dropWhile p).length ≤ cs.length := Text.length_dropWhile_le p cs

theorem includeFlag_advances : Advances includeFlag := by
  intro cs rest lexeme h
  unfold includeFlag at h
  split at h
  · next cs =>
    simp only [Option.bind_eq_bind, Option.bind_eq_some_iff, Option.pure_def, Option.some.injEq,
      Prod.mk.injEq, Prod.exists] at h
    obtain ⟨a, ha, _, b, hb, _, d, hd, -, rfl⟩ := h
    have := length_of_directive ha
    have := length_of_takeRun hb
    have := length_of_takeRun hd
    have := length_dropOptional_le '"' b
    have := length_dropOptional_le '"' d
    simp only [List.length_cons]
    omega
  · cases h

theorem preserveFlag_advances : Advances preserveFlag := by
  intro cs rest lexeme h
  unfold preserveFlag at h
  split at h
  · simp only [Option.bind_eq_bind, Option.bind_eq_some_iff, Option.pure_def, Option.some.injEq,
      Prod.mk.injEq] at h
    obtain ⟨a, ha, -, rfl⟩ := h
    have := length_of_directive ha
    have := length_dropWhile_le isSpace a
    simp only [List.length_cons]
    omega
  · cases h

theorem escaped_advances : Advances escaped := by
  intro cs rest lexeme h
  unfold escaped at h
  split at h
  · split at h
    · cases h
    · simp only [Option.some.injEq, Prod.mk.injEq] at h
      simp only [← h.2, List.length_cons]
      omega
  · cases h

theorem assignment_advances : Advances assignment := by
  intro cs rest lexeme h
  simp only [assignment, Option.bind_eq_bind, Option.bind_eq_some_iff, Prod.exists] at h
  obtain ⟨_, a, ha, h⟩ := h
  have := length_of_takeRun ha
  split at h
  · next tail =>
    simp only [Option.pure_def, Option.some.injEq, Prod.mk.injEq] at h
    have := length_dropWhile_le Text.isBlank tail
    simp only [List.length_cons, ← h.2] at *
    omega
  · cases h

theorem trailingBlanks_advances : Advances trailingBlanks := by
  intro cs rest lexeme h
  simp only [trailingBlanks, Option.bind_eq_bind, Option.bind_eq_some_iff, Prod.exists] at h
  obtain ⟨_, a, ha, h⟩ := h
  have := length_of_takeRun ha
  split at h
  · simp_all
  · split at h
    · simp only [Option.pure_def, Option.some.injEq, Prod.mk.injEq] at h
      rwa [h.2] at this
    · cases h

theorem length_lengthMark_le (cs : List Char) : (lengthMark cs).2.length ≤ cs.length := by
  unfold lengthMark
  split
  · next tail =>
    have := length_dropWhile_le isSpace tail
    simp only [List.length_cons]
    omega
  · exact Nat.le_refl _

theorem interpolation_advances : Advances interpolation := by
  intro cs rest lexeme h
  unfold interpolation at h
  split at h
  · next tail =>
    obtain ⟨⟨_, b⟩, hb, hr⟩ := Option.map_eq_some_iff.mp h
    have := length_dropWhile_le isSpace tail
    have := length_lengthMark_le (tail.dropWhile isSpace)
    have := length_of_takeRun hb
    have := length_dropWhile_le isSpace b
    simp only [Prod.mk.injEq] at hr
    simp only [List.length_cons, ← hr.2]
    omega
  · cases h

theorem interpolationEnd_advances : Advances interpolationEnd := by
  intro cs rest lexeme h
  unfold interpolationEnd at h
  split at h <;> simp_all

theorem operatorRun_advances : Advances operatorRun := by
  intro cs rest lexeme h
  unfold operatorRun at h
  split at h
  · split at h <;> simp_all
  · cases h

theorem reference_advances : Advances reference := by
  intro cs rest lexeme h
  unfold reference at h
  split at h
  · simp only [Option.bind_eq_bind, Option.bind_eq_some_iff, Option.pure_def, Option.some.injEq,
      Prod.mk.injEq, Prod.exists] at h
    obtain ⟨_, b, hb, -, rfl⟩ := h
    have := length_of_takeRun hb
    simp only [List.length_cons]
    omega
  · cases h

theorem quoteStart_advances : Advances quoteStart := by
  intro cs rest lexeme h
  unfold quoteStart at h
  split at h <;> simp_all

theorem quoteEnd_advances : Advances quoteEnd := by
  intro cs rest lexeme h
  unfold quoteEnd at h
  split at h <;> simp_all

theorem comment_advances : Advances comment := by
  intro cs rest lexeme h
  unfold comment at h
  split at h
  · next tail =>
    simp only [Option.some.injEq, Prod.mk.injEq] at h
    have := length_dropOptional_le ' ' tail
    have := length_dropWhile_le (!Text.isLineBreak ·) (dropOptional ' ' tail)
    simp only [List.length_cons, ← h.2]
    omega
  · cases h

theorem whitespace_advances : Advances whitespace := by
  intro cs rest lexeme h
  simp only [whitespace, Option.bind_eq_bind, Option.bind_eq_some_iff, Option.pure_def,
    Option.some.injEq, Prod.mk.injEq, Prod.exists] at h
  obtain ⟨_, b, hb, -, rfl⟩ := h
  exact length_of_takeRun hb

theorem anyChar_advances : Advances anyChar := by
  intro cs rest lexeme h
  unfold anyChar at h
  split at h
  · split at h <;> simp_all
  · cases h

theorem valueRun_advances : Advances valueRun := by
  intro cs rest lexeme h
  unfold valueRun at h
  split at h
  · cases h
  · next run hne =>
    simp only [Option.some.injEq, Prod.mk.injEq] at h
    have hp : 0 < cs.length := by
      cases cs with
      | nil => simp [Text.dropEndWhile] at hne
      | cons => simp
    have hr : 0 < (Text.dropEndWhile Text.isWhitespace
        (cs.takeWhile (!isValueSpecial ·))).length := by
      cases he : Text.dropEndWhile Text.isWhitespace (cs.takeWhile (!isValueSpecial ·)) with
      | nil => exact absurd he hne
      | cons => simp
    rw [← h.2, List.length_drop]
    omega

theorem blankRun_advances : Advances blankRun := by
  intro cs rest lexeme h
  simp only [blankRun, Option.bind_eq_bind, Option.bind_eq_some_iff, Option.pure_def,
    Option.some.injEq, Prod.mk.injEq, Prod.exists] at h
  obtain ⟨_, b, hb, -, rfl⟩ := h
  exact length_of_takeRun hb

theorem quotedRun_advances : Advances quotedRun := by
  intro cs rest lexeme h
  unfold quotedRun at h
  split at h
  · next hb =>
    simp only [Option.some.injEq, Prod.mk.injEq] at h
    exact h.2 ▸ length_of_takeRun hb
  · split at h <;> simp_all

theorem argumentRun_advances : Advances argumentRun := by
  intro cs rest lexeme h
  simp only [argumentRun, Option.bind_eq_bind, Option.bind_eq_some_iff, Option.pure_def,
    Option.some.injEq, Prod.mk.injEq, Prod.exists] at h
  obtain ⟨_, b, hb, -, rfl⟩ := h
  exact length_of_takeRun hb

theorem rules_advance (block : Kind) : ∀ rule ∈ rules block, Advances rule := by
  have top : ∀ rule ∈ rules .main, Advances rule := by
    simp only [rules, List.forall_mem_cons]
    exact ⟨includeFlag_advances, preserveFlag_advances, escaped_advances, assignment_advances,
      comment_advances, whitespace_advances, by simp⟩
  cases block with
  | assignment =>
    simp only [rules, List.forall_mem_cons]
    exact ⟨escaped_advances, trailingBlanks_advances, interpolation_advances, reference_advances,
      quoteStart_advances, comment_advances, valueRun_advances, blankRun_advances,
      anyChar_advances, by simp⟩
  | interpolation =>
    simp only [rules, List.forall_mem_cons]
    exact ⟨escaped_advances, interpolationEnd_advances, operatorRun_advances,
      whitespace_advances, by simp⟩
  | expression =>
    simp only [rules, List.forall_mem_cons]
    exact ⟨escaped_advances, interpolation_advances, interpolationEnd_advances,
      operatorRun_advances, reference_advances, quoteStart_advances, argumentRun_advances,
      anyChar_advances, by simp⟩
  | quoted =>
    simp only [rules, List.forall_mem_cons]
    exact ⟨escaped_advances, interpolation_advances, reference_advances, quoteEnd_advances,
      quotedRun_advances, by simp⟩
  | main | text | comment | includeFlag | preserveFlag => exact top

theorem length_of_scan {block : Kind} {cs rest : List Char} {lexeme : Lexeme}
    (h : scan block cs = some (lexeme, rest)) : rest.length < cs.length := by
  obtain ⟨rule, hm, hr⟩ := List.exists_of_findSome?_eq_some h
  exact rules_advance block rule hm hr

end Lexeme
end LayeredEnv
