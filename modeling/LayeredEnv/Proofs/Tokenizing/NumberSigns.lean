import LayeredEnv.Compile
import LayeredEnv.Proofs.Rendering.Misreading
import LayeredEnv.Proofs.Tokenizing.ValueMode

namespace LayeredEnv

namespace Lexeme

open Text Render

variable {cs rest : List Char} {block : Kind} {lexeme : Lexeme}

/-- How the lexemes are written behind which a value begins or goes on; `rest` is what follows. -/
def Written (cs rest : List Char) : Lexeme → Prop
  | .openAssignment name => ∃ blanks, (∀ c ∈ blanks, isBlank c = true) ∧
      cs = (name ++ '=' :: blanks) ++ rest
  | .closeInterpolation => cs = '\x7d' :: rest
  | .closeQuote => cs = '"' :: rest
  | _ => True

theorem written_of_scan (h : scan block cs = some (lexeme, rest)) : lexeme.Written cs rest := by
  obtain ⟨rule, hm, hr⟩ := List.exists_of_findSome?_eq_some h
  -- the block does not matter, for each of these lexemes has one rule in all
  have hall : rules block ⊆ [includeFlag, preserveFlag, escaped, assignment, trailingBlanks,
      interpolation, interpolationEnd, operatorRun, reference, quoteStart, quoteEnd, comment,
      whitespace, anyChar, valueRun, blankRun, quotedRun, argumentRun] := by
    cases block <;> simp [rules]
  have hm := hall hm
  simp only [List.mem_cons, List.not_mem_nil, or_false] at hm
  rcases hm with rfl | rfl | rfl | rfl | rfl | rfl | rfl | rfl | rfl | rfl | rfl | rfl | rfl | rfl |
    rfl | rfl | rfl | rfl
  · obtain ⟨_, _, _, _, _, _, rfl, -⟩ := includeFlag_eq_some hr
    trivial
  · obtain ⟨_, _, rfl, -⟩ := preserveFlag_eq_some hr
    trivial
  · obtain ⟨_, rfl, -⟩ := escaped_eq_some hr
    trivial
  · obtain ⟨name, tail, rfl, hname, rfl⟩ := assignment_eq_some hr
    refine ⟨tail.takeWhile isBlank, fun c => List.mem_takeWhile_imp, ?_⟩
    rw [List.append_assoc, List.cons_append, List.takeWhile_append_dropWhile]
    exact (takeRun_eq_some_iff.mp hname).1
  · obtain ⟨_, rfl, -⟩ := trailingBlanks_eq_some hr
    trivial
  · obtain ⟨_, _, _, rfl, -⟩ := interpolation_eq_some hr
    trivial
  · obtain ⟨rfl, he⟩ := interpolationEnd_eq_some hr
    exact he
  · obtain ⟨_, rfl, -⟩ := operatorRun_eq_some hr
    trivial
  · obtain ⟨_, _, rfl, -⟩ := reference_eq_some hr
    trivial
  · obtain ⟨rfl, -⟩ := quoteStart_eq_some hr
    trivial
  · obtain ⟨rfl, he⟩ := quoteEnd_eq_some hr
    exact he
  · obtain ⟨_, rfl, -⟩ := comment_eq_some hr
    trivial
  · obtain ⟨_, rfl, -⟩ := whitespace_eq_some hr
    trivial
  · obtain ⟨_, rfl, -⟩ := anyChar_eq_some hr
    trivial
  · obtain ⟨_, rfl, -⟩ := valueRun_eq_some hr
    trivial
  · obtain ⟨_, rfl, -⟩ := blankRun_eq_some hr
    trivial
  · obtain ⟨_, rfl, -⟩ := quotedRun_eq_some hr
    trivial
  · obtain ⟨_, rfl, -⟩ := argumentRun_eq_some hr
    trivial

/-- What a step has read that ends in front of a number sign in a value. -/
inductive BeforeComment : List Char → Prop
  | opening {name blanks : List Char} (hne : name ≠ []) (hn : ∀ c ∈ name, isNameChar c = true)
      (hb : ∀ c ∈ blanks, isBlank c = true) : BeforeComment (name ++ '=' :: blanks)
  | escape {c : Char} (hc : c ≠ '\n') : BeforeComment ['\\', c]
  /-- A dollar sign that begins no reference. -/
  | dollar : BeforeComment ['$']
  | reference {name : List Char} (hne : name ≠ []) (hn : ∀ c ∈ name, isNameChar c = true) :
      BeforeComment ('$' :: name)
  /-- The end of a reference in braces. -/
  | referenceEnd : BeforeComment ['\x7d']
  | quoteEnd : BeforeComment ['"']

/-- A run of text goes on with the number sign behind it. -/
theorem scan_run_ne {run : List Char} (hne : run ≠ [])
    (hraw : ∀ c ∈ run, isValueSpecial c = false ∧ c ≠ '#') :
    scan .assignment (run ++ '#' :: rest) ≠ some (.text run, '#' :: rest) := by
  obtain ⟨more, tail, -, hscan⟩ := scan_run_comment hne hraw rest
  rw [hscan]
  intro he
  have hl : run ++ '#' :: more = run := Lexeme.text.inj (Prod.mk.inj (Option.some.inj he)).1
  simp at hl

/-- Among what a value can be made of, these end in front of a number sign, but for what opens a
block inside the value. -/
theorem beforeComment_of_scan (hs : Starts (!isLineBreak ·) cs)
    (h : scan .assignment cs = some (lexeme, '#' :: rest)) :
    (∃ front, BeforeComment front ∧ cs = front ++ '#' :: rest) ∨ lexeme = .openQuote ∨
      ∃ isLength name, lexeme = .openInterpolation isLength name := by
  obtain ⟨rule, hm, hr⟩ := List.exists_of_findSome?_eq_some h
  simp only [rules, List.mem_cons, List.not_mem_nil, or_false] at hm
  rcases hm with rfl | rfl | rfl | rfl | rfl | rfl | rfl | rfl | rfl
  · obtain ⟨c, -, rfl, hc⟩ := escaped_eq_some hr
    exact Or.inl ⟨_, .escape hc, rfl⟩
  · obtain ⟨_, -, -, hend⟩ := trailingBlanks_eq_some hr
    exact absurd (starts_cons.mp hend) (by decide)
  · obtain ⟨_, name, _, hl, -⟩ := interpolation_eq_some hr
    exact Or.inr (Or.inr ⟨_, name, hl⟩)
  · obtain ⟨_, name, -, rfl, hname⟩ := reference_eq_some hr
    obtain ⟨rfl, hne, hn, -⟩ := takeRun_eq_some_iff.mp hname
    exact Or.inl ⟨_, .reference hne hn, rfl⟩
  · exact Or.inr (Or.inl (quoteStart_eq_some hr).1)
  · -- a comment goes on to the end of the line
    obtain ⟨tail, -, -, hrest⟩ := comment_eq_some hr
    have hend := starts_dropWhile (!isLineBreak ·) (dropOptional ' ' tail)
    rw [← hrest] at hend
    exact absurd (starts_cons.mp hend) (by decide)
  · -- the longest run has the number sign in it
    obtain ⟨run, rfl, rfl, -, hraw⟩ := valueRun_eq_some hr
    obtain ⟨more, _, -, hv⟩ := valueRun_numberSign hraw rest
    rw [hr] at hv
    have hl : run = run ++ '#' :: more := Lexeme.text.inj (Prod.mk.inj (Option.some.inj hv)).1
    simp at hl
  · obtain ⟨run, rfl, hrun⟩ := blankRun_eq_some hr
    obtain ⟨rfl, hne, hblank, -⟩ := takeRun_eq_some_iff.mp hrun
    exact absurd h (scan_run_ne hne fun c hc => isValueSpecial_of_isBlank (hblank c hc))
  · -- a character is read alone only if it is special, and of those only a dollar sign is text
    obtain ⟨c, rfl, rfl, -⟩ := anyChar_eq_some hr
    by_cases hc : isValueSpecial c = true
    · have hcases : isLineBreak c = true ∨ c = '$' ∨ c = '"' ∨ c = '\\' := by
        simpa [isValueSpecial, or_assoc] using hc
      obtain hb | rfl | rfl | rfl := hcases
      · have hnot := starts_cons.mp hs
        rw [hb] at hnot
        cases hnot
      · exact Or.inl ⟨_, .dollar, rfl⟩
      · rw [scan_quoteStart (Or.inl rfl)] at h
        cases h
      · rw [scan_escaped _ (by decide)] at h
        cases h
    · by_cases hsign : c = '#'
      · subst hsign
        rw [scan_numberSign, comment] at h
        cases h
      · refine absurd h (scan_run_ne (List.cons_ne_nil c []) fun d hd => ?_)
        rw [List.mem_singleton.mp hd]
        exact ⟨by simpa using hc, hsign⟩

end Lexeme
namespace Tokenize

open Text Lexeme Render

variable {table : OperatorTable} {blocks : Blocks} {cs rest : List Char} {start before : State}

/-- Behind each of these, and nowhere else, a step ends in front of a number sign in a value. -/
theorem beforeComment_of_next (h : before.1.Nested)
    (hn : next table before = some (blocks, '#' :: rest)) (hv : blocks.innermost = .assignment) :
    ∃ front, BeforeComment front ∧ before.2 = front ++ '#' :: rest := by
  obtain ⟨outer, cs⟩ := before
  by_cases he : AtLineEnd (outer, cs)
  · rw [next, if_pos he] at hn
    cases hn
    exact absurd he.2 (show ¬isLineBreak '#' = true by decide)
  rw [next, if_neg he] at hn
  obtain ⟨⟨lexeme, tail⟩, hscan, -⟩ := Option.map_eq_some_iff.mp hn
  have hf : lexeme.Fits outer.innermost cs tail := fits_of_scan h.isBlock hscan
  have hw : lexeme.Written cs tail := written_of_scan hscan
  rw [Blocks.step_of_scan hscan] at hn
  obtain ⟨rfl, hrest⟩ := Prod.mk.inj (Option.some.inj hn)
  -- what is read in the value itself
  have hvalue (hi : outer.innermost = .assignment) (ht : tail = '#' :: rest)
      (hq : lexeme ≠ .openQuote) (ho : ∀ isLength name, lexeme ≠ .openInterpolation isLength name) :
      ∃ front, BeforeComment front ∧ cs = front ++ '#' :: rest := by
    rw [hi, ht] at hscan
    obtain hfront | hl | ⟨_, _, hl⟩ :=
      beforeComment_of_scan (starts_of_not_atLineEnd he hi) hscan
    · exact hfront
    · exact absurd hl hq
    · exact absurd hl (ho _ _)
  -- by what the step has read: the block in front is the value, or one that has been closed in it
  cases lexeme with
  | nothing => exact hvalue hv hrest Lexeme.noConfusion fun _ _ => Lexeme.noConfusion
  | text chars =>
    have hi : outer.innermost = .assignment := (Blocks.innermost_pushText ..).symm.trans hv
    exact hvalue hi hrest Lexeme.noConfusion fun _ _ => Lexeme.noConfusion
  | leaf kind value =>
    have hi : outer.innermost = .assignment := (Blocks.innermost_push ..).symm.trans hv
    exact hvalue hi hrest Lexeme.noConfusion fun _ _ => Lexeme.noConfusion
  | openAssignment name =>
    obtain ⟨-, hne, hname⟩ := hf
    obtain ⟨blanks, hblanks, rfl⟩ := hw
    exact ⟨_, .opening hne hname hblanks, by rw [← hrest]; rfl⟩
  | openInterpolation isLength name => cases hv
  | closeInterpolation => exact ⟨_, .referenceEnd, by rw [← hrest]; exact hw⟩
  | operators first second =>
    have hne : outer.innermost ≠ .assignment := by
      rcases hf.1 with hi | hi <;> rw [hi] <;> exact Kind.noConfusion
    refine absurd hv ?_
    simp only [Blocks.apply, Blocks.operate]
    split
    · exact Kind.noConfusion
    · rw [Blocks.innermost_pushText]
      exact hne
  | openQuote => cases hv
  | closeQuote => exact ⟨_, .quoteEnd, by rw [← hrest]; exact hw⟩

/-- In a value a lexeme is read, but in front of a line break. -/
theorem next_of_scan {lexeme : Lexeme} (hv : blocks.innermost = .assignment)
    (hs : Starts (!isLineBreak ·) cs) (hscan : scan .assignment cs = some (lexeme, rest)) :
    next table (blocks, cs) =
      some ((blocks.apply table lexeme).1, rest.drop (blocks.apply table lexeme).2) := by
  have hnot : ¬AtLineEnd (blocks, cs) := by
    rintro ⟨-, hb⟩
    obtain ⟨c, hc, hbreak⟩ := (Option.any_eq_true _ _).mp hb
    have hstart : (!isLineBreak c) = true := hs c hc
    rw [hbreak] at hstart
    cases hstart
  rw [next, if_neg hnot, Blocks.step_of_scan (hv ▸ hscan)]

/-- Where a number sign comes next in a value, the rest of the line is a comment. -/
theorem next_at_numberSign (hv : blocks.innermost = .assignment) (rest : List Char) :
    ∃ value tail, dropOptional ' ' rest = value ++ tail ∧ (∀ c ∈ value, isLineBreak c = false) ∧
      Starts isLineBreak tail ∧
      next table (blocks, '#' :: rest) =
        some (blocks.push (.leaf .comment (.ofList value)), tail) := by
  refine ⟨_, _, List.takeWhile_append_dropWhile.symm, fun c hc => ?_, ?_,
    next_of_scan hv (starts_cons.mpr rfl) (scan_numberSign rest)⟩
  · simpa using List.mem_takeWhile_imp hc
  · exact (starts_dropWhile _ _).imp fun c hc => by simpa using hc

/-- In a run of text a number sign is read with what is before it. -/
theorem next_before_numberSign (hv : blocks.innermost = .assignment) {run : List Char}
    (hne : run ≠ []) (hraw : ∀ c ∈ run, isValueSpecial c = false ∧ c ≠ '#') (rest : List Char) :
    ∃ more tail, rest = more ++ tail ∧
      next table (blocks, run ++ '#' :: rest) =
        some (blocks.pushText (.ofList (run ++ '#' :: more)), tail) := by
  obtain ⟨more, tail, he, hscan⟩ := scan_run_comment hne hraw rest
  have hs : Starts (!isLineBreak ·) (run ++ '#' :: rest) :=
    starts_of_raw hne (fun c hc => (hraw c hc).1) _
  exact ⟨more, tail, he, next_of_scan hv hs hscan⟩

/-- A number sign in an unquoted value. Where the tokenizer stands in front of it, it begins a
comment; and there it stands at the start of the value only, and behind an escape, a lone dollar
sign, a reference and a closing quote. Behind a character of a run of text, which may be a blank, it
is text of the value as that character is. -/
theorem reaches_numberSign (h : start.1.Nested) (hr : Reaches table start (blocks, cs))
    (hv : blocks.innermost = .assignment) :
    (∀ rest, cs = '#' :: rest →
      (∃ value tail, dropOptional ' ' rest = value ++ tail ∧
        (∀ c ∈ value, isLineBreak c = false) ∧ Starts isLineBreak tail ∧
        next table (blocks, cs) = some (blocks.push (.leaf .comment (.ofList value)), tail)) ∧
      (start = (blocks, cs) ∨ ∃ outer front, BeforeComment front ∧
        Reaches table start (outer, front ++ cs) ∧
        next table (outer, front ++ cs) = some (blocks, cs))) ∧
    ∀ run rest, run ≠ [] → (∀ c ∈ run, isValueSpecial c = false ∧ c ≠ '#') →
      cs = run ++ '#' :: rest →
      ∃ more tail, rest = more ++ tail ∧
        next table (blocks, cs) = some (blocks.pushText (.ofList (run ++ '#' :: more)), tail) := by
  -- a run of text goes on over a number sign; only where a step ends before one a comment begins
  refine ⟨?_, fun run rest hne hraw he => he ▸ next_before_numberSign hv hne hraw rest⟩
  rintro rest rfl
  refine ⟨next_at_numberSign hv rest, hr.cases_tail.imp_right ?_⟩
  rintro ⟨⟨outer, text⟩, hbefore, hnext⟩
  obtain ⟨front, hfront, rfl⟩ := beforeComment_of_next (hbefore.nested h) hnext hv
  exact ⟨outer, front, hfront, hbefore, hnext⟩

def behindReference : Blocks := (Blocks.assigning "N").push (.node .interpolation "H" false [])

theorem reaches_numberSign_behindReference :
    (Reaches .standard ({}, "N=$\x7bH\x7d#top".toList) (behindReference, '#' :: "top".toList) ∧
      ∃ value tail, dropOptional ' ' "top".toList = value ++ tail ∧
        (∀ c ∈ value, isLineBreak c = false) ∧ Starts isLineBreak tail ∧
        next .standard (behindReference, '#' :: "top".toList) =
          some (behindReference.push (.leaf .comment (.ofList value)), tail)) ∧
    Reaches .standard ({}, "N=a #b".toList) (Blocks.assigning "N", ['a', ' '] ++ '#' :: ['b']) ∧
      ∃ more tail, ['b'] = more ++ tail ∧
        next .standard (Blocks.assigning "N", ['a', ' '] ++ '#' :: ['b']) =
          some ((Blocks.assigning "N").pushText (.ofList (['a', ' '] ++ '#' :: more)), tail) := by
  have hstart : Blocks.Nested {} := trivial
  have hsign : Reaches .standard ({}, "N=$\x7bH\x7d#top".toList)
      (behindReference, '#' :: "top".toList) := ⟨3, by cbv⟩
  have htext : Reaches .standard ({}, "N=a #b".toList)
      (Blocks.assigning "N", ['a', ' '] ++ '#' :: ['b']) := ⟨1, by cbv⟩
  have hraw : ∀ c ∈ ['a', ' '], isValueSpecial c = false ∧ c ≠ '#' := by
    simp [isValueSpecial, isLineBreak]
  exact ⟨⟨hsign, ((reaches_numberSign hstart hsign rfl).1 "top".toList rfl).1⟩, htext,
    (reaches_numberSign hstart htext rfl).2 ['a', ' '] ['b'] (List.cons_ne_nil _ _) hraw rfl⟩

end Tokenize

/-- Behind a reference the number sign is not part of the value, as it is behind other text. -/
theorem compile_numberSign_fails_behindReference :
    let environment : Environment := .ofList [("H", "h"), ("N", "h")]
    let expected : Environment := .ofList [("H", "h"), ("N", "h#top")]
    Compile.text "H=h\nN=$\x7bH\x7d#top" (Sources.provider []) = .ok environment ∧
      Compile.text "H=h\nN=h#top" (Sources.provider []) = .ok expected ∧
      environment.get? "N" ≠ expected.get? "N" := by
  intro environment expected
  exact ⟨by cbv, by cbv, by decide⟩

end LayeredEnv
