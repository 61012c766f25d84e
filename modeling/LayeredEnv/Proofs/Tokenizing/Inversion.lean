import LayeredEnv.Proofs.Tokenizing.Scan

namespace LayeredEnv

namespace Lexeme

open Text

variable {cs rest : List Char} {block : Kind} {lexeme : Lexeme}

theorem includeFlag_eq_some (h : includeFlag cs = some (lexeme, rest)) :
    ∃ tail a blanks b name d, lexeme = .leaf .includeFlag name ∧ cs = '#' :: tail ∧
      directive "include" tail = some a ∧ takeRun isSpace a = some (blanks, b) ∧
      takeRun isSourceNameChar (dropOptional '"' b) = some (name, d) ∧
      rest = dropOptional '"' d := by
  unfold includeFlag at h
  split at h
  · next tail =>
    simp only [Option.bind_eq_bind, Option.bind_eq_some_iff, Option.pure_def, Option.some.injEq,
      Prod.mk.injEq, Prod.exists] at h
    obtain ⟨a, ha, blanks, b, hb, name, d, hd, rfl, rfl⟩ := h
    exact ⟨tail, a, blanks, b, name, d, rfl, rfl, ha, hb, hd, rfl⟩
  · cases h

theorem preserveFlag_eq_some (h : preserveFlag cs = some (lexeme, rest)) :
    ∃ tail a, lexeme = .leaf .preserveFlag [] ∧ cs = '#' :: tail ∧
      directive "preserve" tail = some a ∧ rest = a.dropWhile isSpace := by
  unfold preserveFlag at h
  split at h
  · next tail =>
    simp only [Option.bind_eq_bind, Option.bind_eq_some_iff, Option.pure_def, Option.some.injEq,
      Prod.mk.injEq] at h
    obtain ⟨a, ha, rfl, rfl⟩ := h
    exact ⟨tail, a, rfl, rfl, ha, rfl⟩
  · cases h

theorem escaped_eq_some (h : escaped cs = some (lexeme, rest)) :
    ∃ c, lexeme = .text [c] ∧ cs = '\\' :: c :: rest ∧ c ≠ '\n' := by
  unfold escaped at h
  split at h
  · split at h
    · cases h
    · next c _ hn =>
      cases h
      exact ⟨c, rfl, rfl, by simpa using hn⟩
  · cases h

theorem assignment_eq_some (h : assignment cs = some (lexeme, rest)) :
    ∃ name tail, lexeme = .openAssignment name ∧
      takeRun isNameChar cs = some (name, '=' :: tail) ∧ rest = tail.dropWhile isBlank := by
  simp only [assignment, Option.bind_eq_bind, Option.bind_eq_some_iff, Prod.exists] at h
  obtain ⟨name, others, hname, h⟩ := h
  split at h
  · next tail =>
    cases h
    exact ⟨name, tail, rfl, hname, rfl⟩
  · cases h

theorem trailingBlanks_eq_some (h : trailingBlanks cs = some (lexeme, rest)) :
    ∃ blanks, lexeme = .nothing ∧ takeRun isBlank cs = some (blanks, rest) ∧
      Starts isLineBreak rest := by
  simp only [trailingBlanks, Option.bind_eq_bind, Option.bind_eq_some_iff, Prod.exists] at h
  obtain ⟨blanks, others, hblanks, h⟩ := h
  split at h
  · cases h
    exact ⟨blanks, rfl, hblanks, Starts.nil⟩
  · split at h
    · next hc =>
      cases h
      exact ⟨blanks, rfl, hblanks, starts_cons.mpr hc⟩
    · cases h

theorem interpolation_eq_some (h : interpolation cs = some (lexeme, rest)) :
    ∃ tail name b, lexeme = .openInterpolation (lengthMark (tail.dropWhile isSpace)).1 name ∧
      cs = '$' :: '{' :: tail ∧
      takeRun isNameChar (lengthMark (tail.dropWhile isSpace)).2 = some (name, b) ∧
      rest = b.dropWhile isSpace := by
  unfold interpolation at h
  split at h
  · next tail =>
    obtain ⟨⟨name, b⟩, hb, he⟩ := Option.map_eq_some_iff.mp h
    cases he
    exact ⟨tail, name, b, rfl, rfl, hb, rfl⟩
  · cases h

theorem interpolationEnd_eq_some (h : interpolationEnd cs = some (lexeme, rest)) :
    lexeme = .closeInterpolation ∧ cs = '\x7d' :: rest := by
  unfold interpolationEnd at h
  split at h
  · cases h
    exact ⟨rfl, rfl⟩
  · cases h

theorem operatorRun_eq_some (h : operatorRun cs = some (lexeme, rest)) :
    ∃ c, lexeme = .operators c (rest.head?.filter isOperatorChar) ∧ cs = c :: rest ∧
      isOperatorChar c = true := by
  unfold operatorRun at h
  split at h
  · split at h
    · next hc =>
      cases h
      exact ⟨_, rfl, rfl, hc⟩
    · cases h
  · cases h

theorem reference_eq_some (h : reference cs = some (lexeme, rest)) :
    ∃ tail name, lexeme = .leaf .interpolation name ∧ cs = '$' :: tail ∧
      takeRun isNameChar tail = some (name, rest) := by
  unfold reference at h
  split at h
  · next tail =>
    simp only [Option.bind_eq_bind, Option.bind_eq_some_iff, Option.pure_def, Option.some.injEq,
      Prod.mk.injEq, Prod.exists] at h
    obtain ⟨name, _, hname, rfl, rfl⟩ := h
    exact ⟨tail, name, rfl, rfl, hname⟩
  · cases h

theorem quoteStart_eq_some (h : quoteStart cs = some (lexeme, rest)) :
    lexeme = .openQuote ∧ cs = '"' :: rest := by
  unfold quoteStart at h
  split at h
  · cases h
    exact ⟨rfl, rfl⟩
  · cases h

theorem quoteEnd_eq_some (h : quoteEnd cs = some (lexeme, rest)) :
    lexeme = .closeQuote ∧ cs = '"' :: rest := by
  unfold quoteEnd at h
  split at h
  · cases h
    exact ⟨rfl, rfl⟩
  · cases h

theorem comment_eq_some (h : comment cs = some (lexeme, rest)) :
    ∃ tail, lexeme = .leaf .comment ((dropOptional ' ' tail).takeWhile (!isLineBreak ·)) ∧
      cs = '#' :: tail ∧ rest = (dropOptional ' ' tail).dropWhile (!isLineBreak ·) := by
  unfold comment at h
  split at h
  · next tail =>
    cases h
    exact ⟨tail, rfl, rfl, rfl⟩
  · cases h

theorem whitespace_eq_some (h : whitespace cs = some (lexeme, rest)) :
    ∃ run, lexeme = .nothing ∧ takeRun isWhitespace cs = some (run, rest) := by
  simp only [whitespace, Option.bind_eq_bind, Option.bind_eq_some_iff, Option.pure_def,
    Option.some.injEq, Prod.mk.injEq, Prod.exists] at h
  obtain ⟨run, _, hrun, rfl, rfl⟩ := h
  exact ⟨run, rfl, hrun⟩

theorem anyChar_eq_some (h : anyChar cs = some (lexeme, rest)) :
    ∃ c, lexeme = .text [c] ∧ cs = c :: rest ∧ c ≠ '\n' := by
  unfold anyChar at h
  split at h
  · split at h
    · cases h
    · next c _ hn =>
      cases h
      exact ⟨c, rfl, rfl, by simpa using hn⟩
  · cases h

theorem valueRun_eq_some (h : valueRun cs = some (lexeme, rest)) :
    ∃ run, lexeme = .text run ∧ cs = run ++ rest ∧ run ≠ [] ∧
      ∀ c ∈ run, isValueSpecial c = false := by
  unfold valueRun at h
  split at h
  · cases h
  · next hne =>
    cases h
    have hp : dropEndWhile isWhitespace (cs.takeWhile (!isValueSpecial ·)) <+:
        cs.takeWhile (!isValueSpecial ·) := List.rdropWhile_prefix isWhitespace _
    refine ⟨_, rfl, ?_, hne, fun c hc => ?_⟩
    · exact (List.prefix_iff_eq_append.mp (hp.trans (List.takeWhile_prefix _))).symm
    · simpa using List.mem_takeWhile_imp (hp.subset hc)

theorem blankRun_eq_some (h : blankRun cs = some (lexeme, rest)) :
    ∃ run, lexeme = .text run ∧ takeRun isBlank cs = some (run, rest) := by
  simp only [blankRun, Option.bind_eq_bind, Option.bind_eq_some_iff, Option.pure_def,
    Option.some.injEq, Prod.mk.injEq, Prod.exists] at h
  obtain ⟨run, _, hrun, rfl, rfl⟩ := h
  exact ⟨run, rfl, hrun⟩

theorem quotedRun_eq_some (h : quotedRun cs = some (lexeme, rest)) :
    ∃ run, lexeme = .text run ∧ cs = run ++ rest ∧ run ≠ [] := by
  unfold quotedRun at h
  split at h
  · next hrun =>
    cases h
    obtain ⟨he, hne, -⟩ := takeRun_eq_some_iff.mp hrun
    exact ⟨_, rfl, he, hne⟩
  · split at h
    · cases h
      exact ⟨_, rfl, rfl, List.cons_ne_nil _ _⟩
    · cases h

theorem argumentRun_eq_some (h : argumentRun cs = some (lexeme, rest)) :
    ∃ run, lexeme = .text run ∧ takeRun isArgumentChar cs = some (run, rest) := by
  simp only [argumentRun, Option.bind_eq_bind, Option.bind_eq_some_iff, Option.pure_def,
    Option.some.injEq, Prod.mk.injEq, Prod.exists] at h
  obtain ⟨run, _, hrun, rfl, rfl⟩ := h
  exact ⟨run, rfl, hrun⟩

theorem scan_main_cases (hs : Starts (!isWhitespace ·) cs)
    (h : scan .main cs = some (lexeme, rest)) :
    (∃ kind value, lexeme = .leaf kind value ∧ kind ≠ .text) ∨
      (∃ name, lexeme = .openAssignment name) ∨
      ∃ c, lexeme = .text [c] ∧ cs = '\\' :: c :: rest := by
  obtain ⟨rule, hm, hr⟩ := List.exists_of_findSome?_eq_some h
  simp only [rules, List.mem_cons, List.not_mem_nil, or_false] at hm
  rcases hm with rfl | rfl | rfl | rfl | rfl | rfl
  · obtain ⟨_, _, _, _, name, _, hl, -⟩ := includeFlag_eq_some hr
    exact Or.inl ⟨_, _, hl, Kind.noConfusion⟩
  · obtain ⟨_, _, hl, -⟩ := preserveFlag_eq_some hr
    exact Or.inl ⟨_, _, hl, Kind.noConfusion⟩
  · obtain ⟨c, hl, hc, -⟩ := escaped_eq_some hr
    exact Or.inr (Or.inr ⟨c, hl, hc⟩)
  · obtain ⟨name, _, hl, -⟩ := assignment_eq_some hr
    exact Or.inr (Or.inl ⟨name, hl⟩)
  · obtain ⟨_, hl, -⟩ := comment_eq_some hr
    exact Or.inl ⟨_, _, hl, Kind.noConfusion⟩
  · rw [whitespace_of_starts hs] at hr
    cases hr

theorem scan_interpolation_cases (hs : Starts (!isWhitespace ·) cs)
    (h : scan .interpolation cs = some (lexeme, rest)) :
    lexeme = .closeInterpolation ∨
      (∃ c second, lexeme = .operators c second ∧ isOperatorChar c = true) ∨
      ∃ c, lexeme = .text [c] ∧ cs = '\\' :: c :: rest := by
  obtain ⟨rule, hm, hr⟩ := List.exists_of_findSome?_eq_some h
  simp only [rules, List.mem_cons, List.not_mem_nil, or_false] at hm
  rcases hm with rfl | rfl | rfl | rfl
  · obtain ⟨c, hl, hc, -⟩ := escaped_eq_some hr
    exact Or.inr (Or.inr ⟨c, hl, hc⟩)
  · exact Or.inl (interpolationEnd_eq_some hr).1
  · obtain ⟨c, hl, -, hc⟩ := operatorRun_eq_some hr
    exact Or.inr (Or.inl ⟨c, _, hl, hc⟩)
  · rw [whitespace_of_starts hs] at hr
    cases hr

end Lexeme
end LayeredEnv
