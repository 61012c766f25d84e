import LayeredEnv.Proofs.Tokenizing.Inversion

namespace LayeredEnv

def Kind.contents : Kind → List Kind
  | .main => [.includeFlag, .preserveFlag, .comment, .assignment, .text]
  | .assignment => [.text, .quoted, .interpolation, .comment]
  | .interpolation => [.text, .expression]
  | .expression => [.text, .quoted, .interpolation]
  | .quoted => [.text, .interpolation]
  | .text | .comment | .includeFlag | .preserveFlag => []

theorem Kind.parent_of_quoted {parent : Kind} (h : .quoted ∈ parent.contents) :
    parent = .assignment ∨ parent = .expression := by
  revert h
  cases parent <;> decide

theorem Kind.parent_of_comment {parent : Kind} (h : .comment ∈ parent.contents) :
    parent = .main ∨ parent = .assignment := by
  revert h
  cases parent <;> decide

theorem Kind.parent_of_assignment {parent : Kind} (h : .assignment ∈ parent.contents) :
    parent = .main := by
  revert h
  cases parent <;> decide

theorem Kind.parent_of_expression {parent : Kind} (h : .expression ∈ parent.contents) :
    parent = .interpolation := by
  revert h
  cases parent <;> decide

/-- The texts that a token has, by its own kind and that of its parent. -/
def Wording (parent : Kind) : Kind → List Char → Prop
  | .text, value => value ≠ [] ∧ (parent ≠ .quoted → '\n' ∉ value)
  | .comment, value => (∀ c ∈ value, Text.isLineBreak c = false) ∧
      (parent = .main → ¬Lexeme.IsDirective (' ' :: value))
  | .assignment, value | .interpolation, value =>
    value ≠ [] ∧ ∀ c ∈ value, Text.isNameChar c = true
  | .includeFlag, value => value ≠ [] ∧ ∀ c ∈ value, Lexeme.isSourceNameChar c = true
  | .expression, value => value ≠ [] ∧ ∀ c ∈ value, Lexeme.isOperatorChar c = true
  | .main, value | .quoted, value | .preserveFlag, value => value = []

namespace Lexeme

open Text

def IsBlock (block : Kind) : Prop :=
  block = .main ∨ block = .assignment ∨ block = .interpolation ∨ block = .expression ∨
    block = .quoted

/-- What a lexeme can be inside a block, read from `cs` with `rest` behind it. -/
def Fits (block : Kind) (cs rest : List Char) : Lexeme → Prop
  | .nothing => block ≠ .expression ∧ block ≠ .quoted
  | .text chars => .text ∈ block.contents ∧ Wording block .text chars
  | .leaf kind value => kind ∈ block.contents ∧ Wording block kind value ∧
      kind ∈ [.includeFlag, .preserveFlag, .comment, .interpolation] ∧
      (kind = .comment → Starts isLineBreak rest)
  | .openAssignment name => .assignment ∈ block.contents ∧ Wording block .assignment name
  | .openInterpolation _ name => .interpolation ∈ block.contents ∧ Wording block .interpolation name
  | .closeInterpolation => block = .interpolation ∨ block = .expression
  | .operators first second => (block = .interpolation ∨ block = .expression) ∧
      isOperatorChar first = true ∧ second = rest.head?.filter isOperatorChar ∧ cs = first :: rest
  | .openQuote => .quoted ∈ block.contents
  | .closeQuote => block = .quoted

variable {block : Kind} {cs rest : List Char} {lexeme : Lexeme}

/-- A run of a class without the line feed. -/
theorem run_fits {p : Char → Bool} {run : List Char} (hb : .text ∈ block.contents)
    (hp : p '\n' = false) (hne : run ≠ []) (hr : ∀ c ∈ run, p c = true) :
    Fits block cs rest (.text run) := by
  refine ⟨hb, hne, fun _ hm => ?_⟩
  have hn := hr _ hm
  rw [hp] at hn
  cases hn

theorem char_fits {c : Char} (hb : .text ∈ block.contents) (hc : c ≠ '\n') :
    Fits block cs rest (.text [c]) := by
  apply run_fits hb (p := (· != '\n')) rfl (List.cons_ne_nil _ _)
  intro d hd
  rw [List.mem_singleton.mp hd]
  exact bne_iff_ne.mpr hc

theorem includeFlag_fits (hb : block = .main) (h : includeFlag cs = some (lexeme, rest)) :
    lexeme.Fits block cs rest := by
  obtain ⟨_, _, _, _, name, _, rfl, -, -, -, hn, -⟩ := includeFlag_eq_some h
  obtain ⟨-, hne, hc, -⟩ := takeRun_eq_some_iff.mp hn
  subst hb
  exact ⟨by decide, ⟨hne, hc⟩, by decide, fun he => by cases he⟩

theorem preserveFlag_fits (hb : block = .main) (h : preserveFlag cs = some (lexeme, rest)) :
    lexeme.Fits block cs rest := by
  obtain ⟨_, _, rfl, -⟩ := preserveFlag_eq_some h
  subst hb
  exact ⟨by decide, rfl, by decide, fun he => by cases he⟩

theorem escaped_fits (hb : .text ∈ block.contents) (h : escaped cs = some (lexeme, rest)) :
    lexeme.Fits block cs rest := by
  obtain ⟨c, rfl, -, hn⟩ := escaped_eq_some h
  exact char_fits hb hn

theorem assignment_fits (hb : block = .main) (h : assignment cs = some (lexeme, rest)) :
    lexeme.Fits block cs rest := by
  obtain ⟨name, _, rfl, hn, -⟩ := assignment_eq_some h
  obtain ⟨-, hne, hc, -⟩ := takeRun_eq_some_iff.mp hn
  subst hb
  exact ⟨by decide, hne, hc⟩

theorem trailingBlanks_fits (hb : block = .assignment)
    (h : trailingBlanks cs = some (lexeme, rest)) : lexeme.Fits block cs rest := by
  obtain ⟨_, rfl, -⟩ := trailingBlanks_eq_some h
  subst hb
  exact ⟨by decide, by decide⟩

theorem interpolation_fits (hb : .interpolation ∈ block.contents)
    (h : interpolation cs = some (lexeme, rest)) : lexeme.Fits block cs rest := by
  obtain ⟨_, name, _, rfl, -, hn, -⟩ := interpolation_eq_some h
  obtain ⟨-, hne, hc, -⟩ := takeRun_eq_some_iff.mp hn
  exact ⟨hb, hne, hc⟩

theorem interpolationEnd_fits (hb : block = .interpolation ∨ block = .expression)
    (h : interpolationEnd cs = some (lexeme, rest)) : lexeme.Fits block cs rest := by
  obtain ⟨rfl, -⟩ := interpolationEnd_eq_some h
  exact hb

theorem operatorRun_fits (hb : block = .interpolation ∨ block = .expression)
    (h : operatorRun cs = some (lexeme, rest)) : lexeme.Fits block cs rest := by
  obtain ⟨c, rfl, rfl, hc⟩ := operatorRun_eq_some h
  exact ⟨hb, hc, rfl, rfl⟩

theorem reference_fits (hb : .interpolation ∈ block.contents)
    (h : reference cs = some (lexeme, rest)) : lexeme.Fits block cs rest := by
  obtain ⟨_, name, rfl, -, hn⟩ := reference_eq_some h
  obtain ⟨-, hne, hc, -⟩ := takeRun_eq_some_iff.mp hn
  exact ⟨hb, ⟨hne, hc⟩, by decide, fun he => by cases he⟩

theorem quoteStart_fits (hb : .quoted ∈ block.contents) (h : quoteStart cs = some (lexeme, rest)) :
    lexeme.Fits block cs rest := by
  obtain ⟨rfl, -⟩ := quoteStart_eq_some h
  exact hb

theorem quoteEnd_fits (hb : block = .quoted) (h : quoteEnd cs = some (lexeme, rest)) :
    lexeme.Fits block cs rest := by
  obtain ⟨rfl, -⟩ := quoteEnd_eq_some h
  exact hb

/-- A comment that no directive's rule has taken is no directive. -/
theorem comment_fits (hb : .comment ∈ block.contents)
    (hd : block = .main → includeFlag cs = none ∧ preserveFlag cs = none)
    (h : comment cs = some (lexeme, rest)) : lexeme.Fits block cs rest := by
  obtain ⟨cs, rfl, rfl, rfl⟩ := comment_eq_some h
  have hrest : Starts isLineBreak ((dropOptional ' ' cs).dropWhile (!isLineBreak ·)) :=
    (starts_dropWhile _ _).imp fun c hc => by simpa using hc
  have hsplit :=
    List.takeWhile_append_dropWhile (p := (!isLineBreak ·)) (l := dropOptional ' ' cs)
  refine ⟨hb, ⟨fun c hc => by simpa using List.mem_takeWhile_imp hc, fun hm => ?_⟩, by decide,
    fun _ => hrest⟩
  -- one space more or less before the value makes no directive of it
  obtain ⟨hi, hp⟩ := hd hm
  generalize (dropOptional ' ' cs).takeWhile (!isLineBreak ·) = value at hsplit
  generalize (dropOptional ' ' cs).dropWhile (!isLineBreak ·) = tail at hsplit hrest
  have hspace : dropOptional ' ' (' ' :: value ++ tail) = dropOptional ' ' cs := hsplit
  have hi' : includeFlag ('#' :: ' ' :: value ++ tail) = none := by
    rw [List.cons_append, includeFlag, directive, hspace]
    exact hi
  have hp' : preserveFlag ('#' :: ' ' :: value ++ tail) = none := by
    rw [List.cons_append, preserveFlag, directive, hspace]
    exact hp
  rw [includeFlag_lineEnd hrest, Option.map_eq_none_iff] at hi'
  rw [preserveFlag_lineEnd hrest, Option.map_eq_none_iff] at hp'
  rintro (hs | hs)
  · rw [hi'] at hs
    cases hs
  · rw [hp'] at hs
    cases hs

theorem whitespace_fits (hb : block = .main ∨ block = .interpolation)
    (h : whitespace cs = some (lexeme, rest)) : lexeme.Fits block cs rest := by
  obtain ⟨_, rfl, -⟩ := whitespace_eq_some h
  rcases hb with rfl | rfl <;> exact ⟨by decide, by decide⟩

theorem anyChar_fits (hb : .text ∈ block.contents) (h : anyChar cs = some (lexeme, rest)) :
    lexeme.Fits block cs rest := by
  obtain ⟨c, rfl, -, hn⟩ := anyChar_eq_some h
  exact char_fits hb hn

theorem valueRun_fits (hb : .text ∈ block.contents) (h : valueRun cs = some (lexeme, rest)) :
    lexeme.Fits block cs rest := by
  obtain ⟨run, rfl, -, hne, hr⟩ := valueRun_eq_some h
  exact run_fits hb (p := (!isValueSpecial ·)) rfl hne fun c hc => by rw [hr c hc]; rfl

theorem blankRun_fits (hb : .text ∈ block.contents) (h : blankRun cs = some (lexeme, rest)) :
    lexeme.Fits block cs rest := by
  obtain ⟨run, rfl, hr⟩ := blankRun_eq_some h
  obtain ⟨-, hne, hc, -⟩ := takeRun_eq_some_iff.mp hr
  exact run_fits hb (by decide) hne hc

theorem argumentRun_fits (hb : .text ∈ block.contents) (h : argumentRun cs = some (lexeme, rest)) :
    lexeme.Fits block cs rest := by
  obtain ⟨run, rfl, hr⟩ := argumentRun_eq_some h
  obtain ⟨-, hne, hc, -⟩ := takeRun_eq_some_iff.mp hr
  exact run_fits hb (by decide) hne hc

theorem quotedRun_fits (hb : block = .quoted) (h : quotedRun cs = some (lexeme, rest)) :
    lexeme.Fits block cs rest := by
  subst hb
  obtain ⟨run, rfl, -, hne⟩ := quotedRun_eq_some h
  exact ⟨by decide, hne, fun hn => absurd rfl hn⟩

theorem fits_of_scan (hb : IsBlock block) (h : scan block cs = some (lexeme, rest)) :
    lexeme.Fits block cs rest := by
  unfold scan at h
  rcases hb with rfl | rfl | rfl | rfl | rfl
  · -- a comment is read only where the rules for directives have failed
    simp only [rules, List.findSome?_cons, List.findSome?_nil] at h
    cases hi : includeFlag cs with
    | some found => rw [hi] at h; cases h; exact includeFlag_fits rfl hi
    | none =>
    cases hp : preserveFlag cs with
    | some found => rw [hi, hp] at h; cases h; exact preserveFlag_fits rfl hp
    | none =>
    rw [hi, hp] at h
    simp only at h
    split at h
    · next he => cases h; exact escaped_fits (by decide) he
    · split at h
      · next ha => cases h; exact assignment_fits rfl ha
      · split at h
        · next hc => cases h; exact comment_fits (by decide) (fun _ => ⟨hi, hp⟩) hc
        · split at h
          · next hw => cases h; exact whitespace_fits (Or.inl rfl) hw
          · cases h
  all_goals
    obtain ⟨rule, hm, hr⟩ := List.exists_of_findSome?_eq_some h
    simp only [rules, List.mem_cons, List.not_mem_nil, or_false] at hm
  · rcases hm with rfl | rfl | rfl | rfl | rfl | rfl | rfl | rfl | rfl
    · exact escaped_fits (by decide) hr
    · exact trailingBlanks_fits rfl hr
    · exact interpolation_fits (by decide) hr
    · exact reference_fits (by decide) hr
    · exact quoteStart_fits (by decide) hr
    · exact comment_fits (by decide) (fun hm => by cases hm) hr
    · exact valueRun_fits (by decide) hr
    · exact blankRun_fits (by decide) hr
    · exact anyChar_fits (by decide) hr
  · rcases hm with rfl | rfl | rfl | rfl
    · exact escaped_fits (by decide) hr
    · exact interpolationEnd_fits (Or.inl rfl) hr
    · exact operatorRun_fits (Or.inl rfl) hr
    · exact whitespace_fits (Or.inr rfl) hr
  · rcases hm with rfl | rfl | rfl | rfl | rfl | rfl | rfl | rfl
    · exact escaped_fits (by decide) hr
    · exact interpolation_fits (by decide) hr
    · exact interpolationEnd_fits (Or.inr rfl) hr
    · exact operatorRun_fits (Or.inr rfl) hr
    · exact reference_fits (by decide) hr
    · exact quoteStart_fits (by decide) hr
    · exact argumentRun_fits (by decide) hr
    · exact anyChar_fits (by decide) hr
  · rcases hm with rfl | rfl | rfl | rfl | rfl
    · exact escaped_fits (by decide) hr
    · exact interpolation_fits (by decide) hr
    · exact reference_fits (by decide) hr
    · exact quoteEnd_fits rfl hr
    · exact quotedRun_fits rfl hr

end Lexeme
end LayeredEnv
