import LayeredEnv.Proofs.Tokenizing.NamedValue
import LayeredEnv.Proofs.Tokenizing.Trail

namespace LayeredEnv

namespace Lexeme

open Text

variable {cs rest : List Char} {lexeme : Lexeme}

def flag : Scanner := fun cs => (includeFlag cs).or (preserveFlag cs)

theorem dropOptional_suffix (c : Char) (cs : List Char) : dropOptional c cs <:+ cs := by
  cases cs with
  | nil => exact List.suffix_rfl
  | cons d cs =>
    rw [dropOptional]
    split
    · exact List.suffix_cons d cs
    · exact List.suffix_rfl

theorem takeRun_suffix {p : Char → Bool} {run : List Char} (h : takeRun p cs = some (run, rest)) :
    rest <:+ cs :=
  ⟨run, (takeRun_eq_some_iff.mp h).1.symm⟩

theorem dropKeyword_suffix {word : List Char} (h : dropKeyword word cs = some rest) :
    rest <:+ cs := by
  fun_induction dropKeyword word cs with
  | case1 cs =>
    cases h
    exact List.suffix_rfl
  | case2 => cases h
  | case3 w word c cs hc ih => exact (ih h).trans (List.suffix_cons c cs)
  | case4 => cases h

theorem directive_suffix {word : String} (h : directive word cs = some rest) : rest <:+ cs := by
  unfold directive at h
  split at h
  · next tail htail =>
    have hslash : tail <:+ cs :=
      (List.suffix_cons '/' tail).trans (htail ▸ dropOptional_suffix ' ' cs)
    exact (dropKeyword_suffix h).trans ((List.dropWhile_suffix _).trans hslash)
  · cases h

theorem includeFlag_suffix (h : includeFlag cs = some (lexeme, rest)) : rest <:+ cs := by
  obtain ⟨tail, a, _, b, name, d, -, rfl, ha, hb, hd, rfl⟩ := includeFlag_eq_some h
  have hname : d <:+ a :=
    (takeRun_suffix hd).trans ((dropOptional_suffix '"' b).trans (takeRun_suffix hb))
  have hrest : dropOptional '"' d <:+ tail :=
    (dropOptional_suffix '"' d).trans (hname.trans (directive_suffix ha))
  exact hrest.trans (List.suffix_cons '#' tail)

theorem preserveFlag_suffix (h : preserveFlag cs = some (lexeme, rest)) : rest <:+ cs := by
  obtain ⟨tail, a, -, rfl, ha, rfl⟩ := preserveFlag_eq_some h
  have hrest : a.dropWhile isSpace <:+ tail :=
    (List.dropWhile_suffix _).trans (directive_suffix ha)
  exact hrest.trans (List.suffix_cons '#' tail)

theorem flag_eq_some (h : flag cs = some (lexeme, rest)) :
    ∃ kind value, lexeme = .leaf kind value ∧ (kind = .includeFlag ∨ kind = .preserveFlag) ∧
      rest <:+ cs := by
  obtain hi | ⟨-, hp⟩ := Option.or_eq_some_iff.mp h
  · obtain ⟨_, _, _, _, name, _, rfl, -⟩ := includeFlag_eq_some hi
    exact ⟨.includeFlag, name, rfl, Or.inl rfl, includeFlag_suffix hi⟩
  · obtain ⟨_, _, rfl, -⟩ := preserveFlag_eq_some hp
    exact ⟨.preserveFlag, [], rfl, Or.inr rfl, preserveFlag_suffix hp⟩

theorem scan_of_flag {found : Lexeme × List Char} (h : flag cs = some found) :
    scan .main cs = some found := by
  obtain hi | ⟨hi, hp⟩ := Option.or_eq_some_iff.mp h
  · simp only [scan, rules, List.findSome?_cons, hi]
  · simp only [scan, rules, List.findSome?_cons, hi, hp]

theorem scan_of_flag_eq_none (h : flag ('#' :: cs) = none) :
    scan .main ('#' :: cs) = comment ('#' :: cs) := by
  obtain ⟨hi, hp⟩ := Option.or_eq_none_iff.mp h
  have he : escaped ('#' :: cs) = none := escaped_of_ne (starts_cons.mpr rfl)
  have ha : assignment ('#' :: cs) = none := assignment_of_starts (starts_cons.mpr rfl)
  have hc : comment ('#' :: cs) =
      some (.leaf .comment ((dropOptional ' ' cs).takeWhile (!isLineBreak ·)),
        (dropOptional ' ' cs).dropWhile (!isLineBreak ·)) := rfl
  simp only [scan, rules, List.findSome?_cons, hi, hp, he, ha, hc]

end Lexeme

namespace Tokenize

open Text Lexeme

variable {table : OperatorTable} {blocks : Blocks} {cs rest source : List Char} {limit : ℕ}

/-- Without line breaks the limit does not matter. -/
theorem run_of_line {last : State} (h : blocks.Nested) (hline : ∀ c ∈ cs, isLineBreak c = false)
    (hr : Reaches table (blocks, cs) last) (hn : next table last = none) :
    run table limit source 0 blocks cs = outcome source last := by
  rw [← run_of_last (Nat.le_refl 2) h hr hn]
  refine run_of_forall_not_atLineEnd fun state hstate => ?_
  exact not_atLineEnd_of_line (fun c hc => hline c (hstate.subset hc)) state.1

theorem run_dropWhile (hm : blocks.innermost = .main) (cs : List Char) :
    run table limit source 0 blocks cs =
      run table limit source 0 blocks (cs.dropWhile isWhitespace) := by
  cases cs with
  | nil => rfl
  | cons c cs =>
    by_cases hc : isWhitespace c = true
    · rw [List.dropWhile_cons, if_pos hc]
      exact run_of_step (fun ha => by rw [hm] at ha; cases ha) (step_whitespace hm hc)
    · rw [List.dropWhile_cons, if_neg hc]

/-- What is read at top level, but for white space, leaves a sign. -/
theorem trail_ne_nil_of_step {next : Blocks} (hs : Starts (!isWhitespace ·) cs)
    (h : Blocks.step table {} cs = some (next, rest)) : next.TextFree ∧ next.trail ≠ [] := by
  obtain ⟨⟨lexeme, tail⟩, hscan, he⟩ := Option.map_eq_some_iff.mp h
  obtain ⟨rfl, -⟩ := Prod.mk.inj he
  have hempty : Blocks.TextFree {} := fun _ hm => nomatch hm
  refine ⟨(Blocks.apply_grows table lexeme hempty).1, ?_⟩
  obtain ⟨kind, value, rfl, hk⟩ | ⟨name, rfl⟩ | ⟨c, rfl, -⟩ := scan_main_cases hs hscan
  · show (Blocks.push {} (.leaf kind (.ofList value))).trail ≠ []
    rw [Blocks.trail_push, Token.leaf, Token.trail_of_kind hk]
    exact List.append_ne_nil_of_right_ne_nil _ (List.cons_ne_nil _ _)
  · exact List.cons_ne_nil _ _
  · show (Blocks.pushText {} (.ofList [c])).trail ≠ []
    rw [Blocks.trail_pushText, String.toList_ofList]
    exact List.append_ne_nil_of_right_ne_nil _ (List.cons_ne_nil _ _)

/-- A text without tokens is white space. -/
theorem isWhitespace_of_tokens (h : tokens limit source {} cs = .ok []) :
    ∀ c ∈ cs, isWhitespace c = true := by
  obtain ⟨last, hr, hshaped, hfinish⟩ := exists_run_of_tokens h
  rw [run_dropWhile rfl] at hr
  cases hrest : cs.dropWhile isWhitespace with
  | nil => exact List.dropWhile_eq_nil_iff.mp hrest
  | cons c tail =>
    have hs : Starts (!isWhitespace ·) (c :: tail) := hrest ▸ starts_dropWhile isWhitespace cs
    rw [hrest, run, dif_neg fun hc => by cases hc.2.1] at hr
    split at hr
    · cases hr
    · next middle rest hstep =>
      obtain ⟨hfree, hne⟩ := trail_ne_nil_of_step hs hstep
      -- a sign that is on the trail once stays there
      obtain ⟨hlast, signs, hgrown, -⟩ := Blocks.grows_of_run hfree hr
      have htrail := Blocks.trail_finish hlast hshaped
      rw [hfinish, hgrown] at htrail
      exact absurd (List.append_eq_nil_iff.mp htrail).1 hne

theorem tokens_of_isWhitespace (h : ∀ c ∈ cs, isWhitespace c = true) :
    tokens limit source {} cs = .ok [] := by
  rw [tokens, run_dropWhile rfl, List.dropWhile_eq_nil_iff.mpr h, run, Except.map, Blocks.finish,
    Blocks.closeNearest_of_frames rfl]
  rfl

/-- A line with a number sign and no flag at its front is a comment. -/
theorem tokens_comment (hline : ∀ c ∈ cs, isLineBreak c = false)
    (h : flag ('#' :: cs) = none) :
    tokens limit source {} ('#' :: cs) =
      .ok [.leaf .comment (.ofList (dropOptional ' ' cs))] := by
  have hall : ∀ c ∈ dropOptional ' ' cs, (!isLineBreak c) = true := fun c hc => by
    rw [hline c ((dropOptional_suffix ' ' cs).subset hc)]
    rfl
  have hscan : scan (Blocks.innermost {}) ('#' :: cs) =
      some (.leaf .comment (dropOptional ' ' cs), []) := by
    show scan .main ('#' :: cs) = _
    rw [scan_of_flag_eq_none h, comment, List.takeWhile_eq_self_iff.mpr hall,
      List.dropWhile_eq_nil_iff.mpr hall]
  rw [tokens, run_of_step (fun ha => by cases ha) (Blocks.step_of_scan hscan), List.drop_nil, run,
    Except.map, Blocks.finish, Blocks.closeNearest_of_frames rfl]
  rfl

/-- What comes of a text by itself, and behind a token that was read from `front`. -/
inductive Behind (front : List Char) (t : Token) :
    Except Error (List Token) → Except Error (List Token) → Prop where
  | accepted (ts : List Token) : Behind front t (.ok ts) (.ok (t :: ts))
  | refused {refusal behind : Error} (h : refusal.Behind (.ofList front) behind) :
    Behind front t (.error refusal) (.error behind)

/-- What is behind a flag is read as a text by itself. -/
theorem tokens_flag {front value : List Char} {kind : Kind}
    (hline : ∀ c ∈ front ++ rest, isLineBreak c = false)
    (h : flag (front ++ rest) = some (.leaf kind value, rest)) :
    Behind front (.leaf kind (.ofList value)) (tokens limit rest {} rest)
      (tokens limit (front ++ rest) {} (front ++ rest)) := by
  obtain ⟨_, _, hl, hk, -⟩ := flag_eq_some h
  cases hl
  have hempty : Blocks.Nested {} := trivial
  have hrest : ∀ c ∈ rest, isLineBreak c = false := fun c hc =>
    hline c (List.mem_append_right front hc)
  obtain ⟨steps, last, hafter, hnone, -⟩ := exists_last .standard hempty rest
  have hreach : Reaches .standard ({}, rest) last := ⟨steps, hafter⟩
  -- behind the flag there are the same steps, on top of its token
  have hstep : next .standard ({}, front ++ rest) =
      some (State.onto [.leaf kind (.ofList value)] ({}, rest)) := by
    have hscan : scan (Blocks.innermost {}) (front ++ rest) = some (.leaf kind value, rest) :=
      scan_of_flag h
    rw [next_eq_step (by decide), Blocks.step_of_scan hscan]
    rfl
  have hwhole : Reaches .standard ({}, front ++ rest)
      (last.onto [.leaf kind (.ofList value)]) :=
    .head hstep (hreach.onto _ hempty)
  have hend : next .standard (last.onto [.leaf kind (.ofList value)]) = none := by
    rw [next_onto _ (hreach.nested hempty), hnone]
    rfl
  have hcursor : (last.onto [.leaf kind (.ofList value)]).2 = last.2 := rfl
  rw [tokens, tokens, run_of_line hempty hrest hreach hnone,
    run_of_line hempty hline hwhole hend, outcome, outcome, hcursor]
  by_cases hlast : last.2 = []
  · have hfinish : (last.onto [.leaf kind (.ofList value)]).1.finish =
        .leaf kind (.ofList value) :: last.1.finish := by
      refine Blocks.finish_onto_singleton (hreach.nested hempty) ?_
      obtain rfl | rfl := hk <;> exact Kind.noConfusion
    rw [if_pos hlast, if_pos hlast, Except.map, Except.map, hfinish]
    exact .accepted _
  · rw [if_neg hlast, if_neg hlast]
    have hfront : ∀ c ∈ front, isLineBreak c = false := fun c hc =>
      hline c (List.mem_append_left rest hc)
    exact .refused (unrecognized_behind hfront hreach.length_le)

end Tokenize

theorem tokenize_map_topTokens (text : String) (limit : ℕ) :
    (tokenize text limit).map TokenTree.topTokens =
      Tokenize.tokens limit text.toList {} text.toList := by
  rw [tokenize]
  cases Tokenize.tokens limit text.toList {} text.toList with
  | error e => rfl
  | ok ts => exact congrArg Except.ok (TokenTree.topTokens_ofTokens ts)

/-- A number sign and the rest of the line. Without a flag they are one comment. Behind a flag the
rest is read as a text by itself: its tokens follow that of the flag, and what it is refused for the
line is refused for. So the line is a single token if only white space is behind the flag, and not
otherwise. -/
theorem tokenize_numberSign {line : String}
    (hline : ∀ c ∈ line.toList, Text.isLineBreak c = false) (limit : Nat) :
    (Lexeme.flag ('#' :: line.toList) = none → tokenize ("#" ++ line) limit =
      .ok (.ofTokens [.leaf .comment (.ofList (Lexeme.dropOptional ' ' line.toList))])) ∧
    ∀ lexeme rest, Lexeme.flag ('#' :: line.toList) = some (lexeme, rest) →
      ∃ kind value front, lexeme = .leaf kind value ∧
        (kind = .includeFlag ∨ kind = .preserveFlag) ∧ '#' :: line.toList = front ++ rest ∧
        Tokenize.Behind front (.leaf kind (.ofList value))
          ((tokenize (.ofList rest) limit).map TokenTree.topTokens)
          ((tokenize ("#" ++ line) limit).map TokenTree.topTokens) ∧
        ((∃ t, (tokenize ("#" ++ line) limit).map TokenTree.topTokens = .ok [t]) ↔
          ∀ c ∈ rest, Text.isWhitespace c = true) := by
  have htext : ("#" ++ line).toList = '#' :: line.toList := by simp
  refine ⟨fun h => ?_, fun lexeme rest h => ?_⟩
  · rw [tokenize, htext, Tokenize.tokens_comment hline h]
    rfl
  obtain ⟨kind, value, rfl, hk, front, hfront⟩ := Lexeme.flag_eq_some h
  have hsign : ∀ c ∈ front ++ rest, Text.isLineBreak c = false := by
    rw [hfront]
    exact List.forall_mem_cons.mpr ⟨rfl, hline⟩
  have hwhite : Tokenize.tokens limit rest {} rest = .ok [] ↔
      ∀ c ∈ rest, Text.isWhitespace c = true :=
    ⟨Tokenize.isWhitespace_of_tokens, Tokenize.tokens_of_isWhitespace⟩
  rw [← hfront] at h
  have hbehind : Tokenize.Behind front (.leaf kind (.ofList value))
      (Tokenize.tokens limit rest {} rest)
      (Tokenize.tokens limit (front ++ rest) {} (front ++ rest)) := Tokenize.tokens_flag hsign h
  rw [tokenize_map_topTokens, tokenize_map_topTokens, htext, String.toList_ofList, ← hfront,
    ← hwhite]
  refine ⟨kind, value, front, rfl, hk, rfl, hbehind, ?_⟩
  generalize Tokenize.tokens limit rest {} rest = alone at hbehind ⊢
  generalize Tokenize.tokens limit (front ++ rest) {} (front ++ rest) = whole at hbehind ⊢
  cases hbehind with
  | refused h =>
    constructor
    · rintro ⟨t, ht⟩
      cases ht
    · intro hts
      cases hts
  | accepted ts =>
    constructor
    · rintro ⟨t, ht⟩
      rw [(List.cons.inj (Except.ok.inj ht)).2]
    · intro hts
      rw [Except.ok.inj hts]
      exact ⟨_, rfl⟩

/-- A comment, a flag with only blanks behind it, and a flag before an assignment. -/
theorem tokenize_numberSign_threeLines :
    ((∀ c ∈ " see /include".toList, Text.isLineBreak c = false) ∧
      tokenize ("#" ++ " see /include") 1 =
        .ok (.ofTokens [.leaf .comment (.ofList "see /include".toList)])) ∧
    ((∀ c ∈ "/Preserve \t".toList, Text.isLineBreak c = false) ∧
      ∃ t, (tokenize ("#" ++ "/Preserve \t") 1).map TokenTree.topTokens = .ok [t]) ∧
    (∀ c ∈ "/preserve A=1".toList, Text.isLineBreak c = false) ∧
      ¬∃ t, (tokenize ("#" ++ "/preserve A=1") 1).map TokenTree.topTokens = .ok [t] := by
  have hcomment : ∀ c ∈ " see /include".toList, Text.isLineBreak c = false := by
    simp [Text.isLineBreak]
  have hblanks : ∀ c ∈ "/Preserve \t".toList, Text.isLineBreak c = false := by
    simp [Text.isLineBreak]
  have hassignment : ∀ c ∈ "/preserve A=1".toList, Text.isLineBreak c = false := by
    simp [Text.isLineBreak]
  refine ⟨⟨hcomment, (tokenize_numberSign hcomment 1).1 (by decide)⟩, ⟨hblanks, ?_⟩,
    hassignment, ?_⟩
  · obtain ⟨-, -, -, -, -, -, -, hsingle⟩ := (tokenize_numberSign hblanks 1).2
      (.leaf .preserveFlag []) ['\t'] (by decide)
    exact hsingle.mpr (by simp [Text.isWhitespace])
  · obtain ⟨-, -, -, -, -, -, -, hsingle⟩ := (tokenize_numberSign hassignment 1).2
      (.leaf .preserveFlag []) "A=1".toList (by decide)
    rw [hsingle]
    intro hwhite
    exact absurd (hwhite 'A' (by decide)) (by decide)

/-- A comment that begins with the word of a flag is refused, and behind a flag the line goes on
with an assignment. -/
theorem tokenize_numberSign_fails_longerWord :
    ((∀ c ∈ "/preserved".toList, Text.isLineBreak c = false) ∧
      tokenize ("#" ++ "/preserved") =
        .error (.unrecognizedToken 1 11 "#/preserved\n          ^")) ∧
    (∀ c ∈ "/preserve A=1".toList, Text.isLineBreak c = false) ∧
      ∃ tree, tokenize ("#" ++ "/preserve A=1") = .ok tree ∧
        tree.topTokens =
          [.leaf .preserveFlag "", .node .assignment "A" false [.leaf .text "1"]] := by
  have hrefused : Tokenize.tokens Tokenize.defaultLimit "#/preserved".toList {}
      "#/preserved".toList = .error (.unrecognizedToken 1 11 "#/preserved\n          ^") := by
    decide +kernel
  have htokens : Tokenize.tokens Tokenize.defaultLimit "#/preserve A=1".toList {}
      "#/preserve A=1".toList =
      .ok [.leaf .preserveFlag "", .node .assignment "A" false [.leaf .text "1"]] := by
    decide +kernel
  exact ⟨⟨by simp [Text.isLineBreak], congrArg (Except.map _) hrefused⟩,
    by simp [Text.isLineBreak], _, TokenTree.tokenize_of_tokens htokens,
    TokenTree.topTokens_ofTokens _⟩

end LayeredEnv
