import LayeredEnv.Proofs.Tokenizing.ValueMode

namespace LayeredEnv

def underlined (line : String) (column : Nat) : String :=
  line ++ "\n" ++ String.ofList (List.replicate (column - 1) ' ') ++ "^"

/-- The error of a text that stands behind `opening` in the same line. -/
inductive Error.Behind (opening : String) : Error → Error → Prop where
  | stuck (offset attempts : Nat) :
    Behind opening (.stuckTokenizer offset attempts)
      (.stuckTokenizer (offset + opening.length) attempts)
  | firstLine (line : String) (column : Nat) :
    Behind opening (.unrecognizedToken 1 column (underlined line column))
      (.unrecognizedToken 1 (column + opening.length)
        (underlined (opening ++ line) (column + opening.length)))
  | laterLine {line : Nat} (h : line ≠ 1) (column : Nat) (excerpt : String) :
    Behind opening (.unrecognizedToken line column excerpt)
      (.unrecognizedToken line column excerpt)

namespace Blocks

variable {table : OperatorTable} {name : String} {left right : Blocks}

/-- `right` is `left`, but that the first assignment has the name `name` there: the one that all
that is open stands in, or the first of the finished tokens. -/
inductive Renamed (name : String) : Blocks → Blocks → Prop where
  | opened {left right : Blocks} (h : Alike name left right) (hn : left.Nested) :
    Renamed name left right
  | finished {later : Blocks} (hn : later.Nested) (value : String) (isLength : Bool)
    (children : List Token) :
    Renamed name (later.onto [.node .assignment value isLength children])
      (later.onto [.node .assignment name isLength children])

namespace Renamed

theorem innermost_eq (h : Renamed name left right) : right.innermost = left.innermost := by
  cases h with
  | opened h hn => exact h.innermost_eq
  | finished hn value isLength children => rfl

/-- The line break that closes the value of an assignment: it may be the first one. -/
theorem close (h : Renamed name left right) (ha : left.innermost = .assignment) :
    Renamed name left.close right.close := by
  cases h with
  | opened h hn =>
    obtain ⟨value, isLength, children, hl, hr⟩ := h.close_assignment hn ha
    have hempty : Nested {} := trivial
    rw [hl, hr]
    exact .finished hempty value isLength children
  | finished hn value isLength children =>
    rw [onto_close _ hn, onto_close _ hn]
    exact .finished hn.close value isLength children

theorem step (table : OperatorTable) (h : Renamed name left right) (cs : List Char) :
    match left.step table cs with
    | none => right.step table cs = none
    | some (next, rest) =>
      ∃ other, right.step table cs = some (other, rest) ∧ Renamed name next other := by
  cases h with
  | opened h hn =>
    have hstep := h.step table hn cs
    cases hs : left.step table cs with
    | none => rwa [hs] at hstep
    | some state =>
      rw [hs] at hstep
      obtain ⟨other, hother, halike⟩ := hstep
      exact ⟨other, hother, .opened halike (hn.step hs)⟩
  | @finished later hn value isLength children =>
    rw [onto_step table _ hn, onto_step table _ hn]
    cases hs : later.step table cs with
    | none => rfl
    | some state => exact ⟨_, rfl, .finished (hn.step hs) value isLength children⟩

/-- At the end the tokens differ in the name of the first one. -/
theorem finish (h : Renamed name left right) : ∃ value isLength children later,
    left.finish = .node .assignment value isLength children :: later ∧
      right.finish = .node .assignment name isLength children :: later := by
  cases h with
  | opened h hn =>
    obtain ⟨value, isLength, children, hl, hr⟩ := h.finish hn
    exact ⟨value, isLength, children, [], hl, hr⟩
  | @finished later hn value isLength children =>
    have hfinish (first : String) :
        (later.onto [.node .assignment first isLength children]).finish =
          .node .assignment first isLength children :: later.finish :=
      finish_onto_singleton hn Kind.noConfusion
    exact ⟨value, isLength, children, later.finish, hfinish value, hfinish name⟩

end Renamed
end Blocks

namespace Tokenize

open Text

variable {table : OperatorTable} {name : String} {left right : Blocks}
  {source source' cs rest : List Char}

/-- Two runs over the same text, which is the end of different sources, end in the same way. -/
inductive SameEnd (name : String) (source source' cs : List Char) :
    Except Error Blocks → Except Error Blocks → Prop where
  | accepted {left right : Blocks} (h : Blocks.Renamed name left right) :
    SameEnd name source source' cs (.ok left) (.ok right)
  | unrecognized {rest : List Char} (h : rest.length ≤ cs.length) :
    SameEnd name source source' cs (.error (unrecognized source rest))
      (.error (unrecognized source' rest))
  | stuck {rest : List Char} (h : rest.length ≤ cs.length) (attempts : Nat) :
    SameEnd name source source' cs
      (.error (.stuckTokenizer (byteLength (consumed source rest)) attempts))
      (.error (.stuckTokenizer (byteLength (consumed source' rest)) attempts))

theorem SameEnd.mono {ends ends' : Except Error Blocks} (hle : rest.length ≤ cs.length)
    (h : SameEnd name source source' rest ends ends') :
    SameEnd name source source' cs ends ends' := by
  cases h with
  | accepted h => exact .accepted h
  | unrecognized h => exact .unrecognized (h.trans hle)
  | stuck h attempts => exact .stuck (h.trans hle) attempts

theorem not_atLineEnd_of_renamed {c : Char} (h : Blocks.Renamed name left right)
    (hline : ¬(left.depth ≠ 0 ∧ left.innermost = .assignment ∧ isLineBreak c = true)) :
    ¬AtLineEnd (right, c :: cs) := by
  rintro ⟨hi, hb⟩
  have ha : left.innermost = .assignment := h.innermost_eq.symm.trans hi
  exact hline ⟨Blocks.depth_ne_zero_of_innermost (ha.trans_ne (by decide)), ha, hb⟩

/-- The runs make the same steps, up to the same end. -/
theorem run_renamed (table : OperatorTable) (limit idle : Nat) (source source' cs : List Char)
    (h : Blocks.Renamed name left right) :
    SameEnd name source source' cs (run table limit source idle left cs)
      (run table limit source' idle right cs) := by
  fun_induction run table limit source idle left cs generalizing right with
  | case1 idle left =>
    rw [run]
    exact .accepted h
  | case2 idle left c cs hline hstuck =>
    have hend : AtLineEnd (right, c :: cs) := ⟨h.innermost_eq.trans hline.2.1, hline.2.2⟩
    rw [run_of_atLineEnd hend, if_pos hstuck]
    exact .stuck (Nat.le_refl _) _
  | case3 idle left c cs hline hstuck ih =>
    have hend : AtLineEnd (right, c :: cs) := ⟨h.innermost_eq.trans hline.2.1, hline.2.2⟩
    rw [run_of_atLineEnd hend, if_neg hstuck]
    -- both values end here, also that of the first assignment
    exact ih (h.close hline.2.1)
  | case4 idle left c cs hline hs =>
    have hend : ¬AtLineEnd (right, c :: cs) := not_atLineEnd_of_renamed h hline
    have hstep := h.step table (c :: cs)
    rw [hs] at hstep
    have hnone : next table (right, c :: cs) = none := (if_neg hend).trans hstep
    rw [run_of_next_eq_none hnone, outcome, if_neg (List.cons_ne_nil c cs)]
    exact .unrecognized (Nat.le_refl _)
  | case5 idle left c cs hline next rest hs ih =>
    have hend : ¬AtLineEnd (right, c :: cs) := not_atLineEnd_of_renamed h hline
    have hstep := h.step table (c :: cs)
    rw [hs] at hstep
    obtain ⟨other, hother, hnext⟩ := hstep
    rw [run_of_step (starts_of_not_atLineEnd hend) hother]
    exact (ih hnext).mono (Blocks.step_bounds hs).1.le

variable {opening : List Char}

theorem byteLength_append (cs ds : List Char) :
    byteLength (cs ++ ds) = byteLength cs + byteLength ds := by
  induction cs with
  | nil => exact (Nat.zero_add _).symm
  | cons c cs ih => rw [List.cons_append, byteLength, byteLength, ih, Nat.add_assoc]

theorem utf8Size_of_isNameChar {c : Char} (h : isNameChar c = true) : c.utf8Size = 1 := by
  simp only [isNameChar, isUpper, isDigit, Bool.or_eq_true, Bool.and_eq_true, decide_eq_true_eq,
    beq_iff_eq] at h
  have hle : c ≤ '\x7f' := by
    obtain (⟨-, hc⟩ | ⟨-, hc⟩) | rfl := h
    · exact Char.le_trans hc (by decide)
    · exact Char.le_trans hc (by decide)
    · decide
  exact Char.utf8Size_eq_one_iff.mpr hle

/-- A name has one byte for each character. -/
theorem byteLength_of_isNameChar (h : ∀ c ∈ cs, isNameChar c = true) :
    byteLength cs = cs.length := by
  induction cs with
  | nil => rfl
  | cons c cs ih =>
    have hc : c.utf8Size = 1 := utf8Size_of_isNameChar (h c List.mem_cons_self)
    rw [byteLength, hc, ih fun d hd => h d (List.mem_cons_of_mem c hd), List.length_cons,
      Nat.add_comm]

theorem countP_isLineFeed (h : '\n' ∉ cs) : cs.countP isLineFeed = 0 :=
  List.countP_eq_zero.mpr fun _ hc hfeed => h (beq_iff_eq.mp hfeed ▸ hc)

theorem takeEndWhile_of_notMem (h : '\n' ∉ cs) : takeEndWhile (!isLineFeed ·) cs = cs := by
  have hall : ∀ c ∈ cs.reverse, (!isLineFeed c) = true := by
    intro c hc
    rw [Bool.not_eq_true', isLineFeed, beq_eq_false_iff_ne]
    rintro rfl
    exact h (List.mem_reverse.mp hc)
  rw [takeEndWhile, List.takeWhile_eq_self_iff.mpr hall, List.reverse_reverse]

theorem unrecognized_eq {source before lineStart line : List Char}
    (hb : consumed source rest = before)
    (hs : takeEndWhile (!isLineFeed ·) before = lineStart)
    (hl : dropEndWhile (· == '\r') (lineStart ++ rest.takeWhile (!isLineFeed ·)) = line) :
    unrecognized source rest = .unrecognizedToken (before.countP isLineFeed + 1)
      (lineStart.length + 1) (underlined (.ofList line) (lineStart.length + 1)) := by
  subst hb hs hl
  simp [unrecognized, underlined, String.append_assoc]

theorem dropEndWhile_append_of_forall {p : Char → Bool} (h : ∀ c ∈ opening, p c = false)
    (cs : List Char) : dropEndWhile p (opening ++ cs) = opening ++ dropEndWhile p cs := by
  obtain rfl | ⟨front, last, rfl⟩ := opening.eq_nil_or_concat
  · rfl
  · rw [List.concat_eq_append] at h ⊢
    have hlast : p last = false := h last (List.mem_append_right _ (List.mem_singleton_self _))
    rw [← List.append_cons, ← List.append_cons, dropEndWhile_append_cons hlast]

/-- A text is refused where it would be alone, but for what stands before it in its first line. -/
theorem unrecognized_behind (hline : ∀ c ∈ opening, isLineBreak c = false)
    (h : rest.length ≤ cs.length) :
    (unrecognized cs rest).Behind (.ofList opening) (unrecognized (opening ++ cs) rest) := by
  have hopening : '\n' ∉ opening := fun hc => absurd (hline _ hc) (by decide)
  have hreturn : ∀ c ∈ opening, (c == '\r') = false := fun c hc =>
    (Bool.or_eq_false_iff.mp (hline c hc)).2
  have hconsumed : consumed (opening ++ cs) rest = opening ++ consumed cs rest := consumed_append h
  by_cases hfeed : '\n' ∈ consumed cs rest
  · -- the line starts in the text itself
    obtain ⟨lines, line, hlines⟩ := List.append_of_mem hfeed
    have hstart : takeEndWhile (!isLineFeed ·) (opening ++ consumed cs rest) =
        takeEndWhile (!isLineFeed ·) (consumed cs rest) := by
      rw [hlines, ← List.append_assoc, takeEndWhile_append, takeEndWhile_append]
    have hpos : (consumed cs rest).countP isLineFeed ≠ 0 :=
      (List.countP_pos_iff.mpr ⟨'\n', hfeed, rfl⟩).ne'
    rw [unrecognized_eq rfl rfl rfl, unrecognized_eq hconsumed hstart rfl, List.countP_append,
      countP_isLineFeed hopening, Nat.zero_add]
    exact .laterLine (by omega) _ _
  · -- the line starts where the text does, behind the opening
    have hfeed' : '\n' ∉ opening ++ consumed cs rest := by
      rw [List.mem_append]
      exact not_or.mpr ⟨hopening, hfeed⟩
    have hshown : dropEndWhile (· == '\r')
          (opening ++ consumed cs rest ++ rest.takeWhile (!isLineFeed ·)) =
        opening ++ dropEndWhile (· == '\r')
          (consumed cs rest ++ rest.takeWhile (!isLineFeed ·)) := by
      rw [List.append_assoc, dropEndWhile_append_of_forall hreturn]
    have hcolumn : (opening ++ consumed cs rest).length + 1 =
        (consumed cs rest).length + 1 + (String.ofList opening).length := by
      rw [List.length_append, String.length_ofList]
      omega
    rw [unrecognized_eq rfl (takeEndWhile_of_notMem hfeed) rfl,
      unrecognized_eq hconsumed (takeEndWhile_of_notMem hfeed') hshown, countP_isLineFeed hfeed,
      countP_isLineFeed hfeed', hcolumn, String.ofList_append]
    exact .firstLine _ _

theorem isLineBreak_of_mem_name (hn : ∀ c ∈ name.toList, isNameChar c = true) :
    ∀ c ∈ name.toList ++ ['='], isLineBreak c = false := by
  intro c hc
  by_contra hbreak
  rw [Bool.not_eq_false] at hbreak
  obtain hc | hc := List.mem_append.mp hc
  · exact absurd (hn c hc) (by rw [Lexeme.not_isNameChar_of_isLineBreak c hbreak]; decide)
  · rw [List.mem_singleton.mp hc] at hbreak
    exact absurd hbreak (by decide)

theorem byteLength_behind (hn : ∀ c ∈ name.toList, isNameChar c = true)
    (h : rest.length ≤ cs.length) :
    byteLength (consumed (name.toList ++ '=' :: cs) rest) =
      byteLength (consumed cs rest) + (name ++ "=").length := by
  have hsign : byteLength ['='] = "=".length := rfl
  rw [List.append_cons, consumed_append h, byteLength_append, byteLength_append, hsign,
    byteLength_of_isNameChar hn, String.length_append, String.length_toList, Nat.add_comm]

/-- Read behind the name and the sign of an assignment, a text ends as it does as a value. -/
theorem run_value {name : String} (hne : name ≠ "")
    (hn : ∀ c ∈ name.toList, isNameChar c = true) (limit : Nat) (cs : List Char) :
    SameEnd name cs (name.toList ++ '=' :: cs) cs
      (run .standard limit cs 0 (Blocks.assigning "") (cs.dropWhile isBlank))
      (run .standard limit (name.toList ++ '=' :: cs) 0 {} (name.toList ++ '=' :: cs)) := by
  have hfirst : Blocks.step .standard {} (name.toList ++ '=' :: cs) =
      some (Blocks.assigning name, cs.dropWhile isBlank) := by
    rw [← next_eq_step (by decide)]
    exact next_assignment hne hn cs
  have halike : Blocks.Renamed name (Blocks.assigning "") (Blocks.assigning name) :=
    .opened (Blocks.alike_assigning "" name) (Blocks.nested_assigning "")
  rw [run_of_step (fun hm => by cases hm) hfirst]
  exact (run_renamed .standard limit 0 _ _ _ halike).mono (length_dropWhile_le ..)

/-- The assignment that is read into keeps its name. -/
theorem finish_of_run_value {limit : Nat} {last : Blocks}
    (h : run .standard limit source 0 (Blocks.assigning name) cs = .ok last) :
    ∃ isLength children later,
      last.finish = .node .assignment name isLength children :: later := by
  -- the run beside itself: its first assignment has the name that it was opened with
  have hself : Blocks.Renamed name (Blocks.assigning name) (Blocks.assigning name) :=
    .opened (Blocks.alike_assigning name name) (Blocks.nested_assigning name)
  have hends := run_renamed .standard limit 0 source source cs hself
  rw [h] at hends
  cases hends with
  | accepted hlast =>
    obtain ⟨value, isLength, children, later, -, hfinish⟩ := hlast.finish
    exact ⟨isLength, children, later, hfinish⟩

end Tokenize

namespace TokenTree

variable {kind : Kind} {value : String} {isLength : Bool} {children later : List Token}

theorem setValue_ofTokens (name : String) :
    (ofTokens (.node kind value isLength children :: later)).setValue 1 name =
      ofTokens (.node kind name isLength children :: later) := by
  simp [ofTokens, Token.root, nodesOf, nodesOfAll, setValue, update, numbers, Token.size]

end TokenTree

/-- Values are read as declarations are. As a value a text has the tree that it has behind the name
and the sign of an assignment, but for the name of the first assignment, which is the token that is
returned; or it is refused for the same cause in both places. -/
theorem tokenizeValue_agrees {name : String} (hne : name ≠ "")
    (hn : ∀ c ∈ name.toList, Text.isNameChar c = true) (text : String) (limit : Nat) :
    match tokenizeValue text limit, tokenize (name ++ "=" ++ text) limit with
    | .ok (tree, id), .ok whole =>
      tree.topLevel.head? = some id ∧ tree.kind id = .assignment ∧ tree.value id = "" ∧
        whole = tree.setValue id name
    | .error refusal, .error behind => refusal.Behind (name ++ "=") behind
    | _, _ => False := by
  have htext : (name ++ "=" ++ text).toList = name.toList ++ '=' :: text.toList := by simp
  -- all the time the blocks are the same, but for the name of the first assignment
  have hends := Tokenize.run_value hne hn (max limit 1) text.toList
  rw [tokenizeValue, tokenize, Tokenize.tokens, Tokenize.tokens, htext]
  generalize hvalue : Tokenize.run .standard (max limit 1) text.toList 0 (Blocks.assigning "")
    (text.toList.dropWhile Text.isBlank) = value at hends
  rw [Blocks.assigning] at hvalue
  rw [hvalue]
  generalize Tokenize.run .standard (max limit 1) (name.toList ++ '=' :: text.toList) 0 {}
    (name.toList ++ '=' :: text.toList) = whole at hends ⊢
  cases hends with
  | accepted h =>
    obtain ⟨isLength, children, later, hfinish⟩ := Tokenize.finish_of_run_value hvalue
    obtain ⟨_, isLength', children', later', hl, hr⟩ := h.finish
    cases hfinish.symm.trans hl
    simp only [Except.map, hfinish, hr]
    exact ⟨rfl, rfl, rfl, (TokenTree.setValue_ofTokens name).symm⟩
  | unrecognized h =>
    have hopening : String.ofList (name.toList ++ ['=']) = name ++ "=" := by
      rw [String.ofList_append, String.ofList_toList]
    rw [← hopening, List.append_cons]
    exact Tokenize.unrecognized_behind (Tokenize.isLineBreak_of_mem_name hn) h
  | stuck h attempts =>
    rw [Tokenize.byteLength_behind hn h]
    exact .stuck _ attempts

/-- A value with a declaration in the next line, which is refused where a line break may not close
the value. -/
theorem tokenizeValue_agrees_nextLine :
    "A" ≠ "" ∧ (∀ c ∈ "A".toList, Text.isNameChar c = true) ∧
      (∃ tree whole, tokenizeValue "x\nB=y" 2 = .ok (tree, 1) ∧
        tree.topTokens =
          [.node .assignment "" false [.leaf .text "x"],
            .node .assignment "B" false [.leaf .text "y"]] ∧
        tokenize ("A" ++ "=" ++ "x\nB=y") 2 = .ok whole ∧ whole = tree.setValue 1 "A") ∧
      tokenizeValue "x\nB=y" 1 = .error (.stuckTokenizer 1 1) ∧
      ∃ behind, tokenize ("A" ++ "=" ++ "x\nB=y") 1 = .error behind ∧
        Error.Behind ("A" ++ "=") (.stuckTokenizer 1 1) behind := by
  have hne : "A" ≠ "" := by decide
  have hn : ∀ c ∈ "A".toList, Text.isNameChar c = true := by simp [Text.isNameChar, Text.isUpper]
  have htokens : Tokenize.tokens 2 "x\nB=y".toList (Blocks.assigning "") "x\nB=y".toList =
      .ok [.node .assignment "" false [.leaf .text "x"],
        .node .assignment "B" false [.leaf .text "y"]] := by decide +kernel
  have hstuck : Tokenize.tokens 1 "x\nB=y".toList (Blocks.assigning "") "x\nB=y".toList =
      .error (.stuckTokenizer 1 1) := by decide +kernel
  have hread : tokenizeValue "x\nB=y" 2 =
      .ok (.ofTokens [.node .assignment "" false [.leaf .text "x"],
        .node .assignment "B" false [.leaf .text "y"]], 1) := congrArg (Except.map _) htokens
  have hrefused : tokenizeValue "x\nB=y" 1 = .error (.stuckTokenizer 1 1) :=
    congrArg (Except.map _) hstuck
  have hagrees := tokenizeValue_agrees hne hn "x\nB=y" 2
  have hcause := tokenizeValue_agrees hne hn "x\nB=y" 1
  rw [hread] at hagrees
  rw [hrefused] at hcause
  refine ⟨hne, hn, ?_, hrefused, ?_⟩
  · generalize tokenize ("A" ++ "=" ++ "x\nB=y") 2 = result at hagrees ⊢
    cases result with
    | error behind => exact hagrees.elim
    | ok whole =>
      exact ⟨_, whole, hread, TokenTree.topTokens_ofTokens _, rfl, hagrees.2.2.2⟩
  · generalize tokenize ("A" ++ "=" ++ "x\nB=y") 1 = result at hcause ⊢
    cases result with
    | error behind => exact ⟨behind, rfl, hcause⟩
    | ok whole => exact hcause.elim

end LayeredEnv
