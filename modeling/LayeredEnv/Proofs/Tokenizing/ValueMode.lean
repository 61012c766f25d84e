import LayeredEnv.Proofs.Tokenizing.Drawn
import LayeredEnv.Proofs.Tokenizing.Lines

namespace LayeredEnv

namespace Blocks

open Lexeme

/-- All that is open stands in one assignment. `right` is `left`, but that the assignment has the
name `name` there. -/
def Alike (name : String) (left right : Blocks) : Prop :=
  ∃ inner frame, frame.kind = .assignment ∧ left = ⟨inner ++ [frame], []⟩ ∧
    right = ⟨inner ++ [{ frame with value := name }], []⟩

def assigning (name : String) : Blocks := enter {} { kind := .assignment, value := name }

theorem nested_assigning (name : String) : (assigning name).Nested := by
  have hempty : Nested {} := trivial
  have hmem : Kind.assignment ∈ Kind.main.contents := by decide
  exact hempty.enter (Or.inr (Or.inl rfl)) Kind.noConfusion hmem

theorem alike_assigning (before name : String) : Alike name (assigning before) (assigning name) :=
  ⟨[], _, rfl, rfl, rfl⟩

variable {table : OperatorTable} {name : String} {left right : Blocks} {kind : Kind}

namespace Alike

theorem innermost_eq (h : Alike name left right) : right.innermost = left.innermost := by
  obtain ⟨_ | ⟨first, inner⟩, frame, hk, rfl, rfl⟩ := h <;> rfl

theorem current_eq (h : Alike name left right) : right.current = left.current := by
  obtain ⟨_ | ⟨first, inner⟩, frame, hk, rfl, rfl⟩ := h <;> rfl

theorem depth_ne_zero (h : Alike name left right) : left.depth ≠ 0 := by
  obtain ⟨inner, frame, hk, rfl, rfl⟩ := h
  simp [depth]

theorem depth_eq (h : Alike name left right) : right.depth = left.depth := by
  obtain ⟨inner, frame, hk, rfl, rfl⟩ := h
  simp [depth]

theorem setCurrent (h : Alike name left right) (ts : List Token) :
    Alike name (left.setCurrent ts) (right.setCurrent ts) := by
  obtain ⟨_ | ⟨first, inner⟩, frame, hk, rfl, rfl⟩ := h
  · exact ⟨[], { frame with children := ts }, hk, rfl, rfl⟩
  · exact ⟨{ first with children := ts } :: inner, frame, hk, rfl, rfl⟩

theorem push (h : Alike name left right) (t : Token) :
    Alike name (left.push t) (right.push t) := by
  rw [Blocks.push, Blocks.push, h.current_eq]
  exact h.setCurrent _

theorem pushText (h : Alike name left right) (text : String) :
    Alike name (left.pushText text) (right.pushText text) := by
  rw [pushText_eq_join, pushText_eq_join, h.current_eq]
  exact h.setCurrent _

theorem enter (h : Alike name left right) (frame : Frame) :
    Alike name (left.enter frame) (right.enter frame) := by
  obtain ⟨inner, outer, hk, rfl, rfl⟩ := h
  exact ⟨frame :: inner, outer, hk, rfl, rfl⟩

/-- What is closed stands in the assignment. -/
theorem close (h : Alike name left right) (hk : left.innermost ≠ .assignment) :
    Alike name left.close right.close := by
  obtain ⟨_ | ⟨first, inner⟩, frame, hframe, rfl, rfl⟩ := h
  · exact absurd hframe hk
  · have h : Alike name ⟨inner ++ [frame], []⟩ ⟨inner ++ [{ frame with value := name }], []⟩ :=
      ⟨inner, frame, hframe, rfl, rfl⟩
    exact h.push first.token

/-- Blocks are closed up to one that stands in the assignment. -/
theorem closeTo (h : Alike name left right) (hn : left.Nested) (hk : kind ≠ .main)
    (hi : (left.closeTo kind).innermost = kind) :
    Alike name (left.closeTo kind) (right.closeTo kind) := by
  fun_induction Blocks.closeTo kind left generalizing right with
  | case1 left hd => exact absurd hd h.depth_ne_zero
  | case2 left hd he =>
    rw [beq_iff_eq] at he
    rwa [closeTo_of_innermost (h.innermost_eq.trans he)]
  | case3 left hd he ih =>
    rw [beq_iff_eq] at he
    -- behind the assignment nothing is open any more
    have hopen : left.innermost ≠ .assignment := by
      intro ha
      have hf := hn.frames_close ha
      have hzero : left.close.depth = 0 := List.length_eq_zero_iff.mpr hf
      rw [Blocks.closeTo, dif_pos hzero, Blocks.innermost, hf] at hi
      exact hk hi.symm
    rw [closeTo_of_ne (h.depth_eq.trans_ne hd) (h.innermost_eq.trans_ne he)]
    exact ih (h.close hopen) hn.close hi

theorem closeNearest (h : Alike name left right) (hn : left.Nested) (hk : kind ≠ .main)
    (ha : kind ≠ .assignment) (hi : (left.closeTo kind).innermost = kind) :
    Alike name (left.closeNearest kind) (right.closeNearest kind) := by
  rw [closeNearest_eq, closeNearest_eq]
  exact (h.closeTo hn hk hi).close (hi.symm ▸ ha)

theorem operate (h : Alike name left right) (hn : left.Nested)
    (hb : left.innermost = .interpolation ∨ left.innermost = .expression) (first : Char)
    (second : Option Char) :
    Alike name (left.operate table first second).1 (right.operate table first second).1 ∧
      (right.operate table first second).2 = (left.operate table first second).2 := by
  have hreference := h.closeTo hn (by decide) (hn.innermost_closeTo hb)
  have hsymbols :
      (right.closeTo .interpolation).symbols = (left.closeTo .interpolation).symbols := by
    rw [symbols, symbols, hreference.current_eq]
  simp only [Blocks.operate, hsymbols]
  split
  · exact ⟨hreference.enter _, rfl⟩
  · exact ⟨h.pushText _, rfl⟩

theorem apply (table : OperatorTable) {lexeme : Lexeme} {cs rest : List Char}
    (h : Alike name left right) (hn : left.Nested)
    (hf : lexeme.Fits left.innermost cs rest) :
    Alike name (left.apply table lexeme).1 (right.apply table lexeme).1 ∧
      (right.apply table lexeme).2 = (left.apply table lexeme).2 := by
  cases lexeme with
  | nothing => exact ⟨h, rfl⟩
  | text chars => exact ⟨h.pushText _, rfl⟩
  | leaf kind value => exact ⟨h.push _, rfl⟩
  | openAssignment | openInterpolation | openQuote => exact ⟨h.enter _, rfl⟩
  | closeInterpolation =>
    exact ⟨h.closeNearest hn (by decide) (by decide) (hn.innermost_closeTo hf), rfl⟩
  | operators first second => exact h.operate hn hf.1 first second
  | closeQuote =>
    have hi : (left.closeTo .quoted).innermost = .quoted := by rwa [closeTo_of_innermost hf]
    exact ⟨h.closeNearest hn (by decide) (by decide) hi, rfl⟩

/-- The blocks make the same steps. -/
theorem step (table : OperatorTable) (h : Alike name left right) (hn : left.Nested)
    (cs : List Char) :
    match left.step table cs with
    | none => right.step table cs = none
    | some (next, rest) =>
      ∃ other, right.step table cs = some (other, rest) ∧ Alike name next other := by
  rw [Blocks.step, Blocks.step, h.innermost_eq]
  cases hs : scan left.innermost cs with
  | none => rfl
  | some found =>
    obtain ⟨lexeme, rest⟩ := found
    obtain ⟨halike, hmore⟩ := h.apply table hn (fits_of_scan hn.isBlock hs)
    simp only [Option.map_some, hmore]
    exact ⟨_, rfl, halike⟩

theorem innermost_ne_main (h : Alike name left right) (hn : left.Nested) :
    left.innermost ≠ .main := by
  obtain ⟨_ | ⟨first, inner⟩, frame, hk, rfl, rfl⟩ := h
  · exact hk.trans_ne (by decide)
  · exact hn.2.1

/-- Where only the assignment is open, closing it leaves nothing else. -/
theorem close_assignment (h : Alike name left right) (hn : left.Nested)
    (ha : left.innermost = .assignment) : ∃ value isLength children,
    left.close = ⟨[], [.node .assignment value isLength children]⟩ ∧
      right.close = ⟨[], [.node .assignment name isLength children]⟩ := by
  have hkinds := kinds_close left
  rw [kinds, hn.frames_close ha] at hkinds
  obtain ⟨_ | ⟨first, inner⟩, ⟨_, value, isLength, children⟩, rfl, rfl, rfl⟩ := h
  · exact ⟨value, isLength, children.reverse, rfl, rfl⟩
  · exact absurd hkinds.symm (by simp [kinds])

/-- At the end everything is closed, and the assignment is all that there is. -/
theorem finish (h : Alike name left right) (hn : left.Nested) : ∃ value isLength children,
    left.finish = [.node .assignment value isLength children] ∧
      right.finish = [.node .assignment name isLength children] := by
  rw [Blocks.finish, Blocks.finish]
  fun_induction Blocks.closeNearest .main left generalizing right with
  | case1 left hd => exact absurd hd h.depth_ne_zero
  | case2 left hd he => exact absurd (beq_iff_eq.mp he) (h.innermost_ne_main hn)
  | case3 left hd he ih =>
    have hne : ¬(right.innermost == .main) = true := by rwa [h.innermost_eq]
    have hright : right.closeNearest .main = right.close.closeNearest .main := by
      rw [Blocks.closeNearest, dif_neg (h.depth_eq.trans_ne hd), if_neg hne]
    rw [hright]
    by_cases ha : left.innermost = .assignment
    · obtain ⟨value, isLength, children, hl, hr⟩ := h.close_assignment hn ha
      rw [hl, hr, closeNearest_of_frames rfl, closeNearest_of_frames rfl]
      exact ⟨value, isLength, children, rfl, rfl⟩
    · exact ih (h.close ha) hn.close

end Alike
end Blocks

namespace Tokenize

open Text Lexeme

variable {table : OperatorTable} {name : String} {left right : Blocks} {cs : List Char}
  {start last : State}

theorem not_atLineEnd_of_line (h : ∀ c ∈ cs, isLineBreak c = false) (blocks : Blocks) :
    ¬AtLineEnd (blocks, cs) := by
  rintro ⟨-, hb⟩
  obtain ⟨c, hc, hbreak⟩ := (Option.any_eq_true _ _).mp hb
  rw [h c (List.mem_of_mem_head? hc)] at hbreak
  cases hbreak

theorem next_of_line (h : ∀ c ∈ cs, isLineBreak c = false) (blocks : Blocks) :
    next table (blocks, cs) = blocks.step table cs := if_neg (not_atLineEnd_of_line h blocks)

/-- Without line breaks alike states make the same steps. -/
theorem next_alike (table : OperatorTable) (h : Blocks.Alike name left right) (hn : left.Nested)
    (hline : ∀ c ∈ cs, isLineBreak c = false) :
    match next table (left, cs) with
    | none => next table (right, cs) = none
    | some state => ∃ other, next table (right, cs) = some (other, state.2) ∧
        Blocks.Alike name state.1 other := by
  rw [next_of_line hline, next_of_line hline]
  have hstep := h.step table hn cs
  cases hs : left.step table cs with
  | none =>
    rw [hs] at hstep
    exact hstep
  | some state =>
    rw [hs] at hstep
    exact hstep

theorem Reaches.alike (hr : Reaches table start last) (h : Blocks.Alike name start.1 right)
    (hn : start.1.Nested) (hline : ∀ c ∈ start.2, isLineBreak c = false) :
    ∃ other, Reaches table (right, start.2) (other, last.2) ∧ Blocks.Alike name last.1 other := by
  induction hr using Reaches.head_induction generalizing right with
  | last => exact ⟨right, .refl .., h⟩
  | head hnext hr ih =>
    have hright := next_alike table h hn hline
    rw [hnext] at hright
    obtain ⟨other, hother, halike⟩ := hright
    obtain ⟨final, hfinal, hlast⟩ :=
      ih halike (nested_next hn hnext) fun c hc => hline c (subset_of_next hnext hc)
    exact ⟨final, hfinal.head hother, hlast⟩

/-- Behind the name and the sign of an assignment its value is read. -/
theorem next_assignment {name : String} (hne : name ≠ "")
    (hn : ∀ c ∈ name.toList, isNameChar c = true) (cs : List Char) :
    next table ({}, name.toList ++ '=' :: cs) =
      some (Blocks.assigning name, cs.dropWhile isBlank) := by
  have hlist : name.toList ≠ [] := by simpa using hne
  have hscan : scan (Blocks.innermost {}) (name.toList ++ '=' :: cs) =
      some (.openAssignment name.toList, cs.dropWhile isBlank) := scan_assignment hlist hn cs
  rw [next_eq_step (by decide), Blocks.step_of_scan hscan, Blocks.apply, String.ofList_toList]
  rfl

/-- What is read behind the name of an assignment is what is read as a value. -/
theorem exists_outcomes (table : OperatorTable) (source source' : List Char) {limit : ℕ}
    (hl : 2 ≤ limit) (hne : name ≠ "")
    (hn : ∀ c ∈ name.toList, isNameChar c = true) (hline : ∀ c ∈ cs, isLineBreak c = false) :
    ∃ left right rest, Blocks.Alike name left right ∧ left.Nested ∧ right.Nested ∧
      run table defaultLimit source 0 (Blocks.assigning "") (cs.dropWhile isBlank) =
        outcome source (left, rest) ∧
      run table limit source' 0 {} (name.toList ++ '=' :: cs) = outcome source' (right, rest) := by
  have hempty : Blocks.Nested {} := trivial
  have hopened := Blocks.nested_assigning ""
  have hcursor : ∀ c ∈ cs.dropWhile isBlank, isLineBreak c = false := fun c hc =>
    hline c ((List.dropWhile_sublist _).mem hc)
  obtain ⟨steps, ⟨left, rest⟩, hafter, hlast, -⟩ := exists_last table hopened (cs.dropWhile isBlank)
  have hreach : Reaches table (Blocks.assigning "", cs.dropWhile isBlank) (left, rest) :=
    ⟨steps, hafter⟩
  obtain ⟨right, hright, halike⟩ :=
    hreach.alike (Blocks.alike_assigning "" name) hopened hcursor
  have hfirst : Reaches table ({}, name.toList ++ '=' :: cs) (right, rest) :=
    .head (next_assignment hne hn cs) hright
  have hleft : left.Nested := hreach.nested hopened
  have hnone : next table (right, rest) = none := by
    have hnext := next_alike table halike hleft fun c hc => hcursor c (hreach.subset hc)
    rw [hlast] at hnext
    exact hnext
  exact ⟨left, right, rest, halike, hleft, hfirst.nested hempty,
    run_of_last (by decide) hopened hreach hlast, run_of_last hl hempty hfirst hnone⟩

end Tokenize

theorem TokenTree.subtree_ofTokens_singleton (t : Token) : (ofTokens [t]).subtree 1 = t :=
  (List.cons.inj (topTokens_ofTokens [t])).1

/-- A text without line breaks has a value exactly if it is accepted behind the name and the sign of
an assignment; and then the assignment has the tokens of the value. -/
theorem exists_value {name text : String} {limit : ℕ} (hl : 2 ≤ limit) (hne : name ≠ "")
    (hn : ∀ c ∈ name.toList, Text.isNameChar c = true)
    (hline : ∀ c ∈ text.toList, Text.isLineBreak c = false) :
    match tokenizeValue text with
    | .error _ => ∃ error, Tokenize.run .standard limit (name.toList ++ '=' :: text.toList) 0 {}
        (name.toList ++ '=' :: text.toList) = .error error
    | .ok (tree, id) => ∃ value isLength children last,
        tree.subtree id = .node .assignment value isLength children ∧
        Tokenize.run .standard limit (name.toList ++ '=' :: text.toList) 0 {}
          (name.toList ++ '=' :: text.toList) = .ok last ∧ last.Nested ∧
        last.finish = [.node .assignment name isLength children] := by
  obtain ⟨left, right, rest, halike, hleft, hright, hvalue, hrun⟩ :=
    Tokenize.exists_outcomes .standard text.toList (name.toList ++ '=' :: text.toList) hl hne hn
      hline
  have htokens : tokenizeValue text = (Tokenize.outcome text.toList (left, rest)).map
      fun blocks => (.ofTokens blocks.finish, 1) := by
    rw [← hvalue]
    show ((Tokenize.run .standard Tokenize.defaultLimit text.toList 0 (Blocks.assigning "")
      (text.toList.dropWhile Text.isBlank)).map Blocks.finish).map _ = _
    cases Tokenize.run .standard Tokenize.defaultLimit text.toList 0 (Blocks.assigning "")
      (text.toList.dropWhile Text.isBlank) <;> rfl
  rw [htokens, hrun, Tokenize.outcome, Tokenize.outcome]
  by_cases hrest : rest = []
  · obtain ⟨value, isLength, children, hfinish, hfinish'⟩ := halike.finish hleft
    simp only [if_pos hrest, Except.map, hfinish]
    exact ⟨value, isLength, children, right, TokenTree.subtree_ofTokens_singleton _, rfl, hright,
      hfinish'⟩
  · simp only [if_neg hrest]
    exact ⟨_, rfl⟩

end LayeredEnv
