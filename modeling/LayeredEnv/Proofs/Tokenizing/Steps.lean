import LayeredEnv.Proofs.Tokenizing.Reading
import LayeredEnv.Proofs.Tokenizing.Wording
import Mathlib.Data.Nat.Find

namespace LayeredEnv

namespace Blocks

open Lexeme

def kinds (blocks : Blocks) : List Kind := blocks.frames.map Frame.kind

/-- Each block may stand in the one around it. -/
def NestedKinds : List Kind → Prop
  | [] => True
  | kind :: outer =>
    IsBlock kind ∧ kind ≠ .main ∧ kind ∈ (outer.headD .main).contents ∧ NestedKinds outer

def Nested (blocks : Blocks) : Prop := NestedKinds blocks.kinds

variable {blocks : Blocks} {kind : Kind} {kinds : List Kind}

theorem headD_kinds (blocks : Blocks) : blocks.kinds.headD .main = blocks.innermost := by
  obtain ⟨_ | _, _⟩ := blocks <;> rfl

@[simp] theorem kinds_setCurrent (blocks : Blocks) (tokens : List Token) :
    (blocks.setCurrent tokens).kinds = blocks.kinds := by
  obtain ⟨_ | _, _⟩ := blocks <;> rfl

@[simp] theorem kinds_push (blocks : Blocks) (t : Token) : (blocks.push t).kinds = blocks.kinds :=
  kinds_setCurrent ..

@[simp] theorem kinds_pushText (blocks : Blocks) (text : String) :
    (blocks.pushText text).kinds = blocks.kinds := by
  unfold pushText
  split <;> simp

theorem kinds_close (blocks : Blocks) : blocks.close.kinds = blocks.kinds.tail := by
  obtain ⟨_ | ⟨frame, frames⟩, top⟩ := blocks
  · rfl
  · exact kinds_push ..

theorem kinds_closeTo_suffix (kind : Kind) (blocks : Blocks) :
    (blocks.closeTo kind).kinds <:+ blocks.kinds := by
  fun_induction closeTo kind blocks with
  | case1 => exact List.suffix_rfl
  | case2 => exact List.suffix_rfl
  | case3 blocks _ _ ih =>
    rw [kinds_close] at ih
    exact ih.trans (List.tail_suffix _)

theorem NestedKinds.suffix {inner : List Kind} (h : NestedKinds (inner ++ kinds)) :
    NestedKinds kinds := by
  induction inner with
  | nil => exact h
  | cons kind inner ih => exact ih h.2.2.2

theorem Nested.of_suffix {next : Blocks} (h : blocks.Nested) (hs : next.kinds <:+ blocks.kinds) :
    next.Nested := by
  obtain ⟨inner, hi⟩ := hs
  unfold Nested at h
  rw [← hi] at h
  exact h.suffix

theorem Nested.enter (h : blocks.Nested) {frame : Frame} (hb : IsBlock frame.kind)
    (hm : frame.kind ≠ .main) (hc : frame.kind ∈ blocks.innermost.contents) :
    (blocks.enter frame).Nested :=
  ⟨hb, hm, (headD_kinds blocks).symm ▸ hc, h⟩

theorem Nested.isBlock (h : blocks.Nested) : IsBlock blocks.innermost := by
  obtain ⟨_ | ⟨frame, frames⟩, top⟩ := blocks
  · exact Or.inl rfl
  · exact h.1

theorem Nested.close (h : blocks.Nested) : blocks.close.Nested :=
  h.of_suffix (kinds_close blocks ▸ List.tail_suffix _)

theorem Nested.closeTo (h : blocks.Nested) (kind : Kind) : (blocks.closeTo kind).Nested :=
  h.of_suffix (kinds_closeTo_suffix kind blocks)

theorem Nested.closeNearest (h : blocks.Nested) (kind : Kind) :
    (blocks.closeNearest kind).Nested := by
  rw [closeNearest_eq]
  exact (h.closeTo kind).close

/-- Only the top level has assignments in it. -/
theorem Nested.frames_close (h : blocks.Nested) (hk : blocks.innermost = .assignment) :
    blocks.close.frames = [] := by
  obtain ⟨_ | ⟨frame, _ | ⟨outer, frames⟩⟩, top⟩ := blocks
  · rfl
  · rfl
  · obtain ⟨-, -, hc, -, hm, -⟩ := h
    have hk : frame.kind = .assignment := hk
    rw [hk] at hc
    exact absurd (Kind.parent_of_assignment hc) hm

/-- The expression that is open stands in a reference. -/
theorem Nested.innermost_closeTo (h : blocks.Nested)
    (hb : blocks.innermost = .interpolation ∨ blocks.innermost = .expression) :
    (blocks.closeTo .interpolation).innermost = .interpolation := by
  rcases hb with hb | hb
  · rw [closeTo_of_innermost hb, hb]
  · have hd : blocks.depth ≠ 0 := depth_ne_zero_of_innermost (by rw [hb]; decide)
    have hne : blocks.innermost ≠ .interpolation := by rw [hb]; decide
    have hi : blocks.close.innermost = .interpolation := by
      obtain ⟨_ | ⟨frame, frames⟩, top⟩ := blocks
      · cases hb
      · obtain ⟨-, -, hc, -⟩ := h
        have hk : frame.kind = .expression := hb
        rw [hk] at hc
        have hclose := Kind.parent_of_expression hc
        exact (innermost_push ⟨frames, top⟩ _).trans ((headD_kinds _).symm.trans hclose)
    rw [closeTo_of_ne hd hne, closeTo_of_innermost hi, hi]

/-- What a lexeme does to nested blocks. -/
theorem Nested.apply {table : OperatorTable} {cs rest : List Char} {lexeme : Lexeme}
    (h : blocks.Nested) (hf : lexeme.Fits blocks.innermost cs rest) :
    (blocks.apply table lexeme).1.Nested := by
  have hsame : ∀ {next : Blocks}, next.kinds = blocks.kinds → next.Nested :=
    fun he => h.of_suffix (he ▸ List.suffix_rfl)
  cases lexeme with
  | nothing => exact h
  | text chars => exact hsame (kinds_pushText ..)
  | leaf kind value => exact hsame (kinds_push ..)
  | openAssignment name => exact h.enter (Or.inr (Or.inl rfl)) Kind.noConfusion hf.1
  | openInterpolation isLength name =>
    exact h.enter (Or.inr (Or.inr (Or.inl rfl))) Kind.noConfusion hf.1
  | closeInterpolation => exact h.closeNearest .interpolation
  | operators first second =>
    simp only [Blocks.apply, operate]
    split
    · refine (h.closeTo .interpolation).enter
        (Or.inr (Or.inr (Or.inr (Or.inl rfl)))) Kind.noConfusion ?_
      rw [h.innermost_closeTo hf.1]
      exact List.mem_cons_of_mem _ List.mem_cons_self
    · exact hsame (kinds_pushText ..)
  | openQuote => exact h.enter (Or.inr (Or.inr (Or.inr (Or.inr rfl)))) Kind.noConfusion hf
  | closeQuote => exact h.closeNearest .quoted

theorem Nested.step {table : OperatorTable} {next : Blocks} {cs rest : List Char}
    (h : blocks.Nested) (hs : blocks.step table cs = some (next, rest)) : next.Nested := by
  obtain ⟨⟨lexeme, tail⟩, hscan, he⟩ := Option.map_eq_some_iff.mp hs
  obtain ⟨rfl, -⟩ := Prod.mk.inj he
  exact h.apply (fits_of_scan h.isBlock hscan)

end Blocks
namespace Tokenize

open Text Lexeme

abbrev State : Type := Blocks × List Char

def AtLineEnd (state : State) : Prop :=
  state.1.innermost = .assignment ∧ state.2.head?.any isLineBreak = true

instance (state : State) : Decidable (AtLineEnd state) :=
  inferInstanceAs (Decidable (_ ∧ _))

/-- A step of the tokenizer: a line break closes the value that is open; elsewhere a lexeme is read.
There is none at the end of the text and where no rule applies. -/
def next (table : OperatorTable) (state : State) : Option State :=
  if AtLineEnd state then some (state.1.close, state.2) else state.1.step table state.2

def after (table : OperatorTable) : (steps : Nat) → State → Option State
  | 0, state => some state
  | steps + 1, state => (next table state).bind (after table steps)

def Reaches (table : OperatorTable) (start state : State) : Prop :=
  ∃ steps, after table steps start = some state

def outcome (source : List Char) (state : State) : Except Error Blocks :=
  if state.2 = [] then .ok state.1 else .error (unrecognized source state.2)

def FirstLineEnd (table : OperatorTable) (start : State) (steps : Nat) (state : State) : Prop :=
  after table steps start = some state ∧ AtLineEnd state ∧
    ∀ earlier < steps, ∀ before, after table earlier start = some before → ¬AtLineEnd before

variable {table : OperatorTable} {blocks : Blocks} {source cs rest : List Char} {limit idle : Nat}
  {state last start : State}

theorem starts_of_not_atLineEnd (h : ¬AtLineEnd (blocks, cs)) :
    blocks.innermost = .assignment → Starts (!isLineBreak ·) cs := by
  intro hi c hc
  have hb : ¬cs.head?.any isLineBreak = true := fun ha => h ⟨hi, ha⟩
  rw [Option.mem_def.mp hc] at hb
  simpa using hb

/-- A line break that closes a value is a step without progress. -/
theorem run_of_atLineEnd (h : AtLineEnd (blocks, cs)) :
    run table limit source idle blocks cs =
      if limit ≤ idle + 1 then .error (.stuckTokenizer (byteLength (consumed source cs)) (idle + 1))
      else run table limit source (idle + 1) blocks.close cs := by
  obtain ⟨hi, hb⟩ := h
  cases cs with
  | nil => cases hb
  | cons c cs =>
    have hd : blocks.depth ≠ 0 := Blocks.depth_ne_zero_of_innermost (by rw [hi]; decide)
    rw [run, dif_pos ⟨hd, hi, hb⟩]

theorem run_of_next_eq_none (h : next table (blocks, cs) = none) :
    run table limit source idle blocks cs = outcome source (blocks, cs) := by
  cases cs with
  | nil =>
    rw [run]
    rfl
  | cons c cs =>
    unfold next at h
    split at h
    · cases h
    · next hn =>
      rw [run, dif_neg fun hc => hn ⟨hc.2.1, hc.2.2⟩]
      split
      · rfl
      · next hs =>
        rw [h] at hs
        cases hs

theorem nested_next (h : blocks.Nested) (hn : next table (blocks, cs) = some state) :
    state.1.Nested := by
  unfold next at hn
  split at hn
  · cases hn
    exact h.close
  · exact h.step hn

theorem Reaches.refl (table : OperatorTable) (state : State) : Reaches table state state := ⟨0, rfl⟩

theorem Reaches.head {middle : State} (hn : next table start = some middle)
    (h : Reaches table middle state) : Reaches table start state := by
  obtain ⟨steps, ha⟩ := h
  exact ⟨steps + 1, by rw [after, hn, Option.bind_some, ha]⟩

/-- Induction on the way to a state, from its end. -/
@[elab_as_elim]
theorem Reaches.head_induction {motive : ∀ start, Reaches table start state → Prop}
    (h : Reaches table start state) (last : motive state (.refl table state))
    (head : ∀ {start middle} (hn : next table start = some middle)
      (h : Reaches table middle state), motive middle h → motive start (h.head hn)) :
    motive start h := by
  obtain ⟨steps, ha⟩ := h
  induction steps generalizing start with
  | zero =>
    cases ha
    exact last
  | succ steps ih =>
    obtain ⟨middle, hn, ha⟩ := Option.bind_eq_some_iff.mp ha
    exact head hn ⟨steps, ha⟩ (ih ha)

theorem Reaches.cases_tail (h : Reaches table start state) :
    start = state ∨ ∃ before, Reaches table start before ∧ next table before = some state := by
  induction h using Reaches.head_induction with
  | last => exact Or.inl rfl
  | head hn _ ih =>
    obtain rfl | ⟨before, hr, hb⟩ := ih
    · exact Or.inr ⟨_, .refl .., hn⟩
    · exact Or.inr ⟨before, hr.head hn, hb⟩

/-- Each block still stands in one that has such blocks. -/
theorem Reaches.nested (h : Reaches table start state) (hs : start.1.Nested) : state.1.Nested := by
  induction h using Reaches.head_induction with
  | last => exact hs
  | head hn _ ih => exact ih (nested_next hs hn)

theorem not_atLineEnd_close (h : blocks.Nested) (he : AtLineEnd (blocks, cs)) :
    ¬AtLineEnd (blocks.close, cs) := by
  rintro ⟨hi, -⟩
  have hmain : blocks.close.innermost = .main := by rw [Blocks.innermost, h.frames_close he.1]
  rw [hmain] at hi
  cases hi

/-- White space at top level is skipped. -/
theorem step_whitespace {c : Char} (hm : blocks.innermost = .main) (hc : isWhitespace c = true) :
    blocks.step table (c :: cs) = some (blocks, cs.dropWhile isWhitespace) := by
  rw [Blocks.step, hm, scan_whitespace (Or.inl rfl) hc]
  rfl

/-- Behind the value the line break is white space. -/
theorem step_close (h : blocks.Nested) (he : AtLineEnd (blocks, cs)) :
    blocks.close.step table cs = some (blocks.close, cs.dropWhile isWhitespace) := by
  obtain ⟨hi, hb⟩ := he
  cases cs with
  | nil => cases hb
  | cons c cs =>
    have hc : isWhitespace c = true := by
      rcases eq_of_isLineBreak hb with rfl | rfl <;> rfl
    have hm : blocks.close.innermost = .main := by
      rw [Blocks.innermost, h.frames_close hi]
    rw [step_whitespace hm hc, List.dropWhile_cons, if_pos hc]

/-- A step does not change what comes out, where one step without progress is tolerated. -/
theorem run_of_next (hl : 2 ≤ limit) (h : blocks.Nested)
    (hn : next table (blocks, cs) = some state) :
    run table limit source 0 blocks cs = run table limit source 0 state.1 state.2 := by
  by_cases he : AtLineEnd (blocks, cs)
  · rw [next, if_pos he] at hn
    cases hn
    have hnot := not_atLineEnd_close h he
    have hstep : blocks.close.step table cs = some (blocks.close, cs.dropWhile isWhitespace) :=
      step_close h he
    -- the white space that is read then is progress again
    rw [run_of_atLineEnd he, if_neg (by omega), run_of_step (starts_of_not_atLineEnd hnot) hstep,
      run_of_step (starts_of_not_atLineEnd hnot) hstep]
  · rw [next, if_neg he] at hn
    exact run_of_step (starts_of_not_atLineEnd he) hn

theorem run_of_reaches (hl : 2 ≤ limit) (h : start.1.Nested) (hr : Reaches table start state) :
    run table limit source 0 start.1 start.2 = run table limit source 0 state.1 state.2 := by
  induction hr using Reaches.head_induction with
  | last => rfl
  | head hn _ ih => rw [run_of_next hl h hn, ih (nested_next h hn)]

/-- There are two steps at most for each character, also if one fails in the end. -/
theorem exists_last (table : OperatorTable) (h : blocks.Nested) (cs : List Char) :
    ∃ steps last, after table steps (blocks, cs) = some last ∧ next table last = none ∧
      steps ≤ 2 * cs.length ∧ (last.2 ≠ [] → steps < 2 * cs.length) := by
  induction hn : cs.length using Nat.strong_induction_on generalizing blocks cs with
  | _ length ih =>
  subst hn
  cases hnext : next table (blocks, cs) with
  | none =>
    refine ⟨0, (blocks, cs), rfl, hnext, Nat.zero_le _, fun hne => ?_⟩
    have hpos : 0 < cs.length := List.length_pos_iff.mpr hne
    omega
  | some state =>
    by_cases he : AtLineEnd (blocks, cs)
    · -- the value is closed, and then white space is read
      have hstep : blocks.close.step table cs = some (blocks.close, cs.dropWhile isWhitespace) :=
        step_close h he
      have hlt := (Blocks.step_bounds hstep).1
      obtain ⟨steps, last, ha, hlast, hle, hlt'⟩ := ih _ hlt h.close _ rfl
      refine ⟨steps + 2, last, ?_, hlast, by omega, fun hne => ?_⟩
      · rw [after, next, if_pos he, Option.bind_some, after, next,
          if_neg (not_atLineEnd_close h he), hstep, Option.bind_some, ha]
      · have := hlt' hne
        omega
    · obtain ⟨middle, rest⟩ := state
      have hstep : blocks.step table cs = some (middle, rest) := by rwa [next, if_neg he] at hnext
      have hlt := (Blocks.step_bounds hstep).1
      obtain ⟨steps, last, ha, hlast, hle, hlt'⟩ := ih _ hlt (h.step hstep) _ rfl
      refine ⟨steps + 1, last, ?_, hlast, by omega, fun hne => ?_⟩
      · rw [after, hnext, Option.bind_some, ha]
      · have := hlt' hne
        omega

/-- What comes out of a run is the outcome of its last state. -/
theorem run_of_last (hl : 2 ≤ limit) (h : start.1.Nested) (hr : Reaches table start last)
    (hn : next table last = none) :
    run table limit source 0 start.1 start.2 = outcome source last :=
  (run_of_reaches hl h hr).trans (run_of_next_eq_none hn)

/-- Inside values and quoted text, and inside arguments but for line feeds, some rule applies. -/
theorem innermost_of_next_eq_none {c : Char} (h : blocks.Nested)
    (hn : next table (blocks, c :: cs) = none) :
    blocks.innermost = .main ∨ blocks.innermost = .interpolation ∨
      (blocks.innermost = .expression ∧ c = '\n') := by
  by_cases he : AtLineEnd (blocks, c :: cs)
  · rw [next, if_pos he] at hn
    cases hn
  rw [next, if_neg he] at hn
  have hscan : scan blocks.innermost (c :: cs) = none := Option.map_eq_none_iff.mp hn
  have hrules := List.findSome?_eq_none_iff.mp hscan
  have hchar : anyChar (c :: cs) = none → c = '\n' := fun ha => by simpa [anyChar] using ha
  rcases h.isBlock with hi | hi | hi | hi | hi <;> rw [hi] at hrules
  · exact Or.inl hi
  · have hc : c = '\n' := hchar (hrules anyChar (by simp [rules]))
    exact absurd ⟨hi, by rw [hc]; rfl⟩ he
  · exact Or.inr (Or.inl hi)
  · exact Or.inr (Or.inr ⟨hi, hchar (hrules anyChar (by simp [rules]))⟩)
  · have hq : quotedRun (c :: cs) = none := hrules quotedRun (by simp [rules])
    unfold quotedRun at hq
    split at hq <;> cases hq

theorem FirstLineEnd.tail {steps : Nat} (h : FirstLineEnd table start (steps + 1) state) :
    ¬AtLineEnd start ∧ ∃ middle, next table start = some middle ∧
      FirstLineEnd table middle steps state := by
  obtain ⟨ha, he, hfirst⟩ := h
  obtain ⟨middle, hn, ha⟩ := Option.bind_eq_some_iff.mp ha
  refine ⟨hfirst 0 (Nat.succ_pos _) start rfl, middle, hn, ha, he, fun earlier hlt before hb => ?_⟩
  refine hfirst (earlier + 1) (Nat.succ_lt_succ hlt) before ?_
  rw [after, hn, Option.bind_some, hb]

/-- A run that tolerates no step without progress ends where the first line break closes a value. -/
theorem run_of_firstLineEnd {steps : Nat} (h : FirstLineEnd table (blocks, cs) steps state) :
    run table 1 source 0 blocks cs =
      .error (.stuckTokenizer (byteLength (consumed source state.2)) 1) := by
  induction steps generalizing blocks cs with
  | zero =>
    obtain ⟨ha, he, -⟩ := h
    cases ha
    rw [run_of_atLineEnd he, if_pos (Nat.le_refl _)]
  | succ steps ih =>
    obtain ⟨he, ⟨middle, rest⟩, hn, h⟩ := h.tail
    rw [next, if_neg he] at hn
    rw [run_of_step (starts_of_not_atLineEnd he) hn, ih h]

/-- A run that takes a character in each step does not depend on its limit. -/
theorem run_of_forall_not_atLineEnd {other : Nat}
    (h : ∀ state, Reaches table (blocks, cs) state → ¬AtLineEnd state) :
    run table limit source 0 blocks cs = run table other source 0 blocks cs := by
  induction hn : cs.length using Nat.strong_induction_on generalizing blocks cs with
  | _ length ih =>
  subst hn
  have he : ¬AtLineEnd (blocks, cs) := h _ (Reaches.refl ..)
  cases hnext : next table (blocks, cs) with
  | none => rw [run_of_next_eq_none hnext, run_of_next_eq_none hnext]
  | some middle =>
    obtain ⟨middle, rest⟩ := middle
    have hstep : blocks.step table cs = some (middle, rest) := by rwa [next, if_neg he] at hnext
    rw [run_of_step (starts_of_not_atLineEnd he) hstep,
      run_of_step (starts_of_not_atLineEnd he) hstep]
    exact ih _ (Blocks.step_bounds hstep).1 (fun state hr => h state (hr.head hnext)) rfl

theorem exists_firstLineEnd (hr : Reaches table start state) (he : AtLineEnd state) :
    ∃ first state, FirstLineEnd table start first state := by
  classical
  obtain ⟨steps, ha⟩ := hr
  have hex : ∃ steps state, after table steps start = some state ∧ AtLineEnd state :=
    ⟨steps, state, ha, he⟩
  obtain ⟨state, ha, he⟩ := Nat.find_spec hex
  refine ⟨Nat.find hex, state, ha, he, fun earlier hlt before hb hbe => ?_⟩
  exact Nat.find_min hex hlt ⟨before, hb, hbe⟩

/-- How the reading of a text ends from the state `start` on, by the limit. -/
structure Stops {α : Type} (source : List Char) (start : State)
    (result : (limit : Nat) → Except Error α) : Prop where
  /-- There are at most two steps for each character, with the one that fails. They end at the end
  of the text, or where no rule applies, and then the text is refused. -/
  ends : ∀ limit, 2 ≤ limit → ∃ steps last, after .standard steps start = some last ∧
    next .standard last = none ∧ steps ≤ 2 * start.2.length ∧
    (last.2 = [] ∧ (∃ a, result limit = .ok a) ∨
      last.2 ≠ [] ∧ steps < 2 * start.2.length ∧
        result limit = .error (unrecognized source last.2))
  neverStuck : ∀ limit, 2 ≤ limit → ∀ offset attempts,
    result limit ≠ .error (.stuckTokenizer offset attempts)
  /-- With a limit of one, or none, the first line break that closes a value is refused. -/
  stuck : ∀ limit < 2, ∀ offset attempts,
    result limit = .error (.stuckTokenizer offset attempts) ↔
      ∃ steps state, FirstLineEnd .standard start steps state ∧
        offset = byteLength (consumed source state.2) ∧ attempts = 1
  /-- Where no line break closes a value, the limit does not matter. -/
  unstuck : ∀ limit < 2,
    (∀ state, Reaches .standard start state → ¬AtLineEnd state) →
      result limit = result defaultLimit
  /-- A text is refused at top level, in a reference before its operators, or at a line feed in an
  argument. -/
  refused : ∀ limit line column excerpt,
    result limit = .error (.unrecognizedToken line column excerpt) →
      ∃ last, Reaches .standard start last ∧ next .standard last = none ∧
        .unrecognizedToken line column excerpt = unrecognized source last.2 ∧
        (last.1.innermost = .main ∨ last.1.innermost = .interpolation ∨
          (last.1.innermost = .expression ∧ last.2.head? = some '\n'))

theorem error_of_outcome {α : Type} {f : Blocks → α} {e : Error}
    (h : (outcome source last).map f = .error e) :
    last.2 ≠ [] ∧ e = unrecognized source last.2 := by
  unfold outcome at h
  split at h
  · cases h
  · next hne =>
    cases h
    exact ⟨hne, rfl⟩

theorem stops_of_run {α : Type} {result : Nat → Except Error α} {f : Blocks → α}
    (h : start.1.Nested)
    (hr : ∀ limit, result limit = (run .standard (max limit 1) source 0 start.1 start.2).map f) :
    Stops source start result := by
  obtain ⟨blocks, cs⟩ := start
  have hends : ∀ limit, 2 ≤ limit → ∃ steps last, after .standard steps (blocks, cs) = some last ∧
      next .standard last = none ∧ result limit = (outcome source last).map f ∧
      steps ≤ 2 * cs.length ∧ (last.2 ≠ [] → steps < 2 * cs.length) := by
    intro limit hl
    have hmax : 2 ≤ max limit 1 := by omega
    obtain ⟨steps, last, ha, hn, hle, hlt⟩ := exists_last .standard h cs
    exact ⟨steps, last, ha, hn, by rw [hr, run_of_last hmax h ⟨steps, ha⟩ hn], hle, hlt⟩
  have hnever : ∀ limit, 2 ≤ limit → ∀ offset attempts,
      result limit ≠ .error (.stuckTokenizer offset attempts) := by
    intro limit hl offset attempts hs
    obtain ⟨-, last, -, -, ho, -⟩ := hends limit hl
    rw [ho] at hs
    cases (error_of_outcome hs).2
  have hunstuck : ∀ limit,
      (∀ state, Reaches .standard (blocks, cs) state → ¬AtLineEnd state) →
        result limit = result defaultLimit := fun limit hnone => by
    rw [hr, hr, run_of_forall_not_atLineEnd hnone]
  have hstuck : ∀ limit < 2, ∀ steps state, FirstLineEnd .standard (blocks, cs) steps state →
      result limit = .error (.stuckTokenizer (byteLength (consumed source state.2)) 1) := by
    intro limit hl steps state hf
    have hone : max limit 1 = 1 := by omega
    rw [hr, hone, run_of_firstLineEnd hf]
    rfl
  refine ⟨fun limit hl => ?_, hnever, fun limit hl offset attempts => ⟨fun hs => ?_, ?_⟩,
    fun limit _ => hunstuck limit, fun limit line column excerpt he => ?_⟩
  · obtain ⟨steps, last, ha, hn, ho, hle, hlt⟩ := hends limit hl
    refine ⟨steps, last, ha, hn, hle, ?_⟩
    rw [ho, outcome]
    by_cases hne : last.2 = []
    · exact Or.inl ⟨hne, f last.1, by rw [if_pos hne]; rfl⟩
    · exact Or.inr ⟨hne, hlt hne, by rw [if_neg hne]; rfl⟩
  · by_cases hnone : ∀ state, Reaches .standard (blocks, cs) state → ¬AtLineEnd state
    · rw [hunstuck limit hnone] at hs
      exact absurd hs (hnever defaultLimit (by decide) offset attempts)
    · push Not at hnone
      obtain ⟨_, hreach, he⟩ := hnone
      obtain ⟨first, state, hf⟩ := exists_firstLineEnd hreach he
      rw [hstuck limit hl first state hf] at hs
      cases hs
      exact ⟨first, state, hf, rfl, rfl⟩
  · rintro ⟨steps, state, hf, rfl, rfl⟩
    exact hstuck limit hl steps state hf
  · -- with a low limit the refusal is that of the default limit
    obtain ⟨limit, hl, he⟩ : ∃ limit, 2 ≤ limit ∧
        result limit = .error (.unrecognizedToken line column excerpt) := by
      by_cases hl : 2 ≤ limit
      · exact ⟨limit, hl, he⟩
      refine ⟨defaultLimit, by decide, ?_⟩
      rw [← hunstuck limit fun state hreach hline => ?_]
      · exact he
      obtain ⟨first, state, hf⟩ := exists_firstLineEnd hreach hline
      rw [hstuck limit (Nat.lt_of_not_le hl) first state hf] at he
      cases he
    obtain ⟨steps, ⟨last, rest⟩, ha, hn, ho, -⟩ := hends limit hl
    rw [ho] at he
    obtain ⟨hne, herror⟩ := error_of_outcome he
    have hreach : Reaches .standard (blocks, cs) (last, rest) := ⟨steps, ha⟩
    have hnested : last.Nested := hreach.nested h
    refine ⟨(last, rest), hreach, hn, herror, ?_⟩
    cases rest with
    | nil => exact absurd rfl hne
    | cons c rest =>
      obtain hi | hi | ⟨hi, rfl⟩ := innermost_of_next_eq_none hnested hn
      · exact Or.inl hi
      · exact Or.inr (Or.inl hi)
      · exact Or.inr (Or.inr ⟨hi, rfl⟩)

end Tokenize

open Tokenize

/-- The tokenizer ends on every text, and each of its failures has its own cause. So it is with
whole texts and with the value of one assignment. -/
theorem tokenize_stops (text : String) :
    Stops text.toList ({}, text.toList) (tokenize text ·) ∧
      Stops text.toList
        (Blocks.enter {} { kind := .assignment, value := "" }, text.toList.dropWhile Text.isBlank)
        (tokenizeValue text ·) := by
  have hmap : ∀ {α β γ : Type} (x : Except Error α) (f : α → β) (g : β → γ),
      (x.map f).map g = x.map (g ∘ f) := by
    intro α β γ x f g
    cases x <;> rfl
  constructor
  · exact stops_of_run (f := TokenTree.ofTokens ∘ Blocks.finish) trivial fun limit => hmap ..
  · exact stops_of_run (f := (fun tokens => (TokenTree.ofTokens tokens, 1)) ∘ Blocks.finish)
      ⟨Or.inr (Or.inl rfl), Kind.noConfusion, List.mem_cons_of_mem _ (by decide), trivial⟩
      fun limit => hmap ..

/-- The line break inside the quotes closes nothing; the one behind them does. -/
example : Tokenize.tokens 1 "A=\"x\n\"\nB=".toList {} "A=\"x\n\"\nB=".toList =
    .error (.stuckTokenizer 6 1) := by decide +kernel

end LayeredEnv
