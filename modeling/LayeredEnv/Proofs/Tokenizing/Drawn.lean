import LayeredEnv.Proofs.Tokenizing.Grammar
import LayeredEnv.Proofs.Tokenizing.Steps

namespace LayeredEnv

open Text

namespace Lexeme

def chars : Lexeme → List Char
  | .nothing => []
  | .text chars => chars
  | .leaf _ value => value
  | .openAssignment name => name
  | .openInterpolation _ name => name
  | .closeInterpolation => ['\x7d']
  | .operators first second => first :: second.toList
  | .openQuote | .closeQuote => ['"']

variable {p : Char → Bool} {cs rest run : List Char} {block : Kind} {lexeme : Lexeme} {c : Char}

def Draws (rule : Scanner) : Prop :=
  ∀ {cs rest lexeme}, rule cs = some (lexeme, rest) → ∀ c, c ∈ lexeme.chars ∨ c ∈ rest → c ∈ cs

theorem mem_of_takeRun (h : takeRun p cs = some (run, rest)) (hm : c ∈ run ∨ c ∈ rest) :
    c ∈ cs := by
  obtain ⟨rfl, -⟩ := takeRun_eq_some_iff.mp h
  exact List.mem_append.mpr hm

theorem mem_of_mem_dropWhile (h : c ∈ cs.dropWhile p) : c ∈ cs := (List.dropWhile_sublist p).mem h

theorem mem_of_mem_dropOptional {d : Char} (h : c ∈ dropOptional d cs) : c ∈ cs := by
  cases cs with
  | nil => exact h
  | cons e cs =>
    rw [dropOptional] at h
    split at h
    · exact List.mem_cons_of_mem _ h
    · exact h

theorem mem_of_dropKeyword {word : List Char} (h : dropKeyword word cs = some rest)
    (hm : c ∈ rest) : c ∈ cs := by
  fun_induction dropKeyword word cs with
  | case1 cs =>
    cases h
    exact hm
  | case2 => cases h
  | case3 w word d cs _ ih => exact List.mem_cons_of_mem _ (ih h)
  | case4 => cases h

theorem mem_of_directive {word : String} (h : directive word cs = some rest) (hm : c ∈ rest) :
    c ∈ cs := by
  unfold directive at h
  split at h
  · next tail hd =>
    have htail : c ∈ tail := mem_of_mem_dropWhile (mem_of_dropKeyword h hm)
    exact mem_of_mem_dropOptional (hd ▸ List.mem_cons_of_mem _ htail)
  · cases h

theorem includeFlag_draws : Draws includeFlag := by
  intro cs rest lexeme h c hm
  obtain ⟨_, a, _, b, name, d, rfl, rfl, ha, hb, hd, rfl⟩ := includeFlag_eq_some h
  have hname : c ∈ name ∨ c ∈ d := hm.imp_right mem_of_mem_dropOptional
  have hb' : c ∈ a := mem_of_takeRun hb (.inr (mem_of_mem_dropOptional (mem_of_takeRun hd hname)))
  exact List.mem_cons_of_mem _ (mem_of_directive ha hb')

theorem preserveFlag_draws : Draws preserveFlag := by
  intro cs rest lexeme h c hm
  obtain ⟨_, a, rfl, rfl, ha, rfl⟩ := preserveFlag_eq_some h
  have hm : c ∈ a.dropWhile isSpace := hm.resolve_left List.not_mem_nil
  exact List.mem_cons_of_mem _ (mem_of_directive ha (mem_of_mem_dropWhile hm))

theorem escaped_draws : Draws escaped := by
  intro cs rest lexeme h c hm
  obtain ⟨d, rfl, rfl, -⟩ := escaped_eq_some h
  simp only [chars, List.mem_cons, List.not_mem_nil, or_false] at hm ⊢
  exact .inr hm

theorem assignment_draws : Draws assignment := by
  intro cs rest lexeme h c hm
  obtain ⟨name, _, rfl, ha, rfl⟩ := assignment_eq_some h
  exact mem_of_takeRun ha (hm.imp_right fun hm => List.mem_cons_of_mem _ (mem_of_mem_dropWhile hm))

theorem trailingBlanks_draws : Draws trailingBlanks := by
  intro cs rest lexeme h c hm
  obtain ⟨_, rfl, ha, -⟩ := trailingBlanks_eq_some h
  exact mem_of_takeRun ha (.inr (hm.resolve_left List.not_mem_nil))

theorem mem_of_mem_lengthMark (h : c ∈ (lengthMark cs).2) : c ∈ cs := by
  unfold lengthMark at h
  split at h
  · exact List.mem_cons_of_mem _ (mem_of_mem_dropWhile h)
  · exact h

theorem interpolation_draws : Draws interpolation := by
  intro cs rest lexeme h c hm
  obtain ⟨_, name, b, rfl, rfl, hb, rfl⟩ := interpolation_eq_some h
  have hmarked := mem_of_takeRun hb (hm.imp_right mem_of_mem_dropWhile)
  have htail := mem_of_mem_dropWhile (mem_of_mem_lengthMark hmarked)
  exact List.mem_cons_of_mem _ (List.mem_cons_of_mem _ htail)

theorem interpolationEnd_draws : Draws interpolationEnd := by
  intro cs rest lexeme h c hm
  obtain ⟨rfl, rfl⟩ := interpolationEnd_eq_some h
  simpa [chars] using hm

theorem operatorRun_draws : Draws operatorRun := by
  intro cs rest lexeme h c hm
  obtain ⟨d, rfl, rfl, -⟩ := operatorRun_eq_some h
  have hsecond : c ∈ (rest.head?.filter isOperatorChar).toList → c ∈ rest := by
    intro hc
    rw [Option.mem_toList, Option.filter_eq_some_iff] at hc
    exact List.mem_of_mem_head? (Option.mem_def.mpr hc.1)
  simp only [chars, List.mem_cons, or_assoc] at hm ⊢
  exact hm.imp_right fun hm => hm.elim hsecond id

theorem reference_draws : Draws reference := by
  intro cs rest lexeme h c hm
  obtain ⟨_, name, rfl, rfl, hn⟩ := reference_eq_some h
  exact List.mem_cons_of_mem _ (mem_of_takeRun hn hm)

theorem quoteStart_draws : Draws quoteStart := by
  intro cs rest lexeme h c hm
  obtain ⟨rfl, rfl⟩ := quoteStart_eq_some h
  simpa [chars] using hm

theorem quoteEnd_draws : Draws quoteEnd := by
  intro cs rest lexeme h c hm
  obtain ⟨rfl, rfl⟩ := quoteEnd_eq_some h
  simpa [chars] using hm

theorem comment_draws : Draws comment := by
  intro cs rest lexeme h c hm
  obtain ⟨_, rfl, rfl, rfl⟩ := comment_eq_some h
  refine List.mem_cons_of_mem _ (@mem_of_mem_dropOptional _ _ ' ' ?_)
  exact hm.elim (fun hm => (List.takeWhile_sublist _).mem hm) mem_of_mem_dropWhile

theorem whitespace_draws : Draws whitespace := by
  intro cs rest lexeme h c hm
  obtain ⟨_, rfl, hb⟩ := whitespace_eq_some h
  exact mem_of_takeRun hb (.inr (hm.resolve_left List.not_mem_nil))

theorem anyChar_draws : Draws anyChar := by
  intro cs rest lexeme h c hm
  obtain ⟨d, rfl, rfl, -⟩ := anyChar_eq_some h
  simpa [chars] using hm

theorem valueRun_draws : Draws valueRun := by
  intro cs rest lexeme h c hm
  obtain ⟨run, rfl, rfl, -⟩ := valueRun_eq_some h
  exact List.mem_append.mpr hm

theorem blankRun_draws : Draws blankRun := by
  intro cs rest lexeme h c hm
  obtain ⟨run, rfl, hb⟩ := blankRun_eq_some h
  exact mem_of_takeRun hb hm

theorem quotedRun_draws : Draws quotedRun := by
  intro cs rest lexeme h c hm
  obtain ⟨run, rfl, rfl, -⟩ := quotedRun_eq_some h
  exact List.mem_append.mpr hm

theorem argumentRun_draws : Draws argumentRun := by
  intro cs rest lexeme h c hm
  obtain ⟨run, rfl, hb⟩ := argumentRun_eq_some h
  exact mem_of_takeRun hb hm

theorem rules_draw (block : Kind) : ∀ rule ∈ rules block, Draws rule := by
  have top : ∀ rule ∈ rules .main, Draws rule := by
    simp only [rules, List.forall_mem_cons]
    exact ⟨includeFlag_draws, preserveFlag_draws, escaped_draws, assignment_draws, comment_draws,
      whitespace_draws, by simp⟩
  cases block with
  | assignment =>
    simp only [rules, List.forall_mem_cons]
    exact ⟨escaped_draws, trailingBlanks_draws, interpolation_draws, reference_draws,
      quoteStart_draws, comment_draws, valueRun_draws, blankRun_draws, anyChar_draws, by simp⟩
  | interpolation =>
    simp only [rules, List.forall_mem_cons]
    exact ⟨escaped_draws, interpolationEnd_draws, operatorRun_draws, whitespace_draws, by simp⟩
  | expression =>
    simp only [rules, List.forall_mem_cons]
    exact ⟨escaped_draws, interpolation_draws, interpolationEnd_draws, operatorRun_draws,
      reference_draws, quoteStart_draws, argumentRun_draws, anyChar_draws, by simp⟩
  | quoted =>
    simp only [rules, List.forall_mem_cons]
    exact ⟨escaped_draws, interpolation_draws, reference_draws, quoteEnd_draws, quotedRun_draws,
      by simp⟩
  | main | text | comment | includeFlag | preserveFlag => exact top

/-- What is read from a text, and what is left of it, has its characters from there. -/
theorem mem_of_scan (h : scan block cs = some (lexeme, rest))
    (hm : c ∈ lexeme.chars ∨ c ∈ rest) : c ∈ cs := by
  obtain ⟨rule, hrule, hr⟩ := List.exists_of_findSome?_eq_some h
  exact rules_draw block rule hrule hr c hm

end Lexeme
namespace Token

def Drawn (source : List Char) (t : Token) : Prop := ∀ u, t.Has u → u.value.toList ⊆ source

variable {source : List Char} {kind : Kind} {value : String} {isLength : Bool}
  {children : List Token}

theorem drawn_node_iff : Drawn source (.node kind value isLength children) ↔
    value.toList ⊆ source ∧ ∀ t ∈ children, t.Drawn source := by
  constructor
  · intro h
    exact ⟨h _ (.self _), fun t ht u hu => h u (.child ht hu)⟩
  · rintro ⟨hvalue, hchildren⟩ u hu
    cases hu with
    | self => exact hvalue
    | child hm hu => exact hchildren _ hm u hu

theorem drawn_leaf (h : value.toList ⊆ source) : (leaf kind value).Drawn source :=
  drawn_node_iff.mpr ⟨h, fun _ ht => nomatch ht⟩

end Token

namespace Blocks

open Lexeme

/-- No token that was read, and no open block, has a character that the text has not. -/
structure Drawn (source : List Char) (blocks : Blocks) : Prop where
  top : ∀ t ∈ blocks.top, t.Drawn source
  frames : ∀ frame ∈ blocks.frames,
    frame.value.toList ⊆ source ∧ ∀ t ∈ frame.children, t.Drawn source

variable {source : List Char} {blocks : Blocks} {t : Token} {ts : List Token} {frame : Frame}
  {lexeme : Lexeme} {table : OperatorTable}

theorem Drawn.current (h : blocks.Drawn source) : ∀ t ∈ blocks.current, t.Drawn source := by
  obtain ⟨_ | ⟨frame, frames⟩, top⟩ := blocks
  · exact h.top
  · exact (h.frames frame List.mem_cons_self).2

theorem Drawn.setCurrent (h : blocks.Drawn source) (hts : ∀ t ∈ ts, t.Drawn source) :
    (blocks.setCurrent ts).Drawn source := by
  obtain ⟨_ | ⟨frame, frames⟩, top⟩ := blocks
  · exact ⟨hts, h.frames⟩
  · obtain ⟨hframe, hframes⟩ := List.forall_mem_cons.mp h.frames
    exact ⟨h.top, List.forall_mem_cons.mpr ⟨⟨hframe.1, hts⟩, hframes⟩⟩

theorem Drawn.push (h : blocks.Drawn source) (ht : t.Drawn source) :
    (blocks.push t).Drawn source :=
  h.setCurrent (List.forall_mem_cons.mpr ⟨ht, h.current⟩)

theorem Drawn.pushText {text : String} (h : blocks.Drawn source) (ht : text.toList ⊆ source) :
    (blocks.pushText text).Drawn source := by
  obtain hne | ⟨value, isLength, children, ts, hc⟩ := Token.text_cases blocks.current
  · rw [pushText_of_ne hne]
    exact h.push (Token.drawn_leaf ht)
  · have hcurrent := h.current
    rw [hc, List.forall_mem_cons, Token.drawn_node_iff] at hcurrent
    obtain ⟨⟨hvalue, hchildren⟩, hts⟩ := hcurrent
    rw [pushText_of_text hc]
    refine h.setCurrent (List.forall_mem_cons.mpr ⟨Token.drawn_node_iff.mpr ⟨?_, hchildren⟩, hts⟩)
    rw [String.toList_append]
    exact List.append_subset.mpr ⟨hvalue, ht⟩

theorem Drawn.enter (h : blocks.Drawn source) (hvalue : frame.value.toList ⊆ source)
    (hchildren : frame.children = []) : (blocks.enter frame).Drawn source := by
  refine ⟨h.top, List.forall_mem_cons.mpr ⟨⟨hvalue, ?_⟩, h.frames⟩⟩
  rw [hchildren]
  exact fun _ ht => nomatch ht

theorem Drawn.close (h : blocks.Drawn source) : blocks.close.Drawn source := by
  obtain ⟨_ | ⟨frame, frames⟩, top⟩ := blocks
  · exact h
  · obtain ⟨⟨hvalue, hchildren⟩, hframes⟩ := List.forall_mem_cons.mp h.frames
    have hrest : Drawn source ⟨frames, top⟩ := ⟨h.top, hframes⟩
    refine hrest.push (Token.drawn_node_iff.mpr ⟨hvalue, fun t ht => ?_⟩)
    exact hchildren t (List.mem_reverse.mp ht)

theorem Drawn.closeTo (h : blocks.Drawn source) (kind : Kind) :
    (blocks.closeTo kind).Drawn source := by
  fun_induction Blocks.closeTo kind blocks with
  | case1 => exact h
  | case2 => exact h
  | case3 blocks _ _ ih => exact ih h.close

theorem Drawn.closeNearest (h : blocks.Drawn source) (kind : Kind) :
    (blocks.closeNearest kind).Drawn source := by
  rw [closeNearest_eq]
  exact (h.closeTo kind).close

theorem Drawn.apply (h : blocks.Drawn source) (hl : lexeme.chars ⊆ source) :
    (blocks.apply table lexeme).1.Drawn source := by
  have hempty : "".toList ⊆ source := List.nil_subset _
  cases lexeme with
  | nothing => exact h
  | text value => exact h.pushText (by simpa [chars] using hl)
  | leaf kind value => exact h.push (Token.drawn_leaf (by simpa [chars] using hl))
  | openAssignment name => exact h.enter (by simpa [chars] using hl) rfl
  | openInterpolation isLength name => exact h.enter (by simpa [chars] using hl) rfl
  | closeInterpolation => exact h.closeNearest .interpolation
  | operators first second =>
    simp only [Blocks.apply, operate]
    split
    · next symbol hp =>
      have hsymbol : symbol ⊆ source := by
        obtain rfl | ⟨c, rfl, rfl⟩ := OperatorTable.pick_cases hp
        · exact fun c hc => hl (List.mem_cons.mpr (.inl (List.mem_singleton.mp hc)))
        · exact hl
      exact (h.closeTo .interpolation).enter (by simpa using hsymbol) rfl
    · refine h.pushText fun c hc => hl ?_
      rw [String.toList_ofList, List.mem_singleton] at hc
      exact hc ▸ List.mem_cons_self
  | openQuote => exact h.enter hempty rfl
  | closeQuote => exact h.closeNearest .quoted

theorem Drawn.step {next : Blocks} {cs rest : List Char} (h : blocks.Drawn source)
    (hcs : cs ⊆ source) (hs : blocks.step table cs = some (next, rest)) :
    next.Drawn source ∧ rest ⊆ source := by
  obtain ⟨⟨lexeme, tail⟩, hscan, he⟩ := Option.map_eq_some_iff.mp hs
  obtain ⟨rfl, rfl⟩ := Prod.mk.inj he
  exact ⟨h.apply fun c hm => hcs (mem_of_scan hscan (.inl hm)),
    fun c hm => hcs (mem_of_scan hscan (.inr (List.mem_of_mem_drop hm)))⟩

theorem drawn_of_run {limit idle : ℕ} {text cs : List Char} {last : Blocks}
    (h : blocks.Drawn source) (hcs : cs ⊆ source)
    (hr : Tokenize.run table limit text idle blocks cs = .ok last) : last.Drawn source := by
  fun_induction Tokenize.run table limit text idle blocks cs with
  | case1 =>
    cases hr
    exact h
  | case2 => cases hr
  | case3 _ _ _ _ _ _ ih => exact ih h.close hcs hr
  | case4 => cases hr
  | case5 _ _ _ _ _ _ _ hs ih =>
    obtain ⟨hnext, hrest⟩ := h.step hcs hs
    exact ih hnext hrest hr

end Blocks

namespace Tokenize

variable {table : OperatorTable} {start state : State}

/-- What is left to read gets no new characters. -/
theorem subset_of_next (hn : next table start = some state) : state.2 ⊆ start.2 := by
  obtain ⟨blocks, cs⟩ := start
  unfold next at hn
  split at hn
  · cases hn
    exact List.Subset.refl _
  · obtain ⟨⟨lexeme, rest⟩, hscan, he⟩ := Option.map_eq_some_iff.mp hn
    cases he
    exact fun c hm => Lexeme.mem_of_scan hscan (.inr (List.mem_of_mem_drop hm))

theorem Reaches.subset (hr : Reaches table start state) : state.2 ⊆ start.2 := by
  induction hr using Reaches.head_induction with
  | last => exact List.Subset.refl _
  | head hn _ ih => exact fun c hm => subset_of_next hn (ih hm)

end Tokenize

/-- The tokens of a text have no characters that the text has not. -/
theorem drawn_of_tokenize {text : String} {limit : ℕ} {tree : TokenTree}
    (h : tokenize text limit = .ok tree) : ∀ t ∈ tree.topTokens, t.Drawn text.toList := by
  obtain ⟨ts, rfl, hts⟩ := TokenTree.exists_tokens_of_tokenize h
  obtain ⟨last, hr, -, rfl⟩ := Tokenize.exists_run_of_tokens hts
  have hempty : Blocks.Drawn text.toList {} := ⟨(fun _ ht => nomatch ht), fun _ hf => nomatch hf⟩
  have hlast := Blocks.drawn_of_run hempty (List.Subset.refl _) hr
  rw [TokenTree.topTokens_ofTokens]
  intro t hm
  exact (hlast.closeNearest .main).top t (List.mem_reverse.mp hm)

end LayeredEnv
