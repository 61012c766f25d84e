import LayeredEnv.Proofs.Tokenizing.Reading
import LayeredEnv.Proofs.Tokenizing.Wording

namespace LayeredEnv

open Text Lexeme

def Token.symbols (earlier : List Token) : List String :=
  ((earlier.filter fun t => t.kind == .expression).map value).reverse

/-- A symbol after earlier siblings, last first. The table picks it, and it was in view when the
symbol right before it was picked. -/
structure Cut (table : OperatorTable) (earlier : List Token) (symbol : List Char) : Prop where
  picked : ∃ first second, table.pick (Token.symbols earlier) first second = some symbol
  viewed : ∀ e before, earlier = e :: before → e.kind = .expression → e.children = [] →
    ∀ c, e.value.toList = [c] → table.pick (Token.symbols before) c symbol.head? = some [c]

/-- A token of a kind and a text may stand in a block after earlier tokens, which are given last
first. -/
structure Admits (table : OperatorTable) (parent : Kind) (earlier : List Token) (kind : Kind)
    (value : String) (isLength : Bool) : Prop where
  mem : kind ∈ parent.contents
  wording : Wording parent kind value.toList
  mark : isLength = true → kind = .interpolation
  apart : ∀ t ∈ earlier.head?, ¬(t.kind = .text ∧ kind = .text)
  last : parent = .assignment → ∀ t ∈ earlier.head?, t.kind ≠ .comment
  first : parent = .interpolation → earlier ≠ [] → kind = .expression
  cut : kind = .expression → Cut table earlier value.toList

/-- A property of tokens in their places: of the parent's kind, the earlier siblings, last first,
and the token. -/
abbrev Placed : Type := Kind → List Token → Token → Prop

mutual

def Token.Everywhere (p : Placed) : Token → Prop
  | .node kind _ _ children => Token.EverywhereAll p kind [] children

def Token.EverywhereAll (p : Placed) (parent : Kind) (earlier : List Token) : List Token → Prop
  | [] => True
  | t :: ts => p parent earlier t ∧ Token.Everywhere p t ∧
      Token.EverywhereAll p parent (t :: earlier) ts

end

namespace Token

variable {p q r : Placed} {parent : Kind} {earlier ts : List Token} {t : Token}

theorem everywhereAll_concat : EverywhereAll p parent earlier (ts ++ [t]) ↔
    EverywhereAll p parent earlier ts ∧ p parent (ts.reverse ++ earlier) t ∧ t.Everywhere p := by
  induction ts generalizing earlier with
  | nil => simp [EverywhereAll]
  | cons u ts ih =>
    rw [List.cons_append, EverywhereAll, EverywhereAll, ih, List.reverse_cons, List.append_assoc,
      List.singleton_append, and_assoc, and_assoc]

/-- Siblings that are given last first. -/
theorem everywhereAll_reverse_cons : EverywhereAll p parent [] (t :: ts).reverse ↔
    EverywhereAll p parent [] ts.reverse ∧ p parent ts t ∧ t.Everywhere p := by
  rw [List.reverse_cons, everywhereAll_concat, List.reverse_reverse, List.append_nil]

mutual

theorem Everywhere.and (h : ∀ parent earlier t, p parent earlier t → q parent earlier t →
    r parent earlier t) : ∀ {t : Token}, t.Everywhere p → t.Everywhere q → t.Everywhere r
  | .node _ _ _ _, hp, hq => EverywhereAll.and h hp hq

theorem EverywhereAll.and (h : ∀ parent earlier t, p parent earlier t → q parent earlier t →
    r parent earlier t) : ∀ {parent : Kind} {earlier ts : List Token},
    EverywhereAll p parent earlier ts → EverywhereAll q parent earlier ts →
      EverywhereAll r parent earlier ts
  | _, _, [], _, _ => trivial
  | _, _, _ :: _, ⟨hp, ht, hts⟩, ⟨hq, hu, hus⟩ =>
    ⟨h _ _ _ hp hq, Everywhere.and h ht hu, EverywhereAll.and h hts hus⟩

end

theorem EverywhereAll.imp (h : ∀ parent earlier t, p parent earlier t → q parent earlier t)
    (hp : EverywhereAll p parent earlier ts) : EverywhereAll q parent earlier ts :=
  EverywhereAll.and (fun parent earlier t hp _ => h parent earlier t hp) hp hp

def Arranged (table : OperatorTable) : Placed := fun parent earlier t =>
  Admits table parent earlier t.kind t.value t.isLength

theorem Arranged.isLength_eq_false {table : OperatorTable} (h : Arranged table parent earlier t)
    (hk : t.kind ≠ .interpolation) : t.isLength = false := by
  by_contra hl
  exact hk (h.mark (eq_true_of_ne_false hl))

abbrev ShapedAll (table : OperatorTable) (parent : Kind) (ts : List Token) : Prop :=
  EverywhereAll (Arranged table) parent [] ts

abbrev Shaped (table : OperatorTable) (t : Token) : Prop := t.Everywhere (Arranged table)

theorem shapedAll_reverse_cons {table : OperatorTable} :
    ShapedAll table parent (t :: ts).reverse ↔ ShapedAll table parent ts.reverse ∧
      Admits table parent ts t.kind t.value t.isLength ∧ t.Shaped table :=
  everywhereAll_reverse_cons

end Token

variable {table : OperatorTable} {ts : List Token} {t : Token}

namespace Blocks

/-- Every open block may stand where it is, and everything read so far is shaped. -/
def ShapedFrames (table : OperatorTable) (top : List Token) : List Frame → Prop
  | [] => Token.ShapedAll table .main top.reverse
  | frame :: frames =>
    (IsBlock frame.kind ∧ frame.kind ≠ .main) ∧
    Admits table (innermost ⟨frames, top⟩) (current ⟨frames, top⟩) frame.kind frame.value
      frame.isLength ∧
    Token.ShapedAll table frame.kind frame.children.reverse ∧ ShapedFrames table top frames

def Shaped (table : OperatorTable) (blocks : Blocks) : Prop :=
  ShapedFrames table blocks.top blocks.frames

/-- The innermost block is ready for the text `cs`: a comment goes on to the end of its line, and a
symbol of one character was picked with a view of the next. -/
structure Poised (table : OperatorTable) (blocks : Blocks) (cs : List Char) : Prop where
  comment : blocks.innermost = .assignment → ∀ t ∈ blocks.current.head?, t.kind = .comment →
    Starts isLineBreak cs
  reference : blocks.innermost = .interpolation → ∀ t ∈ blocks.current, t.kind ≠ .expression
  symbol : ∀ frame frames, blocks.frames = frame :: frames → frame.kind = .expression →
    frame.children = [] → ∀ c, frame.value.toList = [c] →
    table.pick (Token.symbols (current ⟨frames, blocks.top⟩)) c
      (cs.head?.filter isOperatorChar) = some [c]

variable {blocks : Blocks} {cs rest : List Char} {frame : Frame} {frames : List Frame}
  {top : List Token}

theorem Shaped.current (h : blocks.Shaped table) :
    Token.ShapedAll table blocks.innermost blocks.current.reverse := by
  obtain ⟨_ | ⟨frame, frames⟩, top⟩ := blocks
  · exact h
  · exact h.2.2.1

theorem Shaped.isBlock (h : blocks.Shaped table) : IsBlock blocks.innermost := by
  obtain ⟨_ | ⟨frame, frames⟩, top⟩ := blocks
  · exact Or.inl rfl
  · exact h.1.1

theorem Shaped.admits_head (h : blocks.Shaped table) (ht : t ∈ blocks.current.head?) :
    ∃ before, blocks.current = t :: before ∧
      Admits table blocks.innermost before t.kind t.value t.isLength := by
  obtain ⟨before, hb⟩ := List.head?_eq_some_iff.mp ht
  have hc := h.current
  rw [hb, Token.shapedAll_reverse_cons] at hc
  exact ⟨before, hb, hc.2.1⟩

theorem Shaped.setCurrent (h : blocks.Shaped table)
    (hs : Token.ShapedAll table blocks.innermost ts.reverse) :
    (blocks.setCurrent ts).Shaped table := by
  obtain ⟨_ | ⟨frame, frames⟩, top⟩ := blocks
  · exact hs
  · exact ⟨h.1, h.2.1, hs, h.2.2.2⟩

theorem Shaped.push (h : blocks.Shaped table)
    (ha : Admits table blocks.innermost blocks.current t.kind t.value t.isLength)
    (ht : t.Shaped table) :
    (blocks.push t).Shaped table :=
  h.setCurrent (Token.shapedAll_reverse_cons.mpr ⟨h.current, ha, ht⟩)

theorem Shaped.enter (h : blocks.Shaped table) (hb : IsBlock frame.kind) (hm : frame.kind ≠ .main)
    (ha : Admits table blocks.innermost blocks.current frame.kind frame.value frame.isLength)
    (hc : frame.children = []) : (blocks.enter frame).Shaped table := by
  refine ⟨⟨hb, hm⟩, ha, ?_, h⟩
  rw [hc]
  trivial

theorem Shaped.close (h : blocks.Shaped table) : blocks.close.Shaped table := by
  obtain ⟨_ | ⟨frame, frames⟩, top⟩ := blocks
  · exact h
  · obtain ⟨-, ha, ht, hf⟩ := h
    have hs : Shaped table ⟨frames, top⟩ := hf
    exact hs.push ha ht

theorem Shaped.closeNearest {kind : Kind} (h : blocks.Shaped table) :
    (blocks.closeNearest kind).Shaped table := by
  fun_induction Blocks.closeNearest kind blocks with
  | case1 => exact h
  | case2 => exact h.close
  | case3 _ _ _ ih => exact ih h.close

/-- Literal text continues a text before it, or is admitted as one of its own. -/
theorem Shaped.pushText {text : String} (h : blocks.Shaped table) (hp : blocks.Poised table cs)
    (hm : .text ∈ blocks.innermost.contents) (hw : Wording blocks.innermost .text text.toList)
    (hc : blocks.innermost = .assignment → ∀ t ∈ blocks.current.head?, t.kind ≠ .comment) :
    (blocks.pushText text).Shaped table := by
  obtain ht | ⟨value, isLength, children, _, hcurrent⟩ := Token.text_cases blocks.current
  · rw [pushText_of_ne ht]
    refine h.push ⟨hm, hw, Bool.noConfusion, fun t hh he => ht t hh he.1, hc, fun hi hne => ?_,
      Kind.noConfusion⟩ trivial
    -- in a reference, what is not text before the text is an expression
    obtain ⟨t, before, hb⟩ := List.exists_cons_of_ne_nil hne
    have hh : t ∈ blocks.current.head? := by rw [hb]; rfl
    obtain ⟨_, _, hat⟩ := h.admits_head hh
    have hmem := hat.mem
    rw [hi] at hmem
    simp only [Kind.contents, List.mem_cons, List.not_mem_nil, or_false] at hmem
    rcases hmem with hk | hk
    · exact absurd hk (ht t hh)
    · exact absurd hk (hp.reference hi t (List.mem_of_mem_head? hh))
  · have hh : .node .text value isLength children ∈ blocks.current.head? := by
      rw [hcurrent]
      rfl
    obtain ⟨before, hb, ha⟩ := h.admits_head hh
    rw [pushText_of_text hb]
    have hcur := h.current
    rw [hb, Token.shapedAll_reverse_cons] at hcur
    refine h.setCurrent (Token.shapedAll_reverse_cons.mpr ⟨hcur.1, ?_, hcur.2.2⟩)
    refine ⟨ha.mem, ⟨?_, fun hq hn => ?_⟩, ha.mark, ha.apart, ha.last, ha.first, Kind.noConfusion⟩
    · have hne : value.toList ≠ [] := ha.wording.1
      show (value ++ text).toList ≠ []
      rw [String.toList_append]
      intro he
      exact hne (List.append_eq_nil_iff.mp he).1
    · change '\n' ∈ (value ++ text).toList at hn
      rw [String.toList_append] at hn
      rcases List.mem_append.mp hn with hn | hn
      · exact ha.wording.2 hq hn
      · exact hw.2 hq hn

/-- A token that was just added, neither a comment nor in a reference, leaves nothing to wait
for. -/
theorem Poised.of_head (ht : t ∈ blocks.current.head?) (hk : t.kind ≠ .comment)
    (hi : blocks.innermost ≠ .interpolation) : blocks.Poised table cs where
  comment _ u hu he := by
    rw [Option.mem_def.mp ht] at hu
    cases hu
    exact absurd he hk
  reference he := absurd he hi
  symbol frame frames hf _ hc := by
    obtain ⟨_, top⟩ := blocks
    subst hf
    have ht : t ∈ frame.children.head? := ht
    rw [hc] at ht
    cases ht

/-- Literal text is the latest token after it was added. -/
theorem exists_current_pushText (blocks : Blocks) (text : String) :
    ∃ t before, (blocks.pushText text).current = t :: before ∧ t.kind = .text ∧
      ∀ u ∈ before, u ∈ blocks.current := by
  obtain ht | ⟨value, isLength, children, before, hb⟩ := Token.text_cases blocks.current
  · rw [pushText_of_ne ht, current_push]
    exact ⟨_, _, rfl, rfl, fun _ hu => hu⟩
  · rw [pushText_of_text hb, current_setCurrent]
    exact ⟨_, _, rfl, rfl, fun _ hu => by rw [hb]; exact List.mem_cons_of_mem _ hu⟩

theorem Poised.pushText (hp : blocks.Poised table cs) (text : String) :
    (blocks.pushText text).Poised table rest := by
  obtain ⟨t, before, hc, hk, hb⟩ := exists_current_pushText blocks text
  refine ⟨fun _ u hu he => ?_, fun hi u hu => ?_, fun frame frames hf _ hn => ?_⟩
  · rw [hc] at hu
    cases hu
    rw [hk] at he
    cases he
  · rw [innermost_pushText] at hi
    rw [hc] at hu
    rcases List.mem_cons.mp hu with rfl | hu
    · rw [hk]
      exact Kind.noConfusion
    · exact hp.reference hi u (hb u hu)
  · have hcur : (blocks.pushText text).current = frame.children := by
      rw [Blocks.current, hf]
    rw [hn, hc] at hcur
    cases hcur

theorem Shaped.poised_close (h : blocks.Shaped table) (hm : blocks.innermost ≠ .main)
    (he : blocks.innermost ≠ .expression) : blocks.close.Poised table cs := by
  obtain ⟨_ | ⟨frame, frames⟩, top⟩ := blocks
  · exact absurd rfl hm
  · obtain ⟨⟨hb, -⟩, ha, -, -⟩ := h
    have hk : frame.kind ≠ .comment ∧ frame.kind ≠ .text := by
      rcases hb with hb | hb | hb | hb | hb <;> rw [hb] <;> exact ⟨by decide, by decide⟩
    have hc : frame.token ∈ (Blocks.push ⟨frames, top⟩ frame.token).current.head? := by simp
    have hi : innermost ⟨frames, top⟩ ≠ .interpolation → Poised table
        (Blocks.push ⟨frames, top⟩ frame.token) cs := fun hi =>
      Poised.of_head hc hk.1 (by rwa [innermost_push])
    apply hi
    intro hi
    have hmem := ha.mem
    rw [hi] at hmem
    simp only [Kind.contents, List.mem_cons, List.not_mem_nil, or_false] at hmem
    rcases hmem with ht | ht
    · exact hk.2 ht
    · exact he ht

/-- An expression stands in a reference. -/
theorem Shaped.innermost_of_expression (h : Shaped table ⟨frame :: frames, top⟩)
    (hk : frame.kind = .expression) : innermost ⟨frames, top⟩ = .interpolation := by
  have hmem := h.2.1.mem
  have hs : Shaped table ⟨frames, top⟩ := h.2.2.2
  have hb := hs.isBlock
  rw [hk] at hmem
  rcases hb with hb | hb | hb | hb | hb <;> rw [hb] at hmem ⊢ <;> revert hmem <;> decide

theorem closeTo_expression (hk : frame.kind = .expression)
    (hi : innermost ⟨frames, top⟩ = .interpolation) :
    closeTo .interpolation ⟨frame :: frames, top⟩ = push ⟨frames, top⟩ frame.token := by
  have hne : innermost ⟨frame :: frames, top⟩ ≠ .interpolation := by
    show frame.kind ≠ _
    rw [hk]
    decide
  have hd : depth ⟨frame :: frames, top⟩ ≠ 0 := Nat.succ_ne_zero _
  rw [closeTo_of_ne hd hne]
  exact closeTo_of_innermost ((innermost_push ..).trans hi)

theorem Shaped.closeTo_interpolation (h : blocks.Shaped table)
    (hb : blocks.innermost = .interpolation ∨ blocks.innermost = .expression) :
    (blocks.closeTo .interpolation).Shaped table ∧
      (blocks.closeTo .interpolation).innermost = .interpolation := by
  rcases hb with hb | hb
  · rw [closeTo_of_innermost hb]
    exact ⟨h, hb⟩
  · obtain ⟨_ | ⟨frame, frames⟩, top⟩ := blocks
    · cases hb
    · have hi := h.innermost_of_expression hb
      rw [closeTo_expression hb hi]
      exact ⟨h.close, (innermost_push ..).trans hi⟩

/-- A picked symbol is cut: an expression right before it saw it. -/
theorem Poised.cut {first : Char} {second : Option Char} {symbol : List Char}
    (hp : blocks.Poised table (first :: rest)) (h : blocks.Shaped table)
    (hb : blocks.innermost = .interpolation ∨ blocks.innermost = .expression)
    (hf : isOperatorChar first = true)
    (hs : table.pick (blocks.closeTo .interpolation).symbols first second = some symbol) :
    Cut table (blocks.closeTo .interpolation).current symbol := by
  have hhead : symbol.head? = some first := by
    rcases OperatorTable.pick_cases hs with rfl | ⟨c, -, rfl⟩ <;> rfl
  refine ⟨⟨first, second, hs⟩, ?_⟩
  intro e before he hk hc c hv
  rcases hb with hb | hb
  · rw [closeTo_of_innermost hb] at he
    exact absurd hk (hp.reference hb e (by rw [he]; exact List.mem_cons_self))
  · obtain ⟨_ | ⟨frame, frames⟩, top⟩ := blocks
    · cases hb
    · rw [closeTo_expression hb (h.innermost_of_expression hb), current_push] at he
      obtain ⟨rfl, rfl⟩ := List.cons_eq_cons.mp he
      have hpick := hp.symbol frame frames rfl hb (List.reverse_eq_nil_iff.mp hc) c hv
      have hview : (some first).filter isOperatorChar = symbol.head? := by
        rw [hhead, Option.filter_some, if_pos hf]
      rw [← hview]
      exact hpick

theorem wording_of_pick {first : Char} {second : Option Char} {symbols : List String}
    {symbol : List Char} (hf : isOperatorChar first = true)
    (hs : table.pick symbols first (second.filter isOperatorChar) = some symbol) :
    Wording .interpolation .expression symbol := by
  rcases OperatorTable.pick_cases hs with rfl | ⟨c, hc, rfl⟩
  · exact ⟨List.cons_ne_nil _ _, by simpa using hf⟩
  · have hop := (Option.filter_eq_some_iff.mp hc).2
    exact ⟨List.cons_ne_nil _ _, by simp [hf, hop]⟩

/-- The state after operator characters were read. -/
theorem operate_shaped {next : Blocks} {first : Char} {second : Option Char} {more : Nat}
    (h : blocks.Shaped table) (hp : blocks.Poised table (first :: rest))
    (hb : blocks.innermost = .interpolation ∨ blocks.innermost = .expression)
    (hf : isOperatorChar first = true) (hsecond : second = rest.head?.filter isOperatorChar)
    (ho : blocks.operate table first second = (next, more)) :
    next.Shaped table ∧ next.Poised table (rest.drop more) := by
  simp only [operate] at ho
  split at ho
  · next symbol hs =>
    cases ho
    obtain ⟨hshaped, hi⟩ := h.closeTo_interpolation hb
    have hcut := hp.cut h hb hf hs
    have hwording : Wording .interpolation .expression symbol := wording_of_pick hf (hsecond ▸ hs)
    constructor
    · refine hshaped.enter (Or.inr (Or.inr (Or.inr (Or.inl rfl)))) Kind.noConfusion ?_
        rfl
      rw [hi]
      refine ⟨List.mem_cons_of_mem _ List.mem_cons_self, ?_, Bool.noConfusion,
        fun _ _ hk => Kind.noConfusion hk.2, Kind.noConfusion, fun _ _ => rfl, fun _ => ?_⟩
      · rw [String.toList_ofList]
        exact hwording
      · rw [String.toList_ofList]
        exact hcut
    · refine ⟨Kind.noConfusion, Kind.noConfusion, ?_⟩
      intro frame frames hfr _ _ c hv
      obtain ⟨rfl, rfl⟩ := List.cons_eq_cons.mp hfr
      rw [String.toList_ofList] at hv
      subst hv
      rcases OperatorTable.pick_cases hs with he | ⟨d, -, he⟩
      · cases he
        rw [hsecond] at hs
        exact hs
      · cases he
  · next hs =>
    cases ho
    have hnl : '\n' ∉ [first] := by
      intro hm
      rw [← List.mem_singleton.mp hm] at hf
      exact absurd hf (by decide)
    constructor
    · refine h.pushText hp ?_ ⟨?_, fun _ => ?_⟩ ?_
      · rcases hb with hb | hb <;> rw [hb] <;> decide
      · simp
      · simpa using hnl
      · rcases hb with hb | hb <;> rw [hb] <;> exact fun hk => by cases hk
    · exact hp.pushText _

theorem Shaped.enter_of_block {kind : Kind} {value : List Char} {isLength : Bool}
    (h : blocks.Shaped table)
    (hc : blocks.innermost = .assignment → ∀ t ∈ blocks.current.head?, t.kind ≠ .comment)
    (hk : kind = .assignment ∨ kind = .interpolation ∨ kind = .quoted)
    (hm : kind ∈ blocks.innermost.contents) (hw : Wording blocks.innermost kind value)
    (hl : isLength = true → kind = .interpolation) :
    (blocks.enter { kind, value := .ofList value, isLength }).Shaped table ∧
      (blocks.enter { kind, value := .ofList value, isLength }).Poised table rest := by
  have hne : kind ≠ .text ∧ kind ≠ .expression ∧ kind ≠ .main ∧ IsBlock kind := by
    unfold IsBlock
    rcases hk with rfl | rfl | rfl <;> decide
  have hi : blocks.innermost ≠ .interpolation := by
    intro hi
    rw [hi] at hm
    simp only [Kind.contents, List.mem_cons, List.not_mem_nil, or_false] at hm
    exact hm.elim hne.1 hne.2.1
  constructor
  · refine h.enter hne.2.2.2 hne.2.2.1 ?_ rfl
    exact ⟨hm, by rwa [String.toList_ofList], hl, fun t _ he => hne.1 he.2, hc,
      fun he => absurd he hi, fun he => absurd he hne.2.1⟩
  · refine ⟨fun _ t ht => ?_, fun _ t ht => ?_, fun frame frames hfr he => ?_⟩
    · cases ht
    · cases ht
    · obtain ⟨rfl, -⟩ := List.cons_eq_cons.mp hfr
      exact absurd he hne.2.1

/-- The state after a leaf was read. -/
theorem Shaped.push_leaf {kind : Kind} {value : List Char} (h : blocks.Shaped table)
    (hc : blocks.innermost = .assignment → ∀ t ∈ blocks.current.head?, t.kind ≠ .comment)
    (hm : kind ∈ blocks.innermost.contents) (hw : Wording blocks.innermost kind value)
    (hne : kind ≠ .text ∧ kind ≠ .expression) (hl : kind = .comment → Starts isLineBreak rest) :
    (blocks.push (.leaf kind (.ofList value))).Shaped table ∧
      (blocks.push (.leaf kind (.ofList value))).Poised table rest := by
  have hi : blocks.innermost ≠ .interpolation := by
    intro hi
    rw [hi] at hm
    simp only [Kind.contents, List.mem_cons, List.not_mem_nil, or_false] at hm
    exact hm.elim hne.1 hne.2
  constructor
  · refine h.push ⟨hm, ?_, Bool.noConfusion, fun t _ he => hne.1 he.2, hc, fun he => absurd he hi,
      fun he => absurd he hne.2⟩ trivial
    rwa [Token.leaf, Token.value, String.toList_ofList]
  · refine ⟨fun _ t ht he => ?_, fun he => absurd ((innermost_push ..).symm.trans he) hi, ?_⟩
    · rw [current_push] at ht
      cases ht
      exact hl he
    · intro frame frames hfr _ hn
      have hcur : (blocks.push (.leaf kind (.ofList value))).current = frame.children := by
        rw [Blocks.current, hfr]
      rw [hn, current_push] at hcur
      cases hcur

/-- What a lexeme does to shaped blocks. -/
theorem apply_shaped {next : Blocks} {lexeme : Lexeme} {more : Nat} (h : blocks.Shaped table)
    (hp : blocks.Poised table cs)
    (hc : blocks.innermost = .assignment → ∀ t ∈ blocks.current.head?, t.kind ≠ .comment)
    (hf : lexeme.Fits blocks.innermost cs rest) (ha : blocks.apply table lexeme = (next, more)) :
    next.Shaped table ∧ next.Poised table (rest.drop more) := by
  cases lexeme with
  | nothing =>
    cases ha
    refine ⟨h, fun hi t ht hk => absurd hk (hc hi t ht), hp.reference,
      fun frame frames hfr hk => ?_⟩
    have hi : blocks.innermost = .expression := by rw [innermost, hfr]; exact hk
    exact absurd hi hf.1
  | text chars =>
    cases ha
    have hw : Wording blocks.innermost .text (String.ofList chars).toList := by
      rw [String.toList_ofList]
      exact hf.2
    exact ⟨h.pushText hp hf.1 hw hc, hp.pushText _⟩
  | leaf kind value =>
    cases ha
    obtain ⟨hm, hw, hk, hl⟩ := hf
    have hne : kind ≠ .text ∧ kind ≠ .expression := by
      simp only [List.mem_cons, List.not_mem_nil, or_false] at hk
      rcases hk with rfl | rfl | rfl | rfl <;> exact ⟨Kind.noConfusion, Kind.noConfusion⟩
    exact h.push_leaf hc hm hw hne hl
  | openAssignment name =>
    cases ha
    exact h.enter_of_block hc (Or.inl rfl) hf.1 hf.2 Bool.noConfusion
  | openInterpolation isLength name =>
    cases ha
    exact h.enter_of_block hc (Or.inr (Or.inl rfl)) hf.1 hf.2 fun _ => rfl
  | closeInterpolation =>
    cases ha
    obtain ⟨hs, hi⟩ := h.closeTo_interpolation hf
    rw [closeNearest_eq]
    exact ⟨hs.close, hs.poised_close (by rw [hi]; exact Kind.noConfusion)
      (by rw [hi]; exact Kind.noConfusion)⟩
  | operators first second =>
    obtain ⟨hb, hfirst, hsecond, rfl⟩ := hf
    exact operate_shaped h hp hb hfirst hsecond ha
  | openQuote =>
    cases ha
    exact h.enter_of_block hc (Or.inr (Or.inr rfl)) hf rfl Bool.noConfusion
  | closeQuote =>
    cases ha
    have hq : blocks.innermost = .quoted := hf
    show (blocks.closeNearest .quoted).Shaped table ∧ (blocks.closeNearest .quoted).Poised table _
    rw [closeNearest_of_innermost Kind.noConfusion hq]
    exact ⟨h.close, h.poised_close (by rw [hq]; exact Kind.noConfusion)
      (by rw [hq]; exact Kind.noConfusion)⟩

/-- One step of the tokenizer. -/
theorem step_shaped {next : Blocks} (h : blocks.Shaped table) (hp : blocks.Poised table cs)
    (hb : blocks.innermost = .assignment → Starts (!isLineBreak ·) cs)
    (hs : blocks.step table cs = some (next, rest)) :
    next.Shaped table ∧ next.Poised table rest := by
  have hlt := (step_bounds hs).1
  obtain ⟨⟨lexeme, tail⟩, hscan, he⟩ := Option.map_eq_some_iff.mp hs
  obtain ⟨rfl, rfl⟩ := Prod.mk.inj he
  refine apply_shaped h hp (fun hi t ht hk => ?_) (fits_of_scan h.isBlock hscan) rfl
  -- behind a comment there is the end of the line, where no step is taken
  cases cs with
  | nil => exact absurd hlt (Nat.not_lt_zero _)
  | cons c cs =>
    have hbreak := starts_cons.mp (hp.comment hi t ht hk)
    have hno := starts_cons.mp (hb hi)
    rw [hbreak] at hno
    cases hno

/-- In the end no block is open. -/
theorem Shaped.frames_closeNearest (h : blocks.Shaped table) :
    (blocks.closeNearest .main).frames = [] := by
  fun_induction Blocks.closeNearest .main blocks with
  | case1 blocks hd => exact List.length_eq_zero_iff.mp hd
  | case2 blocks hd hm =>
    obtain ⟨_ | ⟨frame, frames⟩, top⟩ := blocks
    · exact absurd rfl hd
    · exact absurd (beq_iff_eq.mp hm) h.1.2
  | case3 blocks hd hm ih => exact ih h.close

theorem Shaped.finish (h : blocks.Shaped table) :
    Token.ShapedAll table .main blocks.finish := by
  have hs : ShapedFrames table (blocks.closeNearest .main).top
    (blocks.closeNearest .main).frames := h.closeNearest
  rw [h.frames_closeNearest] at hs
  exact hs

theorem shaped_of_run {limit idle : Nat} {source : List Char} {last : Blocks}
    (h : blocks.Shaped table) (hp : blocks.Poised table cs)
    (hr : Tokenize.run table limit source idle blocks cs = .ok last) : last.Shaped table := by
  fun_induction Tokenize.run table limit source idle blocks cs with
  | case1 => cases hr; exact h
  | case2 => cases hr
  | case3 _ blocks _ _ hc _ ih =>
    refine ih h.close (h.poised_close ?_ ?_) hr
    · rw [hc.2.1]
      exact Kind.noConfusion
    · rw [hc.2.1]
      exact Kind.noConfusion
  | case4 => cases hr
  | case5 _ blocks c cs hc next rest hs ih =>
    have hb : blocks.innermost = .assignment → Starts (!isLineBreak ·) (c :: cs) := by
      intro hi
      have hd : blocks.depth ≠ 0 := depth_ne_zero_of_innermost (by rw [hi]; exact Kind.noConfusion)
      exact starts_cons.mpr (by simpa using fun hl => hc ⟨hd, hi, hl⟩)
    obtain ⟨hn, hpn⟩ := step_shaped h hp hb hs
    exact ih hn hpn hr

end Blocks

theorem Tokenize.exists_run_of_tokens {limit : Nat} {source cursor : List Char}
    (h : Tokenize.tokens limit source {} cursor = .ok ts) :
    ∃ last, Tokenize.run .standard (max limit 1) source 0 {} cursor = .ok last ∧
      last.Shaped .standard ∧ last.finish = ts := by
  unfold Tokenize.tokens at h
  cases hr : Tokenize.run .standard (max limit 1) source 0 {} cursor with
  | error =>
    rw [hr] at h
    cases h
  | ok last =>
    rw [hr] at h
    cases h
    have hs : Blocks.Shaped .standard ({} : Blocks) := trivial
    have hp : Blocks.Poised .standard ({} : Blocks) cursor :=
      ⟨Kind.noConfusion, Kind.noConfusion, fun _ _ hf => by cases hf⟩
    exact ⟨last, rfl, Blocks.shaped_of_run hs hp hr, rfl⟩

/-- Every accepted text has shaped tokens. -/
theorem Tokenize.shapedAll_of_tokens {limit : Nat} {source cursor : List Char}
    (h : Tokenize.tokens limit source {} cursor = .ok ts) :
    Token.ShapedAll .standard .main ts := by
  obtain ⟨last, -, hs, rfl⟩ := Tokenize.exists_run_of_tokens h
  exact hs.finish

end LayeredEnv
