import LayeredEnv.Proofs.Tokenizing.Scan
import LayeredEnv.Token.Tokenize

namespace LayeredEnv

/-- The latest of the tokens, which are given last first, is literal text or not. -/
theorem Token.text_cases (ts : List Token) : (∀ t ∈ ts.head?, t.kind ≠ .text) ∨
    ∃ value isLength children before, ts = .node .text value isLength children :: before := by
  obtain _ | ⟨⟨kind, value, isLength, children⟩, before⟩ := ts
  · exact Or.inl nofun
  · by_cases hk : kind = .text
    · exact Or.inr ⟨value, isLength, children, before, by rw [hk]⟩
    · refine Or.inl fun t ht => ?_
      cases ht
      exact hk

/-- Literal text as the only child of a token; there is none for empty text. -/
def Token.textOf (text : List Char) : List Token :=
  if text = [] then [] else [.leaf .text (.ofList text)]

@[simp] theorem Token.reverse_textOf (text : List Char) : (textOf text).reverse = textOf text := by
  unfold textOf
  split <;> rfl

namespace Blocks

variable (blocks : Blocks)

@[simp] theorem current_setCurrent (tokens : List Token) :
    (blocks.setCurrent tokens).current = tokens := by
  obtain ⟨_ | _, _⟩ := blocks <;> rfl

@[simp] theorem setCurrent_setCurrent (before after : List Token) :
    (blocks.setCurrent before).setCurrent after = blocks.setCurrent after := by
  obtain ⟨_ | _, _⟩ := blocks <;> rfl

@[simp] theorem innermost_setCurrent (tokens : List Token) :
    (blocks.setCurrent tokens).innermost = blocks.innermost := by
  obtain ⟨_ | _, _⟩ := blocks <;> rfl

@[simp] theorem current_push (t : Token) : (blocks.push t).current = t :: blocks.current :=
  current_setCurrent blocks _

@[simp] theorem innermost_push (t : Token) : (blocks.push t).innermost = blocks.innermost :=
  innermost_setCurrent blocks _

@[simp] theorem innermost_pushText (text : String) :
    (blocks.pushText text).innermost = blocks.innermost := by
  unfold pushText
  split <;> simp

@[simp] theorem innermost_enter (frame : Frame) : (blocks.enter frame).innermost = frame.kind := rfl

@[simp] theorem current_enter (frame : Frame) : (blocks.enter frame).current = frame.children := rfl

@[simp] theorem close_enter (frame : Frame) :
    (blocks.enter frame).close = blocks.push frame.token := rfl

theorem depth_ne_zero_of_innermost {blocks : Blocks} (h : blocks.innermost ≠ .main) :
    blocks.depth ≠ 0 := by
  obtain ⟨_ | _, _⟩ := blocks
  · exact absurd rfl h
  · exact Nat.succ_ne_zero _

theorem closeNearest_of_innermost {blocks : Blocks} {kind : Kind} (hk : kind ≠ .main)
    (h : blocks.innermost = kind) : blocks.closeNearest kind = blocks.close := by
  have hd : blocks.depth ≠ 0 := depth_ne_zero_of_innermost (h ▸ hk)
  rw [closeNearest, dif_neg hd, h, beq_self_eq_true, if_pos rfl]

theorem closeTo_of_innermost {blocks : Blocks} {kind : Kind} (h : blocks.innermost = kind) :
    blocks.closeTo kind = blocks := by
  rw [closeTo, h, beq_self_eq_true, if_pos rfl]
  split <;> rfl

theorem closeTo_of_ne {blocks : Blocks} {kind : Kind} (hd : blocks.depth ≠ 0)
    (h : blocks.innermost ≠ kind) : blocks.closeTo kind = blocks.close.closeTo kind := by
  rw [closeTo, dif_neg hd, if_neg (by simpa using h)]

/-- Closing the nearest block of a kind is closing all up to it, and then it. -/
theorem closeNearest_eq (kind : Kind) : blocks.closeNearest kind = (blocks.closeTo kind).close := by
  fun_induction closeTo kind blocks with
  | case1 blocks h =>
    have hc : blocks.close = blocks := by
      obtain ⟨_ | _, _⟩ := blocks
      · rfl
      · cases h
    rw [closeNearest, dif_pos h, hc]
  | case2 blocks hd hk => rw [closeNearest, dif_neg hd, if_pos hk]
  | case3 blocks hd hk ih => rw [closeNearest, dif_neg hd, if_neg hk, ih]

def pushChars (text : List Char) : Blocks :=
  if text = [] then blocks else blocks.pushText (.ofList text)

@[simp] theorem pushChars_nil : blocks.pushChars [] = blocks := if_pos rfl

theorem pushChars_of_ne {text : List Char} (h : text ≠ []) :
    blocks.pushChars text = blocks.pushText (.ofList text) := if_neg h

@[simp] theorem innermost_pushChars (text : List Char) :
    (blocks.pushChars text).innermost = blocks.innermost := by
  unfold pushChars
  split <;> simp

theorem pushText_of_text {blocks : Blocks} {value : String} {isLength : Bool}
    {children tokens : List Token}
    (h : blocks.current = .node .text value isLength children :: tokens) (text : String) :
    blocks.pushText text =
      blocks.setCurrent (.node .text (value ++ text) isLength children :: tokens) := by
  rw [pushText, h]

theorem pushText_of_ne {blocks : Blocks} (h : ∀ t ∈ blocks.current.head?, t.kind ≠ .text)
    (text : String) : blocks.pushText text = blocks.push (.leaf .text text) := by
  rw [pushText]
  split
  · next hc => exact absurd rfl (h _ (by rw [hc]; rfl))
  · rfl

theorem pushText_pushText (before after : String) :
    (blocks.pushText before).pushText after = blocks.pushText (before ++ after) := by
  obtain h | ⟨value, isLength, children, tokens, hc⟩ := Token.text_cases blocks.current
  · have hc : (blocks.push (.leaf .text before)).current =
        .node .text before false [] :: blocks.current := current_push ..
    rw [pushText_of_ne h, pushText_of_ne h, pushText_of_text hc, push, setCurrent_setCurrent]
    rfl
  · rw [pushText_of_text hc, pushText_of_text hc, pushText_of_text (current_setCurrent ..),
      setCurrent_setCurrent, String.append_assoc]

theorem pushChars_pushChars (before after : List Char) :
    (blocks.pushChars before).pushChars after = blocks.pushChars (before ++ after) := by
  by_cases hb : before = []
  · rw [hb, pushChars_nil, List.nil_append]
  by_cases ha : after = []
  · rw [ha, pushChars_nil, List.append_nil]
  have hba : before ++ after ≠ [] := fun h => hb (List.append_eq_nil_iff.mp h).1
  rw [pushChars_of_ne _ hb, pushChars_of_ne _ ha, pushChars_of_ne _ hba, pushText_pushText,
    String.ofList_append]

/-- Where no literal text is to be continued, literal text is a token of its own. -/
theorem pushChars_eq_push {text : List Char} (ht : text ≠ [])
    (h : ∀ t ∈ blocks.current.head?, t.kind ≠ .text) :
    blocks.pushChars text = blocks.push (.leaf .text (.ofList text)) := by
  rw [pushChars_of_ne _ ht, pushText_of_ne h]

/-- Text that comes first in a block. -/
theorem pushChars_enter {frame : Frame} (h : frame.children = []) (text : List Char) :
    (blocks.enter frame).pushChars text =
      blocks.enter { frame with children := Token.textOf text } := by
  unfold Token.textOf
  by_cases ht : text = []
  · rw [ht, pushChars_nil, if_pos rfl, ← h]
  · have hnone : ∀ t ∈ (blocks.enter frame).current.head?, t.kind ≠ .text := by
      rw [current_enter, h]
      exact fun t ht => nomatch ht
    rw [pushChars_eq_push _ ht hnone, if_neg ht, push, current_enter, h]
    rfl

def pushAll (tokens : List Token) : Blocks := tokens.foldl push blocks

@[simp] theorem pushAll_nil : blocks.pushAll [] = blocks := rfl

@[simp] theorem pushAll_cons (t : Token) (ts : List Token) :
    blocks.pushAll (t :: ts) = (blocks.push t).pushAll ts := rfl

theorem pushAll_enter (frame : Frame) (ts : List Token) :
    (blocks.enter frame).pushAll ts =
      blocks.enter { frame with children := ts.reverse ++ frame.children } := by
  induction ts generalizing frame with
  | nil => rfl
  | cons t ts ih =>
    rw [pushAll_cons, List.reverse_cons, List.append_assoc]
    exact ih { frame with children := t :: frame.children }

end Blocks

namespace Tokenize

open Text

/-- With `blocks` open at `cs`, the tokenizer gets to `rest` with `next` open, and no more idle. -/
def Reads (table : OperatorTable) (blocks : Blocks) (cs : List Char) (next : Blocks)
    (rest : List Char) : Prop :=
  ∀ (limit : Nat) (source : List Char) (idle : Nat), 2 ≤ limit →
    ∃ after ≤ idle, run table limit source idle blocks cs = run table limit source after next rest

variable {table : OperatorTable} {blocks next last : Blocks} {cs rest tail : List Char}
  {lexeme : Lexeme}

theorem Reads.refl : Reads table blocks cs blocks cs := fun _ _ idle _ => ⟨idle, Nat.le_refl _, rfl⟩

theorem Reads.trans (h : Reads table blocks cs next rest) (h' : Reads table next rest last tail) :
    Reads table blocks cs last tail := by
  intro limit source idle hl
  obtain ⟨after, ha, he⟩ := h limit source idle hl
  obtain ⟨after', ha', he'⟩ := h' limit source after hl
  exact ⟨after', Nat.le_trans ha' ha, he.trans he'⟩

/-- A step of the tokenizer that takes a lexeme. -/
theorem run_of_step {limit : Nat} {source : List Char} {idle : Nat}
    (hb : blocks.innermost = .assignment → Starts (!isLineBreak ·) cs)
    (h : blocks.step table cs = some (next, rest)) :
    run table limit source idle blocks cs = run table limit source 0 next rest := by
  cases cs with
  | nil =>
    have hlt := (Blocks.step_bounds h).1
    exact absurd hlt (Nat.not_lt_zero _)
  | cons c cs =>
    have hn : ¬(blocks.depth ≠ 0 ∧ blocks.innermost = .assignment ∧ isLineBreak c) := by
      rintro ⟨-, ha, hc⟩
      have hs := starts_cons.mp (hb ha)
      rw [hc] at hs
      cases hs
    rw [run, dif_neg hn]
    split
    · next hs => rw [h] at hs; cases hs
    · next hs => rw [h] at hs; cases hs; rfl

def Passes (table : OperatorTable) (blocks : Blocks) (cs : List Char) (next : Blocks)
    (rest : List Char) : Prop :=
  ∀ (limit : Nat) (source : List Char) (idle : Nat),
    ∃ after ≤ idle, run table limit source idle blocks cs = run table limit source after next rest

theorem Passes.refl : Passes table blocks cs blocks cs := fun _ _ idle => ⟨idle, Nat.le_refl _, rfl⟩

theorem Passes.trans (h : Passes table blocks cs next rest)
    (h' : Passes table next rest last tail) : Passes table blocks cs last tail := by
  intro limit source idle
  obtain ⟨after, ha, he⟩ := h limit source idle
  obtain ⟨after', ha', he'⟩ := h' limit source after
  exact ⟨after', Nat.le_trans ha' ha, he.trans he'⟩

theorem Passes.reads (h : Passes table blocks cs next rest) : Reads table blocks cs next rest :=
  fun limit source idle _ => h limit source idle

theorem Passes.of_scan {more : Nat}
    (hb : blocks.innermost = .assignment → Starts (!isLineBreak ·) cs)
    (hs : Lexeme.scan blocks.innermost cs = some (lexeme, rest))
    (ha : blocks.apply table lexeme = (next, more)) :
    Passes table blocks cs next (rest.drop more) := by
  intro limit source idle
  have h : blocks.step table cs = some (next, rest.drop more) := by
    rw [Blocks.step, hs]
    simp only [Option.map_some, ha]
  exact ⟨0, Nat.zero_le _, run_of_step hb h⟩

/-- A lexeme after which no more characters are taken. -/
theorem Passes.of_scan' (hb : blocks.innermost = .assignment → Starts (!isLineBreak ·) cs)
    (hs : Lexeme.scan blocks.innermost cs = some (lexeme, rest))
    (ha : blocks.apply table lexeme = (next, 0)) : Passes table blocks cs next rest :=
  Passes.of_scan hb hs ha

theorem Passes.of_text {text : List Char} (ht : text ≠ [])
    (hb : blocks.innermost = .assignment → Starts (!isLineBreak ·) cs)
    (hs : Lexeme.scan blocks.innermost cs = some (.text text, rest)) :
    Passes table blocks cs (blocks.pushChars text) rest := by
  rw [Blocks.pushChars_of_ne _ ht]
  exact Passes.of_scan' hb hs rfl

theorem Reads.of_scan' (hb : blocks.innermost = .assignment → Starts (!isLineBreak ·) cs)
    (hs : Lexeme.scan blocks.innermost cs = some (lexeme, rest))
    (ha : blocks.apply table lexeme = (next, 0)) : Reads table blocks cs next rest :=
  (Passes.of_scan' hb hs ha).reads

theorem Reads.of_text {text : List Char} (ht : text ≠ [])
    (hb : blocks.innermost = .assignment → Starts (!isLineBreak ·) cs)
    (hs : Lexeme.scan blocks.innermost cs = some (.text text, rest)) :
    Reads table blocks cs (blocks.pushChars text) rest := (Passes.of_text ht hb hs).reads

/-- The opening of a reference is read, and the spaces behind it. -/
theorem Passes.opening {name : String} {isLength : Bool}
    (hb : blocks.innermost = .assignment ∨ blocks.innermost = .expression ∨
      blocks.innermost = .quoted)
    (hne : name.toList ≠ []) (hname : ∀ c ∈ name.toList, isNameChar c = true)
    (hn : Starts (!isNameChar ·) rest) :
    Passes table blocks ('$' :: '\x7b' :: ((if isLength then ['#'] else []) ++ name.toList ++ rest))
      (blocks.enter { kind := .interpolation, value := name, isLength })
      (rest.dropWhile Lexeme.isSpace) := by
  have hp : Passes table blocks _
      (blocks.enter { kind := .interpolation, value := .ofList name.toList, isLength })
      (rest.dropWhile Lexeme.isSpace) :=
    Passes.of_scan' (fun _ => starts_cons.mpr rfl)
      (Lexeme.scan_interpolation hb isLength hne hname hn) rfl
  rwa [String.ofList_toList] at hp

/-- An operator symbol closes the expression before it and opens its own. -/
theorem Passes.symbol {symbol : List Char} {c : Char} {cs : List Char}
    (hb : blocks.innermost = .interpolation ∨ blocks.innermost = .expression)
    (hv : symbol = c :: cs) (hop : Lexeme.isOperatorChar c = true)
    (hpick : table.pick (blocks.closeTo .interpolation).symbols c
      ((cs ++ rest).head?.filter Lexeme.isOperatorChar) = some symbol) :
    Passes table blocks (symbol ++ rest) ((blocks.closeTo .interpolation).enter
      { kind := .expression, value := .ofList symbol }) rest := by
  have hscan := Lexeme.scan_operators hb hop (cs ++ rest)
  have happly :
      blocks.apply table (.operators c ((cs ++ rest).head?.filter Lexeme.isOperatorChar)) =
        ((blocks.closeTo .interpolation).enter { kind := .expression, value := .ofList symbol },
          symbol.length - 1) := by
    simp only [Blocks.apply, Blocks.operate, hpick]
  have hnot : blocks.innermost ≠ .assignment := by
    rcases hb with hb | hb <;> rw [hb] <;> exact Kind.noConfusion
  have hr := Passes.of_scan (fun h => absurd h hnot) hscan happly
  have hdrop : (cs ++ rest).drop (symbol.length - 1) = rest := by
    rw [hv, List.length_cons, Nat.add_sub_cancel, List.drop_left]
  rw [hdrop] at hr
  rwa [hv] at hr ⊢

/-- A line break ends the assignment and is skipped with the white space behind it. -/
theorem run_lineBreak {limit : Nat} {source : List Char} {frame : Frame} {top : List Token}
    {c : Char} (hl : 2 ≤ limit) (hk : frame.kind = .assignment) (hc : isLineBreak c = true)
    (rest : List Char) :
    run table limit source 0 ⟨[frame], top⟩ (c :: rest) =
      run table limit source 0 ⟨[], frame.token :: top⟩ (rest.dropWhile isWhitespace) := by
  have hend : Blocks.depth ⟨[frame], top⟩ ≠ 0 ∧ Blocks.innermost ⟨[frame], top⟩ = .assignment ∧
      isLineBreak c := ⟨Nat.succ_ne_zero 0, hk, hc⟩
  have hspace : isWhitespace c = true := by
    rcases Lexeme.eq_of_isLineBreak hc with rfl | rfl <;> rfl
  have hs : Blocks.step table ⟨[], frame.token :: top⟩ (c :: rest) =
      some (⟨[], frame.token :: top⟩, rest.dropWhile isWhitespace) := by
    rw [Blocks.step]
    show (Lexeme.scan .main (c :: rest)).map _ = _
    rw [Lexeme.scan_whitespace (Or.inl rfl) hspace]
    rfl
  rw [run, dif_pos hend, if_neg (by omega)]
  exact run_of_step (fun hm => by cases hm) hs

end Tokenize

theorem TokenTree.exists_tokens_of_tokenize {text : String} {limit : ℕ} {tree : TokenTree}
    (h : tokenize text limit = .ok tree) :
    ∃ ts, tree = .ofTokens ts ∧ Tokenize.tokens limit text.toList {} text.toList = .ok ts := by
  unfold tokenize at h
  cases ht : Tokenize.tokens limit text.toList {} text.toList with
  | error e =>
    rw [ht] at h
    cases h
  | ok ts =>
    rw [ht] at h
    cases h
    exact ⟨ts, rfl, rfl⟩

theorem TokenTree.tokenize_of_tokens {text : String} {limit : ℕ} {ts : List Token}
    (h : Tokenize.tokens limit text.toList {} text.toList = .ok ts) :
    tokenize text limit = .ok (.ofTokens ts) := by
  rw [tokenize, h]
  rfl

end LayeredEnv
