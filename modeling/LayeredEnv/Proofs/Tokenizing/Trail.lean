import LayeredEnv.Proofs.Tokenizing.Shape

namespace LayeredEnv

inductive Sign where
  | opens (kind : Kind) (value : String) (isLength : Bool)
  | char (c : Char)

/-- Signs with the depths at which they stand. -/
abbrev Trail : Type := List (Nat × Sign)

def textTrail (depth : Nat) (text : List Char) : Trail := text.map fun c => (depth, .char c)

namespace Token

mutual

def trail (depth : Nat) : Token → Trail
  | .node kind value isLength children =>
    if kind = .text then textTrail depth value.toList
    else (depth, .opens kind value isLength) :: trailAll (depth + 1) children

def trailAll (depth : Nat) : List Token → Trail
  | [] => []
  | t :: ts => trail depth t ++ trailAll depth ts

end

variable {depth : Nat}

theorem trail_text (value : String) (isLength : Bool) (children : List Token) :
    (node .text value isLength children).trail depth = textTrail depth value.toList := by
  rw [trail, if_pos rfl]

theorem trail_of_kind {kind : Kind} (h : kind ≠ .text) (value : String) (isLength : Bool)
    (children : List Token) : (node kind value isLength children).trail depth =
      (depth, .opens kind value isLength) :: trailAll (depth + 1) children := by
  rw [trail, if_neg h]

theorem trailAll_append (ts us : List Token) :
    trailAll depth (ts ++ us) = trailAll depth ts ++ trailAll depth us := by
  induction ts with
  | nil => rfl
  | cons t ts ih => rw [List.cons_append, trailAll, trailAll, ih, List.append_assoc]

theorem trailAll_reverse_cons (t : Token) (ts : List Token) :
    trailAll depth (t :: ts).reverse = trailAll depth ts.reverse ++ t.trail depth := by
  rw [List.reverse_cons, trailAll_append, trailAll, trailAll, List.append_nil]

/-- A trail starts at the depth of its token. -/
theorem depth_of_head_trail {t : Token} {s : Nat × Sign} (h : s ∈ (t.trail depth).head?) :
    s.1 = depth := by
  obtain ⟨kind, value, isLength, children⟩ := t
  rw [trail] at h
  split at h
  · obtain ⟨c, -, rfl⟩ := List.mem_map.mp (List.mem_of_mem_head? h)
    rfl
  · cases h
    rfl

end Token

namespace Blocks

def trailFrames (top : List Token) : List Frame → Trail
  | [] => Token.trailAll 0 top.reverse
  | frame :: frames => trailFrames top frames ++
      (frames.length, .opens frame.kind frame.value frame.isLength) ::
        Token.trailAll (frames.length + 1) frame.children.reverse

def trail (blocks : Blocks) : Trail := trailFrames blocks.top blocks.frames

def TextFree (blocks : Blocks) : Prop := ∀ frame ∈ blocks.frames, frame.kind ≠ .text

variable {blocks next last : Blocks} {kind : Kind}

theorem setCurrent_current (blocks : Blocks) : blocks.setCurrent blocks.current = blocks := by
  obtain ⟨_ | _, _⟩ := blocks <;> rfl

theorem push_setCurrent (blocks : Blocks) (ts : List Token) (t : Token) :
    (blocks.setCurrent ts).push t = blocks.setCurrent (t :: ts) := by
  rw [push, current_setCurrent, setCurrent_setCurrent]

theorem trail_push (blocks : Blocks) (t : Token) :
    (blocks.push t).trail = blocks.trail ++ t.trail blocks.depth := by
  obtain ⟨_ | ⟨frame, frames⟩, top⟩ := blocks
  · exact Token.trailAll_reverse_cons t top
  · show _ ++ _ :: Token.trailAll _ (t :: frame.children).reverse = _
    rw [Token.trailAll_reverse_cons, ← List.cons_append, ← List.append_assoc]
    rfl

theorem trail_pushText (blocks : Blocks) (text : String) :
    (blocks.pushText text).trail = blocks.trail ++ textTrail blocks.depth text.toList := by
  obtain h | ⟨value, isLength, children, ts, hc⟩ := Token.text_cases blocks.current
  · rw [pushText_of_ne h, trail_push, Token.leaf, Token.trail_text]
  · -- both texts stand in the same place
    have hbefore : blocks.trail =
        (blocks.setCurrent ts).trail ++ textTrail blocks.depth value.toList := by
      conv_lhs => rw [← setCurrent_current blocks, hc, ← push_setCurrent, trail_push]
      rw [Token.trail_text, depth_setCurrent]
    rw [pushText_of_text hc, ← push_setCurrent, trail_push, Token.trail_text, depth_setCurrent,
      hbefore, String.toList_append, textTrail, List.map_append, List.append_assoc]
    rfl

theorem trail_enter (blocks : Blocks) (kind : Kind) (value : String) (isLength : Bool) :
    (blocks.enter { kind, value, isLength }).trail =
      blocks.trail ++ [(blocks.depth, .opens kind value isLength)] := rfl

theorem trail_close (h : blocks.TextFree) : blocks.close.trail = blocks.trail := by
  obtain ⟨_ | ⟨frame, frames⟩, top⟩ := blocks
  · rfl
  · show (push ⟨frames, top⟩ frame.token).trail = _
    rw [trail_push, Frame.token, Token.trail_of_kind (h frame List.mem_cons_self)]
    rfl

theorem TextFree.setCurrent (h : blocks.TextFree) (ts : List Token) :
    (blocks.setCurrent ts).TextFree := by
  obtain ⟨_ | ⟨frame, frames⟩, top⟩ := blocks
  · exact h
  · intro other ho
    rcases List.mem_cons.mp ho with rfl | ho
    · exact h frame List.mem_cons_self
    · exact h other (List.mem_cons_of_mem _ ho)

theorem TextFree.push (h : blocks.TextFree) (t : Token) : (blocks.push t).TextFree :=
  h.setCurrent _

theorem TextFree.pushText (h : blocks.TextFree) (text : String) :
    (blocks.pushText text).TextFree := by
  unfold Blocks.pushText
  split
  · exact h.setCurrent _
  · exact h.push _

theorem TextFree.enter (h : blocks.TextFree) {frame : Frame} (hk : frame.kind ≠ .text) :
    (blocks.enter frame).TextFree := List.forall_mem_cons.mpr ⟨hk, h⟩

theorem TextFree.close (h : blocks.TextFree) : blocks.close.TextFree := by
  obtain ⟨_ | ⟨frame, frames⟩, top⟩ := blocks
  · exact h
  · have hf : TextFree ⟨frames, top⟩ := fun other ho => h other (List.mem_cons_of_mem _ ho)
    exact hf.push _

/-- Blocks that are closed leave the trail as it is. -/
theorem closeTo_keeps (h : blocks.TextFree) (kind : Kind) :
    (blocks.closeTo kind).TextFree ∧ (blocks.closeTo kind).trail = blocks.trail := by
  fun_induction Blocks.closeTo kind blocks with
  | case1 => exact ⟨h, rfl⟩
  | case2 => exact ⟨h, rfl⟩
  | case3 blocks _ _ ih =>
    obtain ⟨hf, ht⟩ := ih h.close
    exact ⟨hf, ht.trans (trail_close h)⟩

theorem closeNearest_keeps (h : blocks.TextFree) (kind : Kind) :
    (blocks.closeNearest kind).TextFree ∧ (blocks.closeNearest kind).trail = blocks.trail := by
  obtain ⟨hf, ht⟩ := closeTo_keeps h kind
  rw [closeNearest_eq]
  exact ⟨hf.close, (trail_close hf).trans ht⟩

/-- A state of the tokenizer and a later one. What is new on the trail starts no deeper than the
blocks were; if nothing is new, no block is. -/
def Grows (blocks next : Blocks) : Prop :=
  ∃ signs, next.trail = blocks.trail ++ signs ∧ (∀ s ∈ signs.head?, s.1 ≤ blocks.depth) ∧
    (signs = [] → next.depth ≤ blocks.depth)

theorem Grows.of_trail (ht : next.trail = blocks.trail) (hd : next.depth ≤ blocks.depth) :
    Grows blocks next :=
  ⟨[], by rw [ht, List.append_nil], fun _ h => (nomatch h), fun _ => hd⟩

theorem Grows.of_cons {depth : Nat} {sign : Sign} {signs : Trail}
    (ht : next.trail = blocks.trail ++ (depth, sign) :: signs) (hd : depth ≤ blocks.depth) :
    Grows blocks next := by
  refine ⟨_, ht, fun s hs => ?_, fun he => nomatch he⟩
  cases hs
  exact hd

theorem Grows.trans (h : Grows blocks next) (h' : Grows next last) : Grows blocks last := by
  obtain ⟨signs, ht, hhead, hd⟩ := h
  obtain ⟨signs', ht', hhead', hd'⟩ := h'
  refine ⟨signs ++ signs', by rw [ht', ht, List.append_assoc], fun s hs => ?_, fun he => ?_⟩
  · cases signs with
    | nil => exact Nat.le_trans (hhead' s hs) (hd rfl)
    | cons first signs => exact hhead s hs
  · obtain ⟨hn, hn'⟩ := List.append_eq_nil_iff.mp he
    exact Nat.le_trans (hd' hn') (hd hn)

theorem grows_push (blocks : Blocks) (t : Token) : Grows blocks (blocks.push t) :=
  ⟨_, trail_push blocks t, fun _ hs => Nat.le_of_eq (Token.depth_of_head_trail hs),
    fun _ => Nat.le_of_eq (depth_push ..)⟩

theorem grows_pushText (blocks : Blocks) (text : String) : Grows blocks (blocks.pushText text) := by
  refine ⟨_, trail_pushText blocks text, fun s hs => ?_, fun _ => Nat.le_of_eq (depth_pushText ..)⟩
  obtain ⟨c, -, rfl⟩ := List.mem_map.mp (List.mem_of_mem_head? hs)
  exact Nat.le_refl _

/-- What a lexeme that is read in a block adds. -/
theorem apply_grows (table : OperatorTable) (lexeme : Lexeme) (h : blocks.TextFree) :
    (blocks.apply table lexeme).1.TextFree ∧ Grows blocks (blocks.apply table lexeme).1 := by
  have henter : ∀ frame : Frame, frame.kind ≠ .text → frame.children = [] →
      (blocks.enter frame).TextFree ∧ Grows blocks (blocks.enter frame) := by
    rintro ⟨kind, value, isLength, children⟩ hk rfl
    exact ⟨h.enter hk, Grows.of_cons (trail_enter ..) (Nat.le_refl _)⟩
  cases lexeme with
  | nothing => exact ⟨h, Grows.of_trail rfl (Nat.le_refl _)⟩
  | text chars => exact ⟨h.pushText _, grows_pushText ..⟩
  | leaf kind value => exact ⟨h.push _, grows_push ..⟩
  | openAssignment name => exact henter _ Kind.noConfusion rfl
  | openInterpolation isLength name => exact henter _ Kind.noConfusion rfl
  | closeInterpolation =>
    -- closing blocks leaves no sign, but what comes then is less deep
    obtain ⟨hf, ht⟩ := closeNearest_keeps h .interpolation
    exact ⟨hf, Grows.of_trail ht (depth_closeNearest_le ..)⟩
  | operators first second =>
    obtain ⟨hf, ht⟩ := closeTo_keeps h .interpolation
    simp only [apply, operate]
    split
    · exact ⟨hf.enter Kind.noConfusion,
        Grows.of_cons ((trail_enter ..).trans (by rw [ht])) (depth_closeTo_le ..)⟩
    · exact ⟨h.pushText _, grows_pushText ..⟩
  | openQuote => exact henter _ Kind.noConfusion rfl
  | closeQuote =>
    obtain ⟨hf, ht⟩ := closeNearest_keeps h .quoted
    exact ⟨hf, Grows.of_trail ht (depth_closeNearest_le ..)⟩

/-- A run adds to the trail. -/
theorem grows_of_run {table : OperatorTable} {limit idle : Nat} {source cs : List Char}
    (h : blocks.TextFree) (hr : Tokenize.run table limit source idle blocks cs = .ok last) :
    last.TextFree ∧ Grows blocks last := by
  fun_induction Tokenize.run table limit source idle blocks cs with
  | case1 =>
    cases hr
    exact ⟨h, Grows.of_trail rfl (Nat.le_refl _)⟩
  | case2 => cases hr
  | case3 _ blocks _ _ _ _ ih =>
    -- the end of the line closes the assignment
    obtain ⟨hf, hg⟩ := ih h.close hr
    have hd : blocks.close.depth ≤ blocks.depth := by
      rw [depth_close]
      omega
    exact ⟨hf, (Grows.of_trail (trail_close h) hd).trans hg⟩
  | case4 => cases hr
  | case5 _ blocks _ _ _ next _ hs ih =>
    obtain ⟨⟨lexeme, tail⟩, -, he⟩ := Option.map_eq_some_iff.mp hs
    obtain ⟨hn, hg⟩ := apply_grows table lexeme h
    obtain ⟨rfl, -⟩ := Prod.mk.inj he
    obtain ⟨hf, hl⟩ := ih hn hr
    exact ⟨hf, hg.trans hl⟩

/-- In the end the trail is that of the finished tokens. -/
theorem trail_finish {table : OperatorTable} (h : blocks.TextFree) (hs : blocks.Shaped table) :
    blocks.trail = Token.trailAll 0 blocks.finish := by
  have hframes := hs.frames_closeNearest
  rw [← (closeNearest_keeps h .main).2, trail, hframes]
  rfl

end Blocks

namespace Tokenize

open Text

/-- With `blocks` open at `cs`, the tokenizer does not get to tokens whose trail goes on with the
signs. -/
def Misreads (table : OperatorTable) (blocks : Blocks) (cs : List Char) (signs : Trail) : Prop :=
  ∀ (limit : Nat) (source : List Char) (idle : Nat) (last : Blocks), 2 ≤ limit →
    run table limit source idle blocks cs = .ok last → ¬blocks.trail ++ signs <+: last.trail

variable {table : OperatorTable} {blocks next : Blocks} {cs rest : List Char}
  {before left right signs : Trail} {s s' : Nat × Sign}

theorem Misreads.append (h : Misreads table blocks cs signs) (more : Trail) :
    Misreads table blocks cs (signs ++ more) := by
  intro limit source idle last hl hr hp
  rw [← List.append_assoc] at hp
  exact h limit source idle last hl hr ((List.prefix_append _ _).trans hp)

/-- What was read before does not help. -/
theorem Misreads.of_reads (h : Reads table blocks cs next rest)
    (ht : next.trail = blocks.trail ++ before) (hm : Misreads table next rest signs) :
    Misreads table blocks cs (before ++ signs) := by
  intro limit source idle last hl hr
  obtain ⟨after, -, he⟩ := h limit source idle hl
  rw [he] at hr
  rw [← List.append_assoc, ← ht]
  exact hm limit source after last hl hr

/-- The first sign that differs decides. -/
theorem Misreads.of_sign (h : Reads table blocks cs next rest) (hf : next.TextFree)
    (ht : next.trail = blocks.trail ++ (before ++ s :: left)) (hs : s ≠ s') :
    Misreads table blocks cs (before ++ s' :: right) := by
  intro limit source idle last hl hr hp
  obtain ⟨after, -, he⟩ := h limit source idle hl
  rw [he] at hr
  obtain ⟨-, signs, hg, -⟩ := Blocks.grows_of_run hf hr
  rw [hg, ht, List.append_assoc, List.prefix_append_right_inj, List.append_assoc,
    List.prefix_append_right_inj, List.cons_append, List.cons_prefix_cons] at hp
  exact hs hp.1.symm

theorem Misreads.of_first (h : Reads table blocks cs next rest) (hf : next.TextFree)
    (ht : next.trail = blocks.trail ++ s :: left) (hs : s ≠ s') :
    Misreads table blocks cs (s' :: right) := by
  have hm : Misreads table blocks cs ([] ++ s' :: right) := Misreads.of_sign h hf ht hs
  exact hm

/-- What stands deeper than the open blocks has no part in them any more. -/
theorem misreads_of_depth {depth : Nat} {sign : Sign} (hf : blocks.TextFree)
    (hd : blocks.depth < depth) : Misreads table blocks cs ((depth, sign) :: signs) := by
  intro limit source idle last hl hr hp
  obtain ⟨-, signs', hg, hhead, -⟩ := Blocks.grows_of_run hf hr
  rw [hg, List.prefix_append_right_inj] at hp
  obtain ⟨more, hm⟩ := hp
  have hle : depth ≤ blocks.depth := hhead (depth, sign) (by rw [← hm]; rfl)
  omega

theorem misreads_nil : Misreads table blocks [] (s :: signs) := by
  intro limit source idle last hl hr hp
  rw [run] at hr
  cases hr
  have hlength := hp.length_le
  rw [List.length_append, List.length_cons] at hlength
  omega

/-- A text that no rule takes is refused. -/
theorem misreads_of_scan (hb : blocks.innermost ≠ .assignment)
    (hs : Lexeme.scan blocks.innermost cs = none) : Misreads table blocks cs (s :: signs) := by
  cases cs with
  | nil => exact misreads_nil
  | cons c cs =>
    intro limit source idle last hl hr
    have hstep : blocks.step table (c :: cs) = none := by
      rw [Blocks.step, hs]
      rfl
    rw [run, dif_neg fun hc => hb hc.2.1] at hr
    split at hr
    · cases hr
    · next hn =>
      rw [hstep] at hn
      cases hn

/-- A misread text does not yield the expected tokens. -/
theorem Misreads.not_tokens {limit : Nat} {source : List Char} {ts : List Token}
    (h : Misreads .standard {} source (Token.trailAll 0 ts)) (hl : 2 ≤ limit) :
    Tokenize.tokens limit source {} source ≠ .ok ts := by
  intro ht
  obtain ⟨last, hr, hs, rfl⟩ := exists_run_of_tokens ht
  have hmax : max limit 1 = limit := by omega
  rw [hmax] at hr
  have hf : Blocks.TextFree {} := fun _ hm => nomatch hm
  have htrail := Blocks.trail_finish (Blocks.grows_of_run hf hr).1 hs
  apply h limit source 0 last hl hr
  rw [htrail]
  exact List.prefix_refl _

end Tokenize
end LayeredEnv
