import LayeredEnv.Operator.Apply
import Mathlib.Data.List.Basic

namespace LayeredEnv

def Side.Splits (side : Side) (removed left text : List Char) : Prop :=
  match side with
  | front => text = removed ++ left
  | back => text = left ++ removed

def Side.Leaves (side : Side) (left text : List Char) : Prop :=
  match side with
  | front => left <:+ text
  | back => left <+: text

/-- A match of `length` characters is removed rather than one of `other` characters. -/
def Extent.Prefers (extent : Extent) (length other : Nat) : Prop :=
  match extent with
  | shortest => length ≤ other
  | longest => other ≤ length

theorem Side.splits_back_iff {removed left text : List Char} :
    back.Splits removed left text ↔ front.Splits removed.reverse left.reverse text.reverse := by
  rw [Splits, Splits, ← List.reverse_append, List.reverse_inj]

theorem Side.Splits.leaves {side : Side} {removed left text : List Char}
    (h : side.Splits removed left text) : side.Leaves left text := by
  cases side with
  | front => exact ⟨removed, h.symm⟩
  | back => exact ⟨removed, h.symm⟩

theorem Side.Splits.length_eq {side : Side} {removed left text : List Char}
    (h : side.Splits removed left text) : text.length = removed.length + left.length := by
  cases side with
  | front => rw [show text = removed ++ left from h, List.length_append]
  | back => rw [show text = left ++ removed from h, List.length_append, Nat.add_comm]

theorem Side.Splits.unique {side : Side} {removed left other more text : List Char}
    (h : side.Splits removed left text) (ho : side.Splits other more text)
    (hl : removed.length = other.length) : removed = other ∧ left = more := by
  cases side with
  | front => exact List.append_inj (Eq.symm h |>.trans ho) hl
  | back => exact (List.append_inj' (Eq.symm h |>.trans ho) hl).symm

theorem Side.leaves_refl (side : Side) (text : List Char) : side.Leaves text text := by
  cases side with
  | front => exact List.suffix_rfl
  | back => exact List.prefix_rfl

/-- Of two ends of a text the shorter is an end of the longer. -/
theorem Side.Leaves.of_length_le {side : Side} {left more text : List Char}
    (h : side.Leaves left text) (hm : side.Leaves more text) (hl : left.length ≤ more.length) :
    side.Leaves left more := by
  cases side with
  | front => exact List.suffix_of_suffix_length_le h hm hl
  | back => exact List.prefix_of_prefix_length_le h hm hl

namespace Glob

inductive Matches : List Piece → List Char → Prop
  | nil : Matches [] []
  | anySequence {glob : List Piece} {text : List Char} (front : List Char)
      (h : Matches glob text) : Matches (.anySequence :: glob) (front ++ text)
  | char {piece : Piece} {glob : List Piece} {c : Char} {text : List Char}
      (hc : piece.matchesChar c = true) (h : Matches glob text) :
      Matches (piece :: glob) (c :: text)

/-- Ends of one text, longest first. -/
structure Ends (text : List Char) (ends : List (List Char)) : Prop where
  suffix : ∀ {rest}, rest ∈ ends → rest <:+ text
  pairwise : ends.Pairwise fun longer shorter => shorter.length < longer.length

variable {glob : List Piece} {piece : Piece} {text rest : List Char} {ends : List (List Char)}

theorem mem_suffixes_iff : rest ∈ suffixes text ↔ rest <:+ text := by
  induction text with
  | nil => simp [suffixes]
  | cons c cs ih => rw [suffixes, List.mem_cons, ih, List.suffix_cons_iff]

theorem pairwise_suffixes (text : List Char) :
    (suffixes text).Pairwise fun longer shorter => shorter.length < longer.length := by
  induction text with
  | nil => exact List.pairwise_singleton ..
  | cons c cs ih =>
    refine List.pairwise_cons.mpr ⟨fun rest hr => ?_, ih⟩
    have hle : rest.length ≤ cs.length := (mem_suffixes_iff.mp hr).length_le
    exact Nat.lt_succ_of_le hle

theorem Ends.singleton (text : List Char) : Ends text [text] where
  suffix hr := List.mem_singleton.mp hr ▸ List.suffix_rfl
  pairwise := List.pairwise_singleton ..

/-- Of ends of one text each is an end of the first. -/
theorem Ends.suffix_head {longest : List Char} (h : Ends text (longest :: ends))
    (hr : rest ∈ longest :: ends) : rest <:+ longest := by
  rcases List.mem_cons.mp hr with rfl | htail
  · exact List.suffix_rfl
  · have hlt : rest.length < longest.length := (List.pairwise_cons.mp h.pairwise).1 rest htail
    exact List.suffix_of_suffix_length_le (h.suffix hr) (h.suffix List.mem_cons_self)
      (Nat.le_of_lt hlt)

/-- What is left of `ends` when a piece takes one character. -/
theorem rests_of_ne (hp : piece ≠ .anySequence) : piece.rests ends = ends.filterMap fun
    | c :: cs => if piece.matchesChar c then some cs else none
    | [] => none := by
  cases piece with
  | anySequence => exact absurd rfl hp
  | anyChar | literal | oneOf => rfl

theorem mem_rests_of_ne (hp : piece ≠ .anySequence) :
    rest ∈ piece.rests ends ↔ ∃ c, c :: rest ∈ ends ∧ piece.matchesChar c = true := by
  rw [rests_of_ne hp, List.mem_filterMap]
  constructor
  · rintro ⟨_ | ⟨c, cs⟩, hm, he⟩
    · cases he
    · obtain ⟨hc, he⟩ := Option.ite_none_right_eq_some.mp he
      cases he
      exact ⟨c, hm, hc⟩
  · rintro ⟨c, hm, hc⟩
    exact ⟨c :: rest, hm, if_pos hc⟩

theorem mem_rests_anySequence (h : Ends text ends) :
    rest ∈ Piece.anySequence.rests ends ↔ ∃ longer ∈ ends, rest <:+ longer := by
  cases ends with
  | nil => simp [Piece.rests]
  | cons longest ends =>
    rw [Piece.rests, mem_suffixes_iff]
    constructor
    · intro hr
      exact ⟨longest, List.mem_cons_self, hr⟩
    · rintro ⟨longer, hm, hr⟩
      exact hr.trans (h.suffix_head hm)

/-- A piece leaves ends of the text again. -/
theorem Ends.rests (h : Ends text ends) (piece : Piece) : Ends text (piece.rests ends) := by
  -- as the order stays, the first and the last of what is left are the extremal matches
  by_cases hp : piece = .anySequence
  · subst hp
    refine ⟨fun hr => ?_, ?_⟩
    · obtain ⟨longer, hm, hr⟩ := (mem_rests_anySequence h).mp hr
      exact hr.trans (h.suffix hm)
    · cases ends with
      | nil => exact .nil
      | cons longest ends => exact pairwise_suffixes longest
  · refine ⟨fun hr => ?_, ?_⟩
    · obtain ⟨c, hm, -⟩ := (mem_rests_of_ne hp).mp hr
      exact (List.suffix_cons c _).trans (h.suffix hm)
    · rw [rests_of_ne hp]
      refine h.pairwise.filterMap _ fun longer shorter hlt cs hcs ds hds => ?_
      -- both have lost one character
      cases longer with
      | nil => cases hcs
      | cons c longer =>
        cases shorter with
        | nil => cases hds
        | cons d shorter =>
          cases (Option.ite_none_right_eq_some.mp hcs).2
          cases (Option.ite_none_right_eq_some.mp hds).2
          exact Nat.lt_of_succ_lt_succ hlt

theorem matches_nil_iff : Matches [] text ↔ text = [] := by
  constructor
  · rintro ⟨⟩
    rfl
  · rintro rfl
    exact .nil

theorem matches_cons_iff : Matches (piece :: glob) text ↔
    ∃ front rest, text = front ++ rest ∧ Matches [piece] front ∧ Matches glob rest := by
  constructor
  · rintro (_ | ⟨front, h⟩ | ⟨hc, h⟩)
    · exact ⟨front, _, rfl, by simpa using Matches.anySequence front .nil, h⟩
    · exact ⟨[_], _, rfl, .char hc .nil, h⟩
  · rintro ⟨front, rest, rfl, hfront, hrest⟩
    cases hfront with
    | anySequence front h =>
      cases h
      rw [List.append_nil]
      exact .anySequence front hrest
    | char hc h =>
      cases h
      exact .char hc hrest

theorem matches_anySequence (text : List Char) : Matches [.anySequence] text := by
  simpa using Matches.anySequence text .nil

theorem matches_char_iff (hp : piece ≠ .anySequence) :
    Matches [piece] text ↔ ∃ c, text = [c] ∧ piece.matchesChar c = true := by
  constructor
  · rintro (_ | ⟨front, h⟩ | ⟨hc, h⟩)
    · exact absurd rfl hp
    · cases h
      exact ⟨_, rfl, hc⟩
  · rintro ⟨c, rfl, hc⟩
    exact .char hc .nil

/-- A piece leaves what stands behind a text that it matches. -/
theorem mem_rests_iff (h : Ends text ends) :
    rest ∈ piece.rests ends ↔ ∃ front, front ++ rest ∈ ends ∧ Matches [piece] front := by
  by_cases hp : piece = .anySequence
  · subst hp
    rw [mem_rests_anySequence h]
    constructor
    · rintro ⟨_, hm, front, rfl⟩
      exact ⟨front, hm, matches_anySequence front⟩
    · rintro ⟨front, hm, -⟩
      exact ⟨_, hm, List.suffix_append ..⟩
  · rw [mem_rests_of_ne hp]
    constructor
    · rintro ⟨c, hm, hc⟩
      exact ⟨[c], hm, (matches_char_iff hp).mpr ⟨c, rfl, hc⟩⟩
    · rintro ⟨front, hm, hfront⟩
      obtain ⟨c, rfl, hc⟩ := (matches_char_iff hp).mp hfront
      exact ⟨c, hm, hc⟩

/-- All pieces together leave what stands behind a text that the glob matches. -/
theorem Ends.foldl (h : Ends text ends) (glob : List Piece) :
    Ends text (glob.foldl (fun ends piece => piece.rests ends) ends) ∧
      ∀ rest, rest ∈ glob.foldl (fun ends piece => piece.rests ends) ends ↔
        ∃ front, front ++ rest ∈ ends ∧ Matches glob front := by
  induction glob generalizing ends with
  | nil =>
    refine ⟨h, fun rest => ?_⟩
    simp [matches_nil_iff]
  | cons piece glob ih =>
    obtain ⟨hends, hmem⟩ := ih (h.rests piece)
    refine ⟨hends, fun rest => (hmem rest).trans ?_⟩
    constructor
    · rintro ⟨front, hm, hfront⟩
      obtain ⟨first, hm, hfirst⟩ := (mem_rests_iff h).mp hm
      rw [← List.append_assoc] at hm
      exact ⟨first ++ front, hm, matches_cons_iff.mpr ⟨first, front, rfl, hfirst, hfront⟩⟩
    · rintro ⟨_, hm, hfront⟩
      obtain ⟨first, front, rfl, hfirst, hfront⟩ := matches_cons_iff.mp hfront
      rw [List.append_assoc] at hm
      exact ⟨front, (mem_rests_iff h).mpr ⟨first, hm, hfirst⟩, hfront⟩

theorem mem_rests :
    rest ∈ rests glob text ↔ ∃ front, text = front ++ rest ∧ Matches glob front := by
  refine (((Ends.singleton text).foldl glob).2 rest).trans ?_
  simp [eq_comm]

theorem pairwise_rests (glob : List Piece) (text : List Char) :
    (rests glob text).Pairwise fun longer shorter => shorter.length < longer.length :=
  ((Ends.singleton text).foldl glob).1.pairwise

theorem matches_append_iff {first second : List Piece} : Matches (first ++ second) text ↔
    ∃ front rest, text = front ++ rest ∧ Matches first front ∧ Matches second rest := by
  induction first generalizing text with
  | nil => simp [matches_nil_iff]
  | cons piece first ih =>
    rw [List.cons_append, matches_cons_iff]
    constructor
    · rintro ⟨head, _, rfl, hhead, htail⟩
      obtain ⟨front, rest, rfl, hfront, hrest⟩ := ih.mp htail
      exact ⟨head ++ front, rest, (List.append_assoc ..).symm,
        matches_cons_iff.mpr ⟨head, front, rfl, hhead, hfront⟩, hrest⟩
    · rintro ⟨_, rest, rfl, hfirst, hrest⟩
      obtain ⟨head, front, rfl, hhead, hfront⟩ := matches_cons_iff.mp hfirst
      exact ⟨head, front ++ rest, List.append_assoc .., hhead,
        ih.mpr ⟨front, rest, rfl, hfront, hrest⟩⟩

/-- A single piece matches a text from both its ends. -/
theorem Matches.reverse_one (h : Matches [piece] text) : Matches [piece] text.reverse := by
  by_cases hp : piece = .anySequence
  · subst hp
    exact matches_anySequence _
  · obtain ⟨c, rfl, hc⟩ := (matches_char_iff hp).mp h
    exact .char hc .nil

theorem Matches.reverse (h : Matches glob text) : Matches glob.reverse text.reverse := by
  induction glob generalizing text with
  | nil =>
    rw [matches_nil_iff.mp h]
    exact .nil
  | cons piece glob ih =>
    obtain ⟨front, rest, rfl, hfront, hrest⟩ := matches_cons_iff.mp h
    rw [List.reverse_cons, List.reverse_append]
    exact matches_append_iff.mpr ⟨_, _, rfl, ih hrest, hfront.reverse_one⟩

theorem matches_reverse_iff : Matches glob.reverse text.reverse ↔ Matches glob text := by
  refine ⟨fun h => ?_, Matches.reverse⟩
  simpa using h.reverse

/-- At a side of `text` the glob matches `removed`, and no end that is to be removed rather. -/
structure Extremal (glob : List Piece) (side : Side) (extent : Extent)
    (removed left text : List Char) : Prop where
  splits : side.Splits removed left text
  matched : Matches glob removed
  prefers : ∀ {other rest}, side.Splits other rest text → Matches glob other →
    extent.Prefers removed.length other.length

def Misses (glob : List Piece) (side : Side) (text : List Char) : Prop :=
  ∀ removed left, side.Splits removed left text → ¬Matches glob removed

/-- `text` is trimmed to `left`: without the extremal match, or all of it if there is no match. -/
def Trims (glob : List Piece) (side : Side) (extent : Extent) (left text : List Char) : Prop :=
  (∃ removed, Extremal glob side extent removed left text) ∨ Misses glob side text ∧ left = text

variable {side : Side} {extent : Extent} {left : List Char}

theorem Extremal.unique {removed other more : List Char}
    (h : Extremal glob side extent removed left text)
    (ho : Extremal glob side extent other more text) : removed = other ∧ left = more := by
  have hprefers := h.prefers ho.splits ho.matched
  have hother := ho.prefers h.splits h.matched
  have hlength : removed.length = other.length := by
    cases extent with
    | shortest => exact Nat.le_antisymm hprefers hother
    | longest => exact Nat.le_antisymm hother hprefers
  exact h.splits.unique ho.splits hlength

/-- What is left of the text is long where what was removed is short. -/
theorem exists_extremal (hl : left ∈ rests glob text)
    (hp : ∀ rest ∈ rests glob text, extent.Prefers rest.length left.length) :
    ∃ removed, Extremal glob .front extent removed left text := by
  obtain ⟨removed, htext, hremoved⟩ := mem_rests.mp hl
  have hsplits : Side.front.Splits removed left text := htext
  refine ⟨removed, hsplits, hremoved, fun {other rest} hother hmatch => ?_⟩
  have hprefers := hp rest (mem_rests.mpr ⟨other, hother, hmatch⟩)
  have hlength := hsplits.length_eq
  rw [hother.length_eq] at hlength
  cases extent with
  | shortest =>
    have hle : rest.length ≤ left.length := hprefers
    show removed.length ≤ other.length
    omega
  | longest =>
    have hle : left.length ≤ rest.length := hprefers
    show other.length ≤ removed.length
    omega

theorem misses_of_rests_eq_nil (h : rests glob text = []) : Misses glob .front text := by
  intro removed left htext hremoved
  have hm : left ∈ rests glob text := mem_rests.mpr ⟨removed, htext, hremoved⟩
  rw [h] at hm
  cases hm

/-- The first of what can be left is the longest, and the last of it the shortest. -/
theorem trims_stripFront (glob : List Piece) (extent : Extent) (text : List Char) :
    Trims glob .front extent (stripFront glob extent text) text := by
  have hpairwise := pairwise_rests glob text
  cases extent with
  | shortest =>
    rw [stripFront]
    cases he : rests glob text with
    | nil => exact Or.inr ⟨misses_of_rests_eq_nil he, rfl⟩
    | cons first ends =>
      have hfirst : first ∈ rests glob text := by rw [he]; exact List.mem_cons_self
      refine Or.inl (exists_extremal hfirst fun rest hr => ?_)
      rw [he] at hpairwise hr
      show rest.length ≤ first.length
      rcases List.mem_cons.mp hr with rfl | hr
      · exact Nat.le_refl _
      · exact Nat.le_of_lt ((List.pairwise_cons.mp hpairwise).1 rest hr)
  | longest =>
    rw [stripFront]
    rcases List.eq_nil_or_concat (rests glob text) with he | ⟨ends, last, he⟩
    · rw [he]
      exact Or.inr ⟨misses_of_rests_eq_nil he, rfl⟩
    · rw [List.concat_eq_append] at he
      have hlast : last ∈ rests glob text := by rw [he]; simp
      have hget : (rests glob text).getLast?.getD text = last := by
        rw [he, List.getLast?_concat]
        rfl
      rw [hget]
      refine Or.inl (exists_extremal hlast fun rest hr => ?_)
      rw [he] at hpairwise hr
      show last.length ≤ rest.length
      rcases List.mem_append.mp hr with hr | hr
      · exact Nat.le_of_lt ((List.pairwise_append.mp hpairwise).2.2 rest hr last List.mem_cons_self)
      · exact Nat.le_of_eq (congrArg _ (List.mem_singleton.mp hr).symm)

/-- The back of a text is the front of the reversed text. -/
theorem Trims.back (h : Trims glob.reverse .front extent left text.reverse) :
    Trims glob .back extent left.reverse text := by
  have hsplits {removed left : List Char} : Side.back.Splits removed left text ↔
      Side.front.Splits removed.reverse left.reverse text.reverse := Side.splits_back_iff
  rcases h with ⟨removed, hr⟩ | ⟨hmiss, rfl⟩
  · refine Or.inl ⟨removed.reverse, ?_, ?_, fun {other rest} hother hmatch => ?_⟩
    · exact hsplits.mpr (by simpa only [List.reverse_reverse] using hr.splits)
    · exact matches_reverse_iff.mp (by simpa only [List.reverse_reverse] using hr.matched)
    · have hprefers := hr.prefers (hsplits.mp hother) hmatch.reverse
      rwa [List.length_reverse] at hprefers ⊢
  · refine Or.inr ⟨fun removed left hother hmatch => ?_, List.reverse_reverse text⟩
    exact hmiss _ _ (hsplits.mp hother) hmatch.reverse

theorem trims_stripPieces (glob : List Piece) (side : Side) (extent : Extent) (text : List Char) :
    Trims glob side extent (stripPieces glob side extent text) text := by
  cases side with
  | front => exact trims_stripFront glob extent text
  | back => exact (trims_stripFront glob.reverse extent text.reverse).back

theorem Trims.leaves (h : Trims glob side extent left text) : side.Leaves left text := by
  rcases h with ⟨removed, hr⟩ | ⟨-, rfl⟩
  · exact hr.splits.leaves
  · exact side.leaves_refl left

/-- Nothing has gone exactly if there is no match or the match that was removed is empty. -/
theorem Trims.eq_text_iff (h : Trims glob side extent left text) :
    left = text ↔ Misses glob side text ∨ Extremal glob side extent [] text text := by
  constructor
  · rintro rfl
    refine h.symm.imp And.left ?_
    rintro ⟨removed, hr⟩
    have hlength := hr.splits.length_eq
    have hempty : removed = [] := List.eq_nil_of_length_eq_zero (by omega)
    exact hempty ▸ hr
  · rintro (hmiss | hempty)
    · rcases h with ⟨removed, hr⟩ | ⟨-, he⟩
      · exact absurd hr.matched (hmiss removed left hr.splits)
      · exact he
    · rcases h with ⟨removed, hr⟩ | ⟨-, he⟩
      · exact (hr.unique hempty).2
      · exact he

/-- Without the longest match no more is left than without the shortest. -/
theorem Trims.leaves_shortest {more : List Char} (h : Trims glob side .longest left text)
    (hs : Trims glob side .shortest more text) : side.Leaves left more := by
  rcases h with ⟨removed, hr⟩ | ⟨hmiss, rfl⟩
  · refine hr.splits.leaves.of_length_le hs.leaves ?_
    rcases hs with ⟨other, ho⟩ | ⟨hmiss, rfl⟩
    · have hprefers : removed.length ≥ other.length := hr.prefers ho.splits ho.matched
      have hlength := hr.splits.length_eq
      rw [ho.splits.length_eq] at hlength
      omega
    · exact absurd hr.matched (hmiss removed left hr.splits)
  · rcases hs with ⟨other, ho⟩ | ⟨-, rfl⟩
    · exact absurd ho.matched (hmiss other more ho.splits)
    · exact side.leaves_refl _

theorem strip_of_parse {pattern : String} (h : parse pattern.toList = some glob) (value : String)
    (side : Side) (extent : Extent) : strip value pattern side extent =
      .ok (.ofList (stripPieces glob side extent value.toList)) := by
  rw [strip, h]

theorem stripPieces_nil (side : Side) (extent : Extent) (text : List Char) :
    stripPieces [] side extent text = text := by
  cases side with
  | front => cases extent <;> rfl
  | back => cases extent <;> exact List.reverse_reverse text

theorem stripPieces_of_empty (glob : List Piece) (side : Side) (extent : Extent) :
    stripPieces glob side extent [] = [] := by
  have hleaves := (trims_stripPieces glob side extent []).leaves
  cases side with
  | front => exact List.suffix_nil.mp hleaves
  | back => exact List.prefix_nil.mp hleaves

/-- The operators leave empty values and empty patterns aside, for which nothing is removed. -/
theorem apply_strip {pattern : String} (h : parse pattern.toList = some glob) (value : String)
    (side : Side) (extent : Extent) {σ : Type} {arguments : Arguments σ}
    (ha : arguments.eval 0 = pure (some pattern)) :
    Rule.apply (.strip side extent) (some value) arguments =
      pure (some (.ofList (stripPieces glob side extent value.toList))) := by
  rw [Rule.apply]
  by_cases hv : value = ""
  · subst hv
    have hempty : stripPieces glob side extent "".toList = [] := stripPieces_of_empty ..
    rw [hempty]
    rfl
  · have hvalue : Value.nonEmpty? (some value) = some value := by simp [Value.nonEmpty?, hv]
    rw [hvalue]
    dsimp only
    rw [ha, pure_bind]
    by_cases hp : pattern = ""
    · subst hp
      have hglob : some glob = some [] := h.symm.trans (by rw [String.toList_empty, parse])
      cases hglob
      rw [stripPieces_nil, String.ofList_toList]
      rfl
    · have hpattern : Value.nonEmpty? (some pattern) = some pattern := by
        simp [Value.nonEmpty?, hp]
      rw [hpattern]
      dsimp only
      rw [strip_of_parse h]
      rfl

/-- Trimming removes the shortest or the longest end that the glob matches as a whole, be it empty
or the whole value; without such an end, and if it is empty, the value stays as it is. What is left
stands at the other side of the value, and what the longest match leaves stands there in what the
shortest one leaves. -/
theorem strip_removes_extremal {pattern : String} (h : parse pattern.toList = some glob)
    (value : String) (side : Side) : ∃ left : Extent → String,
      (∀ extent,
        strip value pattern side extent = .ok (left extent) ∧
        (∀ {σ : Type} (arguments : Arguments σ), arguments.eval 0 = pure (some pattern) →
          Rule.apply (.strip side extent) (some value) arguments = pure (some (left extent))) ∧
        Trims glob side extent (left extent).toList value.toList ∧
        (left extent = value ↔ Misses glob side value.toList ∨
          Extremal glob side extent [] value.toList value.toList) ∧
        side.Leaves (left extent).toList value.toList) ∧
      side.Leaves (left .longest).toList (left .shortest).toList := by
  have htrims extent := trims_stripPieces glob side extent value.toList
  refine ⟨fun extent => .ofList (stripPieces glob side extent value.toList), fun extent => ?_, ?_⟩
  · rw [String.toList_ofList]
    refine ⟨strip_of_parse h value side extent, fun arguments => apply_strip h value side extent,
      htrims extent, ?_, (htrims extent).leaves⟩
    rw [← (htrims extent).eq_text_iff, ← String.toList_inj, String.toList_ofList]
  · rw [String.toList_ofList, String.toList_ofList]
    exact (htrims .longest).leaves_shortest (htrims .shortest)

/-- A path from its front: up to its first and up to its last slash. -/
theorem strip_removes_extremal_path :
    parse "*/".toList = some [.anySequence, .literal '/'] ∧
      ∃ left : Extent → String,
        (left .shortest = "path/to/é" ∧ left .longest = "é") ∧
        (∀ extent, Trims [.anySequence, .literal '/'] .front extent (left extent).toList
          "/path/to/é".toList) ∧
        Side.front.Leaves (left .longest).toList (left .shortest).toList := by
  have hparse : parse "*/".toList = some [.anySequence, .literal '/'] := by cbv
  obtain ⟨left, hleft, hlongest⟩ := strip_removes_extremal hparse "/path/to/é" .front
  refine ⟨hparse, left, ⟨?_, ?_⟩, fun extent => (hleft extent).2.2.1, hlongest⟩
  · have hstrip : strip "/path/to/é" "*/" .front .shortest = .ok "path/to/é" := by cbv
    rw [(hleft .shortest).1] at hstrip
    exact Except.ok.inj hstrip
  · have hstrip : strip "/path/to/é" "*/" .front .longest = .ok "é" := by cbv
    rw [(hleft .longest).1] at hstrip
    exact Except.ok.inj hstrip

end Glob
end LayeredEnv
