import LayeredEnv.Pattern.Regex.Parser
import LayeredEnv.Proofs.Pattern.Globbing
import LayeredEnv.Proofs.Unicode.RangeSets

namespace LayeredEnv

namespace Glob

/-- Whether a character is written with a backslash between brackets. Angle brackets are not: with
one they would stand for the edges of a word. -/
def isEscaped (c : Char) : Bool := Text.isPunctuation c && c != '<' && c != '>'

def Mark.written : Mark → List Char
  | dash => ['-']
  | member c => if isEscaped c then ['\\', c] else [c]

end Glob

namespace Regex

open Glob (Mark isEscaped readRanges Covers)
open Unicode (RangeTable BesideSurrogates)

variable {flags : Flags} {c d : Char} {rest : List Char} {mark : Mark}

theorem letterClass?_of_isEscaped (hc : isEscaped c = true) : letterClass? flags c = none := by
  unfold letterClass?
  split
  case h_7 => rfl
  all_goals exact absurd hc (by decide)

/-- An escaped character stands for itself. -/
theorem escape_of_isEscaped (hc : isEscaped c = true) :
    escape flags (c :: rest) = some (.literal c, rest) := by
  have hascii : (c ≤ '\x7f' && !Text.isAlphanumeric c) = true := by
    simp only [isEscaped, Text.isPunctuation, Bool.and_eq_true, decide_eq_true_eq] at hc ⊢
    exact ⟨Char.le_trans hc.1.1.1.2 (by decide), hc.1.1.2⟩
  unfold escape
  simp only
  split
  case h_18 =>
    rw [letterClass?_of_isEscaped hc]
    exact if_pos hascii
  all_goals exact absurd hc (by decide)

/-- Flags under which all characters of a text count, and stand for themselves alone. -/
structure Flags.Plain (flags : Flags) : Prop where
  verbose : flags.verbose = false
  ignoreCase : flags.ignoreCase = false
  unicode : flags.unicode = true

namespace Flags.Plain

theorem skip (h : flags.Plain) (cs : List Char) : flags.skip cs = cs := by
  rw [Flags.skip, h.verbose]
  rfl

theorem peek? (h : flags.Plain) (cs : List Char) : flags.peek? cs = cs.head? := by
  rw [Flags.peek?, h.verbose]
  rfl

theorem fold (h : flags.Plain) (chars : CharClass) : flags.fold chars = chars := by
  rw [Flags.fold, h.ignoreCase]
  rfl

theorem negate? (h : flags.Plain) (chars : CharClass) :
    flags.negate? chars = some chars.complement := by
  rw [Flags.negate?, h.unicode]
  rfl

theorem literalInClass? (h : flags.Plain) (c : Char) :
    literalInClass? flags (.literal c) = some c := by
  rw [Regex.literalInClass?, h.unicode]
  rfl

end Flags.Plain

theorem classAtom_written (mark : Mark) :
    classAtom flags (mark.written ++ rest) = some (.literal mark.char, rest) := by
  cases mark with
  | dash => rfl
  | member c =>
    rw [Mark.written]
    split_ifs with hc
    · exact escape_of_isEscaped hc
    · have hne : c ≠ '\\' := fun he => hc (by rw [he]; rfl)
      rw [List.singleton_append, classAtom]
      · rfl
      · exact fun he => hne he

def BeginsMember (c : Char) : Prop := c = '\\' ∨ isEscaped c = false

theorem BeginsMember.ne (h : BeginsMember c) (hd : isEscaped d = true) (hne : d ≠ '\\') :
    c ≠ d := by
  rintro rfl
  rcases h with rfl | hc
  · exact hne rfl
  · rw [hd] at hc
    cases hc

theorem exists_beginsMember (c : Char) (rest : List Char) :
    ∃ head tail, (Mark.member c).written ++ rest = head :: tail ∧ BeginsMember head := by
  rw [Mark.written]
  split_ifs with hc
  · exact ⟨'\\', c :: rest, rfl, .inl rfl⟩
  · exact ⟨c, rest, rfl, .inr (Bool.eq_false_iff.mpr hc)⟩

/-- An item is no end of a range if no hyphen follows it, or a hyphen does that another one
follows. -/
theorem classRange_alone (h : flags.Plain) (mark : Mark)
    (hrest : (∃ tail, rest = '-' :: '-' :: tail) ∨ ∃ c tail, c ≠ '-' ∧ rest = c :: tail) :
    classRange flags (mark.written ++ rest) =
      some (RangeTable.single mark.char, rest) := by
  rw [classRange, classAtom_written]
  simp only [Option.bind_eq_bind, Option.bind_some, h.skip, h.peek?, h.literalInClass?,
    Option.map_some]
  obtain ⟨tail, rfl⟩ | ⟨c, tail, hc, rfl⟩ := hrest
  · rfl
  · split
    · next he => cases he
    · next he => exact absurd (List.cons.inj he).1 hc
    · rfl

theorem classRange_range (h : flags.Plain) (low high : Char) :
    classRange flags ((Mark.member low).written ++ '-' :: ((Mark.member high).written ++ rest)) =
      if low ≤ high then some (RangeTable.range low high, rest) else none := by
  obtain ⟨head, tail, he, hhead⟩ := exists_beginsMember high rest
  have hbracket : head ≠ ']' := hhead.ne rfl (by decide)
  have hhyphen : head ≠ '-' := hhead.ne rfl (by decide)
  rw [classRange, classAtom_written]
  simp only [Option.bind_eq_bind, Option.bind_some, h.skip, h.literalInClass?, Option.map_some,
    h.peek?, classAtom_written, Mark.char]
  rw [he, List.head?_cons]
  simp only [beq_iff_eq, Bool.or_eq_true, hbracket, hhyphen, or_self, if_false]

variable {negated : Bool} {fuel : Nat} {outer : List OpenBracket} {bracket : OpenBracket}
  {cs : List Char}

def BeginsItem : List Char → Prop
  | c :: d :: _ => BeginsMember c ∨ c = '-' ∧ d ≠ '-'
  | _ => False

theorem bracketItems_item (h : flags.Plain) (hcs : BeginsItem cs) :
    bracketItems flags (fuel + 1) outer bracket cs = (classRange flags cs).bind fun (chars, rest) =>
      bracketItems flags fuel outer (bracket.push chars 0) rest := by
  match cs with
  | c :: d :: tail =>
    have hc : c ≠ '[' ∧ c ≠ ']' ∧ c ≠ '&' ∧ c ≠ '~' ∧ (c = '-' → d ≠ '-') := by
      rcases hcs with hc | ⟨rfl, hd⟩
      · exact ⟨hc.ne rfl (by decide), hc.ne rfl (by decide), hc.ne rfl (by decide),
          hc.ne rfl (by decide), fun he => absurd he (hc.ne rfl (by decide))⟩
      · exact ⟨by decide, by decide, by decide, by decide, fun _ => hd⟩
    obtain ⟨hopen, hclose, hand, htilde, hhyphen⟩ := hc
    rw [bracketItems]
    simp only [h.skip]
    split
    · next he => cases he
    · next he => exact absurd (List.cons.inj he).1 hopen
    · next he => exact absurd (List.cons.inj he).1 hclose
    · next he => exact absurd (List.cons.inj he).1 hand
    · next he =>
      obtain ⟨hc, he⟩ := List.cons.inj he
      exact absurd (List.cons.inj he).1 (hhyphen hc)
    · next he => exact absurd (List.cons.inj he).1 htilde
    · rfl

/-- The brackets are read with a result, if there is fuel for each character. -/
def ReadsBracket (flags : Flags) (outer : List OpenBracket) (bracket : OpenBracket)
    (cs : List Char) (result : Option (Nested CharClass × List Char)) : Prop :=
  ∀ fuel, cs.length < fuel → bracketItems flags fuel outer bracket cs = result

variable {result : Option (Nested CharClass × List Char)} {low high : Char}

theorem length_written_pos (mark : Mark) : 0 < mark.written.length := by
  cases mark with
  | dash => exact Nat.one_pos
  | member c =>
    rw [Mark.written]
    split_ifs <;> exact Nat.succ_pos _

/-- An item, and what follows it. -/
theorem ReadsBracket.item {chars : CharClass} (h : flags.Plain) (hcs : BeginsItem cs)
    (hrange : classRange flags cs = some (chars, rest)) (hlength : rest.length < cs.length)
    (hrest : ReadsBracket flags outer (bracket.push chars 0) rest result) :
    ReadsBracket flags outer bracket cs result := by
  intro fuel hfuel
  obtain ⟨fuel, rfl⟩ := Nat.exists_eq_add_of_lt hfuel
  rw [bracketItems_item h hcs, hrange, Option.bind_some]
  exact hrest _ (by omega)

theorem ReadsBracket.refused (h : flags.Plain) (hcs : BeginsItem cs)
    (hrange : classRange flags cs = none) : ReadsBracket flags outer bracket cs none := by
  intro fuel hfuel
  obtain ⟨fuel, rfl⟩ := Nat.exists_eq_add_of_lt hfuel
  rw [bracketItems_item h hcs, hrange, Option.bind_none]

theorem ReadsBracket.difference (h : flags.Plain)
    (hrest : ReadsBracket flags outer (bracket.operate flags .difference) rest result) :
    ReadsBracket flags outer bracket ('-' :: '-' :: rest) result := by
  intro fuel hfuel
  obtain ⟨fuel, rfl⟩ := Nat.exists_eq_add_of_lt hfuel
  rw [bracketItems, h.skip]
  exact hrest _ (by simp only [List.length_cons]; omega)

theorem ReadsBracket.close {chars : Nested CharClass} (h : flags.Plain)
    (hclose : bracket.close? flags = some chars) (rest : List Char) :
    ReadsBracket flags [] bracket (']' :: rest) (some (chars, rest)) := by
  intro fuel hfuel
  obtain ⟨fuel, rfl⟩ := Nat.exists_eq_add_of_lt hfuel
  rw [bracketItems, h.skip]
  simp only [hclose, Option.bind_some]

def writtenItems (list : List Mark) (rest : List Char) : List Char :=
  list.flatMap Mark.written ++ ']' :: rest

theorem writtenItems_cons (mark : Mark) (list : List Mark) (rest : List Char) :
    writtenItems (mark :: list) rest = mark.written ++ writtenItems list rest := by
  rw [writtenItems, List.flatMap_cons, List.append_assoc, writtenItems]

variable {list : List Mark}

/-- What follows a mark begins with a hyphen only if the next mark is one. -/
theorem exists_writtenItems (list : List Mark) (rest : List Char) :
    ∃ c tail, writtenItems list rest = c :: tail ∧ (c = '-' → list.head? = some .dash) := by
  cases list with
  | nil => exact ⟨']', rest, rfl, fun he => absurd he (by decide)⟩
  | cons mark list =>
    rw [writtenItems_cons]
    cases mark with
    | dash => exact ⟨'-', writtenItems list rest, rfl, fun _ => rfl⟩
    | member c =>
      obtain ⟨head, tail, he, hhead⟩ := exists_beginsMember c (writtenItems list rest)
      exact ⟨head, tail, he, fun hdash => absurd hdash (hhead.ne rfl (by decide))⟩

theorem beginsItem_member (c d : Char) (tail : List Char) :
    BeginsItem ((Mark.member c).written ++ d :: tail) := by
  rw [Mark.written]
  split_ifs with hc
  · exact .inl (.inl rfl)
  · exact .inl (.inr (Bool.eq_false_iff.mpr hc))

theorem ReadsBracket.range (h : flags.Plain) (hle : low ≤ high)
    (hlist : ReadsBracket flags outer (bracket.push (.range low high) 0) (writtenItems list rest)
      result) :
    ReadsBracket flags outer bracket
      (writtenItems (.member low :: .dash :: .member high :: list) rest) result := by
  rw [writtenItems_cons, writtenItems_cons, writtenItems_cons]
  refine .item h (beginsItem_member ..) ((classRange_range h low high).trans (if_pos hle)) ?_ hlist
  simp only [List.length_append]
  have hlow := length_written_pos (.member low)
  omega

theorem ReadsBracket.single (h : flags.Plain) (mark : Mark)
    (hdashes : ∀ more, mark = .dash → list = .dash :: more → False)
    (hrange : ∀ low high more, mark = .member low → list = .dash :: .member high :: more → False)
    (hlast : (mark :: list).getLast? ≠ some .dash)
    (hlist : ReadsBracket flags outer (bracket.push (.single mark.char) 0) (writtenItems list rest)
      result) :
    ReadsBracket flags outer bracket (writtenItems (mark :: list) rest) result := by
  obtain ⟨c, tail, he, hc⟩ := exists_writtenItems list rest
  rw [writtenItems_cons]
  refine .item h ?_ (classRange_alone h mark ?_) ?_ hlist
  · cases mark with
    | member d =>
      rw [he]
      exact beginsItem_member d c tail
    | dash =>
      rw [he]
      refine .inr ⟨rfl, fun hdash => ?_⟩
      obtain ⟨more, rfl⟩ := List.head?_eq_some_iff.mp (hc hdash)
      exact hdashes more rfl rfl
  · by_cases hdash : c = '-'
    · obtain ⟨more, rfl⟩ := List.head?_eq_some_iff.mp (hc hdash)
      cases mark with
      | dash => exact (hdashes more rfl rfl).elim
      | member d =>
        -- behind the hyphen stands another one
        match more with
        | [] => exact absurd rfl hlast
        | .dash :: more => exact .inl ⟨writtenItems more rest, rfl⟩
        | .member high :: more => exact (hrange d high more rfl rfl).elim
    · exact .inr ⟨c, tail, hdash, he⟩
  · simp only [List.length_append]
    have hmark := length_written_pos mark
    omega

namespace OpenBracket

structure Simple (bracket : OpenBracket) : Prop where
  items : ∀ item ∈ bracket.items, item.value.Normal
  left : ∀ operator left, bracket.left = some (operator, left) →
    operator = .difference ∧ left.value.Normal

def Lists (bracket : OpenBracket) (c : Char) : Prop :=
  ∃ item ∈ bracket.items, item.value.contains c = true

/-- The character is in the brackets, if in case of `later` it is in an item to come. -/
def Has (bracket : OpenBracket) (later : Prop) (c : Char) : Prop :=
  match bracket.left with
  | none => bracket.Lists c ∨ later
  | some (_, left) => left.value.contains c = true ∧ ¬(bracket.Lists c ∨ later)

variable {chars : CharClass} {later : Prop} {depth : Nat} {left : Nested CharClass}

theorem has_of_none (h : bracket.left = none) : bracket.Has later c ↔ bracket.Lists c ∨ later := by
  rw [Has, h]

theorem has_of_some {operator : SetOperator} (h : bracket.left = some (operator, left)) :
    bracket.Has later c ↔ left.value.contains c = true ∧ ¬(bracket.Lists c ∨ later) := by
  rw [Has, h]

theorem Simple.push (h : bracket.Simple) (hchars : chars.Normal) (depth : Nat) :
    (bracket.push chars depth).Simple where
  items := List.forall_mem_cons.mpr ⟨hchars, h.items⟩
  left := h.left

theorem Simple.normal_items (h : bracket.Simple) :
    RangeTable.Normal (.unions (bracket.items.map (·.value))) := by
  refine RangeTable.Normal.unions ?_
  simpa using h.items

theorem Simple.contains_items (h : bracket.Simple) :
    (RangeTable.unions (bracket.items.map (·.value))).contains c = true ↔
      bracket.Lists c := by
  rw [RangeTable.contains_unions (by simpa using h.items)]
  simp [Lists]

theorem content_of_none (h : bracket.left = none) :
    (bracket.content flags).value = .unions (bracket.items.map (·.value)) := by
  rw [content, h]

theorem content_of_some (hflags : flags.Plain) (h : bracket.left = some (.difference, left)) :
    (bracket.content flags).value =
      left.value.difference (.unions (bracket.items.map (·.value))) := by
  rw [content, h]
  simp only [hflags.fold]
  rfl

theorem Simple.normal_content (h : bracket.Simple) (hflags : flags.Plain) :
    (bracket.content flags).value.Normal := by
  match hleft : bracket.left with
  | none =>
    rw [content_of_none hleft]
    exact h.normal_items
  | some (operator, left) =>
    obtain ⟨rfl, hnormal⟩ := h.left operator left hleft
    rw [content_of_some hflags hleft]
    exact hnormal.difference h.normal_items

theorem Simple.contains_content (h : bracket.Simple) (hflags : flags.Plain) :
    (bracket.content flags).value.contains c = true ↔ bracket.Has False c := by
  match hleft : bracket.left with
  | none => rw [content_of_none hleft, has_of_none hleft, or_false, h.contains_items]
  | some (operator, left) =>
    obtain ⟨rfl, hnormal⟩ := h.left operator left hleft
    rw [content_of_some hflags hleft, has_of_some hleft, or_false,
      RangeTable.contains_difference hnormal h.normal_items, Bool.and_eq_true,
      Bool.not_eq_true', ← Bool.not_eq_true, h.contains_items]

theorem Simple.operate (h : bracket.Simple) (hflags : flags.Plain) :
    (bracket.operate flags .difference).Simple where
  items := by simp [OpenBracket.operate]
  left operator left he := by
    cases he
    exact ⟨rfl, h.normal_content hflags⟩

variable {final : OpenBracket} {members excluded : List Glob.Range}

end OpenBracket

variable {members excluded : List Glob.Range}

def writtenBracket (negated : Bool) (items rest : List Char) : List Char :=
  (if negated then ['^'] else []) ++ writtenItems (Glob.marks items) rest

/-- Closed brackets have the characters that they hold, or with a negation all others, apart from
the two around the surrogates. -/
theorem OpenBracket.Simple.close? (hb : bracket.Simple) (h : flags.Plain) :
    ∃ chars, bracket.close? flags = some chars ∧ chars.value.Sorted ∧
      ∀ c, ¬BesideSurrogates c →
        (chars.value.contains c = true ↔ (bracket.Has False c ↔ bracket.negated = false)) := by
  have hnormal := hb.normal_content h
  rw [OpenBracket.close?]
  simp only [h.fold, h.negate?]
  cases bracket.negated with
  | false =>
    refine ⟨_, rfl, hnormal.sorted, fun c _ => ?_⟩
    rw [iff_true_right rfl]
    exact hb.contains_content h
  | true =>
    refine ⟨_, rfl, hnormal.complement, fun c hc => ?_⟩
    rw [RangeTable.contains_complement hnormal hc, Bool.not_eq_true', ← Bool.not_eq_true,
      hb.contains_content h, iff_false_right (nofun : ¬true = false)]

end Regex
end LayeredEnv
