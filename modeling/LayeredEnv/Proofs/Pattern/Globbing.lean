import LayeredEnv.Proofs.Pattern.Trimming
import Mathlib.Data.List.Forall2

namespace LayeredEnv.Glob

inductive Element where
  | anySequence
  | anyChar
  | literal (c : Char)
  | oneOf (negated : Bool) (items : List Char)
  deriving DecidableEq, Repr

/-- A bracket expression behind its `[`: whether it is negated, its items, of which the first may be
a closing bracket, and what follows it. -/
inductive Bracketed : List Char → Bool → List Char → List Char → Prop
  | plain {first : Char} {more : List Char} (sign : first ≠ '!' ∧ first ≠ '^')
      (closing : ']' ∉ more) (rest : List Char) :
      Bracketed (first :: (more ++ ']' :: rest)) false (first :: more) rest
  | negated {mark first : Char} {more : List Char} (sign : mark = '!' ∨ mark = '^')
      (closing : ']' ∉ more) (rest : List Char) :
      Bracketed (mark :: first :: (more ++ ']' :: rest)) true (first :: more) rest

inductive Reads : List Char → List Element → Prop
  | nil : Reads [] []
  | anySequence {cs : List Char} {elements : List Element} (h : Reads cs elements) :
      Reads ('*' :: cs) (.anySequence :: elements)
  | anyChar {cs : List Char} {elements : List Element} (h : Reads cs elements) :
      Reads ('?' :: cs) (.anyChar :: elements)
  | escaped (c : Char) {cs : List Char} {elements : List Element} (h : Reads cs elements) :
      Reads ('\\' :: c :: cs) (.literal c :: elements)
  | oneOf {cs items rest : List Char} {negated : Bool} {elements : List Element}
      (bracketed : Bracketed cs negated items rest) (h : Reads rest elements) :
      Reads ('[' :: cs) (.oneOf negated items :: elements)
  | literal {c : Char} {cs : List Char} {elements : List Element} (wild : c ≠ '*' ∧ c ≠ '?')
      (escape : c = '\\' → cs = [])
      (bracket : c = '[' → ∀ negated items rest, ¬Bracketed cs negated items rest)
      (h : Reads cs elements) : Reads (c :: cs) (.literal c :: elements)

/-- The ranges of a bracket expression, read from left to right: a hyphen between two characters
makes them the ends of a range, and any other character is a range of its own. -/
def ranges : List Char → List Range
  | low :: '-' :: high :: rest => ⟨low, high⟩ :: ranges rest
  | c :: rest => ⟨c, c⟩ :: ranges rest
  | [] => []

def Element.piece : Element → Piece
  | anySequence => .anySequence
  | anyChar => .anyChar
  | literal c => .literal c
  | oneOf negated items => .oneOf ⟨negated, ranges items, []⟩

def Element.compile : Element → Option Piece
  | anySequence => some .anySequence
  | anyChar => some .anyChar
  | literal c => some (.literal c)
  | oneOf negated items =>
    (readRanges (marks items)).map fun (members, excluded) => .oneOf ⟨negated, members, excluded⟩

variable {cs items rest : List Char} {negated : Bool} {elements : List Element}

theorem closeBracket_eq_some_iff : closeBracket cs = some (items, rest) ↔
    ∃ first more, cs = first :: (more ++ ']' :: rest) ∧ items = first :: more ∧ ']' ∉ more := by
  constructor
  · intro h
    unfold closeBracket at h
    split at h
    · obtain ⟨⟨more, rest'⟩, hsplit, he⟩ := Option.map_eq_some_iff.mp h
      cases he
      obtain ⟨rfl, closing⟩ := Text.splitAtFirst_eq_some_iff.mp hsplit
      exact ⟨']', more, rfl, rfl, closing⟩
    · next hfirst =>
      obtain ⟨rfl, closing⟩ := Text.splitAtFirst_eq_some_iff.mp h
      cases items with
      | nil => exact absurd rfl (hfirst rest)
      | cons first more =>
        exact ⟨first, more, rfl, rfl, fun hm => closing (List.mem_cons_of_mem _ hm)⟩
  · rintro ⟨first, more, rfl, rfl, closing⟩
    by_cases hfirst : first = ']'
    · subst hfirst
      rw [closeBracket, Text.splitAtFirst_append closing]
      rfl
    · have hitems : ']' ∉ first :: more := by
        rw [List.mem_cons, not_or]
        exact ⟨Ne.symm hfirst, closing⟩
      rw [closeBracket, ← List.cons_append, Text.splitAtFirst_append hitems]
      rintro cs he
      exact hfirst (List.cons.inj he).1

theorem splitBracket_eq_some_iff :
    splitBracket cs = some (negated, items, rest) ↔ Bracketed cs negated items rest := by
  constructor
  · intro h
    unfold splitBracket at h
    split at h
    · obtain ⟨⟨items', rest'⟩, hclose, he⟩ := Option.map_eq_some_iff.mp h
      cases he
      obtain ⟨first, more, rfl, rfl, closing⟩ := closeBracket_eq_some_iff.mp hclose
      exact .negated (.inl rfl) closing rest
    · obtain ⟨⟨items', rest'⟩, hclose, he⟩ := Option.map_eq_some_iff.mp h
      cases he
      obtain ⟨first, more, rfl, rfl, closing⟩ := closeBracket_eq_some_iff.mp hclose
      exact .negated (.inr rfl) closing rest
    · next hbang hcaret =>
      obtain ⟨⟨items', rest'⟩, hclose, he⟩ := Option.map_eq_some_iff.mp h
      cases he
      obtain ⟨first, more, rfl, rfl, closing⟩ := closeBracket_eq_some_iff.mp hclose
      exact .plain ⟨fun he => hbang _ (by rw [he]), fun he => hcaret _ (by rw [he])⟩ closing rest
  · rintro (⟨sign, closing⟩ | ⟨rfl | rfl, closing⟩)
    · rw [splitBracket, closeBracket_eq_some_iff.mpr ⟨_, _, rfl, rfl, closing⟩]
      · rfl
      · exact fun cs he => sign.1 (List.cons.inj he).1
      · exact fun cs he => sign.2 (List.cons.inj he).1
    · rw [splitBracket, closeBracket_eq_some_iff.mpr ⟨_, _, rfl, rfl, closing⟩]
      rfl
    · rw [splitBracket, closeBracket_eq_some_iff.mpr ⟨_, _, rfl, rfl, closing⟩]
      rfl

theorem Bracketed.unique {other more : List Char} {sign : Bool}
    (h : Bracketed cs negated items rest) (ho : Bracketed cs sign other more) :
    negated = sign ∧ items = other ∧ rest = more := by
  have hsome := (splitBracket_eq_some_iff.mpr h).symm.trans (splitBracket_eq_some_iff.mpr ho)
  simpa only [Option.some.injEq, Prod.mk.injEq] using hsome

/-- A pattern is read in one way. -/
theorem Reads.unique {other : List Element} (h : Reads cs elements) (ho : Reads cs other) :
    elements = other := by
  induction h generalizing other with
  | nil => cases ho; rfl
  | anySequence _ ih =>
    cases ho with
    | anySequence ho => rw [ih ho]
    | literal wild => exact absurd rfl wild.1
  | anyChar _ ih =>
    cases ho with
    | anyChar ho => rw [ih ho]
    | literal wild => exact absurd rfl wild.2
  | escaped c _ ih =>
    cases ho with
    | escaped _ ho => rw [ih ho]
    | literal _ escape => cases escape rfl
  | oneOf bracketed _ ih =>
    cases ho with
    | oneOf bracketed' ho =>
      obtain ⟨rfl, rfl, rfl⟩ := bracketed.unique bracketed'
      rw [ih ho]
    | literal _ _ bracket => exact absurd bracketed (bracket rfl _ _ _)
  | literal wild escape bracket _ ih =>
    cases ho with
    | anySequence => exact absurd rfl wild.1
    | anyChar => exact absurd rfl wild.2
    | escaped => cases escape rfl
    | oneOf bracketed => exact absurd bracketed (bracket rfl _ _ _)
    | literal _ _ _ ho => rw [ih ho]

def InnerPair (cs : List Char) : Prop :=
  ∃ before after, after ≠ [] ∧ cs = before ++ '-' :: '-' :: after

theorem InnerPair.cons (h : InnerPair cs) (c : Char) : InnerPair (c :: cs) := by
  obtain ⟨before, after, hafter, rfl⟩ := h
  exact ⟨c :: before, after, hafter, rfl⟩

def inOrder (ranges : List Range) : Option (List Range × List Range) :=
  if ∀ range ∈ ranges, range.low ≤ range.high then some (ranges, []) else none

def Covers (ranges : List Range) (c : Char) : Prop := ∃ range ∈ ranges, range.contains c = true

variable {c z : Char} {members excluded : List Range} {range : Range}

variable {element : Element} {piece : Piece}

variable {glob : List Piece}

end LayeredEnv.Glob
