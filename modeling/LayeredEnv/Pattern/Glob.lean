import LayeredEnv.Text.Class
import LayeredEnv.Error

namespace LayeredEnv

inductive Side where
  | front
  | back
  deriving DecidableEq, Repr

inductive Extent where
  | shortest
  | longest
  deriving DecidableEq, Repr

namespace Glob

structure Range where
  low : Char
  high : Char
  deriving DecidableEq, Repr

def Range.contains (range : Range) (c : Char) : Bool := range.low ≤ c && c ≤ range.high

/-- A bracket expression: the characters in `members` and not in `excluded`, or with `negated`
all others. -/
structure Bracket where
  negated : Bool
  members : List Range
  excluded : List Range
  deriving DecidableEq, Repr

def Bracket.contains (bracket : Bracket) (c : Char) : Bool :=
  (bracket.members.any (·.contains c) && !bracket.excluded.any (·.contains c)) != bracket.negated

inductive Piece where
  | anySequence
  | anyChar
  | literal (c : Char)
  | oneOf (bracket : Bracket)
  deriving DecidableEq, Repr

/-- An item of a bracket expression: a hyphen between two other items is an operator. -/
inductive Mark where
  | dash
  | member (c : Char)
  deriving DecidableEq, Repr

def Mark.char : Mark → Char
  | dash => '-'
  | member c => c

def innerMarks : List Char → List Mark
  | [] => []
  | [c] => [.member c]
  | c :: d :: cs => (if c == '-' then .dash else .member c) :: innerMarks (d :: cs)

def marks : List Char → List Mark
  | [] => []
  | c :: cs => .member c :: innerMarks cs

/-- Reads items as ranges and single members; a reversed range is refused. The first list has
what stands before the first pair of hyphens, the second one what stands after it: each such pair
excludes what follows it. -/
def readRanges : List Mark → Option (List Range × List Range)
  | [] => some ([], [])
  | .dash :: .dash :: rest =>
    (readRanges rest).map fun (members, excluded) => ([], members ++ excluded)
  | .member low :: .dash :: .member high :: rest =>
    if low ≤ high then
      (readRanges rest).map fun (members, excluded) => (⟨low, high⟩ :: members, excluded)
    else none
  | mark :: rest =>
    (readRanges rest).map fun (members, excluded) => (⟨mark.char, mark.char⟩ :: members, excluded)

/-- The items and the rest of a bracket expression whose `[` and negation were read; a `]`
directly after them is an item. -/
def closeBracket : List Char → Option (List Char × List Char)
  | ']' :: cs => (Text.splitAtFirst ']' cs).map fun (items, rest) => (']' :: items, rest)
  | cs => Text.splitAtFirst ']' cs

def splitBracket : List Char → Option (Bool × List Char × List Char)
  | '!' :: cs => (closeBracket cs).map (true, ·)
  | '^' :: cs => (closeBracket cs).map (true, ·)
  | cs => (closeBracket cs).map (false, ·)

theorem length_of_closeBracket {cs items rest : List Char}
    (h : closeBracket cs = some (items, rest)) : rest.length < cs.length := by
  unfold closeBracket at h
  split at h
  · simp only [Option.map_eq_some_iff, Prod.mk.injEq, Prod.exists] at h
    obtain ⟨_, _, h, -, rfl⟩ := h
    simp [Text.eq_of_splitAtFirst h]
    omega
  · simp [Text.eq_of_splitAtFirst h]
    omega

theorem length_of_splitBracket {cs items rest : List Char} {negated : Bool}
    (h : splitBracket cs = some (negated, items, rest)) : rest.length < cs.length := by
  unfold splitBracket at h
  split at h
  all_goals
    obtain ⟨⟨_, _⟩, h, hr⟩ := Option.map_eq_some_iff.mp h
    have := length_of_closeBracket h
    simp only [Prod.mk.injEq] at hr
    simp only [List.length_cons, ← hr.2.2]
    omega

/-- Reads a glob; `none` if a range of a bracket expression is reversed. A backslash makes the
next character literal, and a bracket that is never closed stands for itself. -/
def parse : List Char → Option (List Piece)
  | [] => some []
  | '*' :: cs => (parse cs).map (.anySequence :: ·)
  | '?' :: cs => (parse cs).map (.anyChar :: ·)
  | '\\' :: c :: cs => (parse cs).map (.literal c :: ·)
  | '[' :: cs =>
    match h : splitBracket cs with
    | some (negated, items, rest) =>
      have := length_of_splitBracket h
      (readRanges (marks items)).bind fun (members, excluded) =>
        (parse rest).map (.oneOf ⟨negated, members, excluded⟩ :: ·)
    | none => (parse cs).map (.literal '[' :: ·)
  | c :: cs => (parse cs).map (.literal c :: ·)
termination_by cs => cs.length

def Piece.matchesChar : Piece → Char → Bool
  | anySequence, _ => false
  | anyChar, _ => true
  | literal d, c => c == d
  | oneOf bracket, c => bracket.contains c

def suffixes : List Char → List (List Char)
  | [] => [[]]
  | c :: cs => (c :: cs) :: suffixes cs

/-- What can be left of one of the texts after a piece matched its front. The texts are ends of
one text, longest first, and so are the results. -/
def Piece.rests : Piece → List (List Char) → List (List Char)
  | anySequence, [] => []
  | anySequence, longest :: _ => suffixes longest
  | piece, texts => texts.filterMap fun
    | c :: cs => if piece.matchesChar c then some cs else none
    | [] => none

/-- What can be left of `text` after the glob matched its front, longest first. -/
def rests (glob : List Piece) (text : List Char) : List (List Char) :=
  glob.foldl (fun texts piece => piece.rests texts) [text]

def isMatch (glob : List Piece) (text : List Char) : Bool := (rests glob text).contains []

def stripFront (glob : List Piece) (extent : Extent) (text : List Char) : List Char :=
  (match extent with
  | .shortest => (rests glob text).head?
  | .longest => (rests glob text).getLast?).getD text

/-- The text without an end that the glob matches; the back is the front of the reversed text,
matched by the reversed glob. -/
def stripPieces (glob : List Piece) (side : Side) (extent : Extent) (text : List Char) :
    List Char :=
  match side with
  | .front => stripFront glob extent text
  | .back => (stripFront glob.reverse extent text.reverse).reverse

def strip (value pattern : String) (side : Side) (extent : Extent) : Except Error String :=
  match parse pattern.toList with
  | some glob => .ok (.ofList (stripPieces glob side extent value.toList))
  | none => .error (.invalidPattern pattern)

end Glob
end LayeredEnv
