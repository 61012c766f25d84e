import LayeredEnv.Pattern.Regex.Expr
import Std.Data.HashMap

namespace LayeredEnv.Regex

inductive Direction where
  | forward
  | backward
  deriving DecidableEq, Repr

/-- The size of an automaton that reads a text byte by byte: its states so far, and the bytes of the
lists that they hold. It depends on the order in which parts are laid out, as states are shared. -/
structure Footprint where
  states : Nat := 0
  listed : Nat := 0
  deriving DecidableEq, Repr

/-- Adds states to an automaton; none if there is no room for them. -/
abbrev Layout : Type := Footprint → Option Footprint

namespace Footprint

def limit : Nat := 10485760

def bytes (footprint : Footprint) : Nat := 32 * footprint.states + footprint.listed

def grow (states listed : Nat) : Layout := fun footprint =>
  let grown : Footprint := ⟨footprint.states + states, footprint.listed + listed⟩
  if limit < grown.bytes then none else some grown

def choice : Layout := grow 1 8

def inOrder (parts : List Layout) : Layout := fun footprint =>
  parts.foldlM (fun footprint part => part footprint) footprint

def times (part : Layout) : (count : Nat) → Layout
  | 0, footprint => some footprint
  | count + 1, footprint => (part footprint).bind (times part count)

end Footprint

abbrev ByteRanges : Type := List (Nat × Nat)

namespace ByteRanges

/-- The ranges of the digits to base 64 of the numbers from `low` to `high`, with `count` digits
after the first, which need not be one. -/
def ofDigits : (count : Nat) → (low high : Nat) → List ByteRanges
  | 0, low, high => [[(low, high)]]
  | count + 1, low, high =>
    let ending (low high : Nat) (last : Nat × Nat) : List ByteRanges :=
      if low ≤ high then (ofDigits count low high).map (· ++ [last]) else []
    if low / 64 == high / 64 then ending (low / 64) (high / 64) (low % 64, high % 64)
    else
      let raggedLow := low % 64 != 0
      let raggedHigh := high % 64 != 63
      (if raggedLow then ending (low / 64) (low / 64) (low % 64, 63) else []) ++
        ending (if raggedLow then low / 64 + 1 else low / 64)
          (if raggedHigh then high / 64 - 1 else high / 64) (0, 63) ++
        (if raggedHigh then ending (high / 64) (high / 64) (0, high % 64) else [])

/-- The code points whose encodings have a common length, surrogates left out: the first and the
last one, how many bytes follow the first byte, and the mark of the first byte. -/
def lengths : List (Nat × Nat × Nat × Nat) :=
  [(0, 0x7f, 0, 0), (0x80, 0x7ff, 1, 0xc0), (0x800, 0xd7ff, 2, 0xe0), (0xe000, 0xffff, 2, 0xe0),
    (0x10000, 0x10ffff, 3, 0xf0)]

def mark (lead : Nat) : ByteRanges → ByteRanges
  | [] => []
  | (first, last) :: rest =>
    (first + lead, last + lead) :: rest.map fun range => (range.1 + 0x80, range.2 + 0x80)

def ofSet (chars : CharClass) : List ByteRanges :=
  chars.runs.toList.flatMap fun run =>
    lengths.flatMap fun (first, last, count, lead) =>
      let low := max first run.1
      let high := min last run.2
      if low ≤ high then (ofDigits count low high).map (mark lead) else []

end ByteRanges

/-- An automaton while a set is laid out: its footprint, and in numbered slots the states that
can be shared with the keys that they are found by. -/
structure Sharing where
  footprint : Footprint
  slots : Std.HashMap Nat (List Nat × Nat) := ∅

namespace Sharing

def slot (count : Nat) (key : List Nat) : Nat :=
  let hash : UInt64 := key.foldl (fun hash n => (hash ^^^ n.toUInt64) * 1099511628211)
    14695981039346656037
  hash.toNat % count

/-- The state with a key. It is added, in place of another one in its slot, unless it is there. -/
def state (count : Nat) (key : List Nat) (listed : Nat) (sharing : Sharing) :
    Option (Nat × Sharing) :=
  let slot := slot count key
  let add : Option (Nat × Sharing) :=
    (Footprint.grow 1 listed sharing.footprint).map fun footprint =>
      let number := sharing.footprint.states
      (number, ⟨footprint, sharing.slots.insert slot (key, number)⟩)
  match sharing.slots[slot]? with
  | some (found, number) => if found == key then some (number, sharing) else add
  | none => add

/-- The first of the states that read one of several encodings and go on at `next`, with at most
`depth` bytes left. What begins with the same range is read by one state. -/
def tree (next : Nat) : (depth : Nat) → List ByteRanges → StateT Sharing Option Nat
  | 0, _ => pure next
  | depth + 1, encodings => do
    let groups := encodings.splitBy fun a b => a.head? == b.head?
    let moves ← groups.filterMapM fun group =>
      match group.head? with
      | some ((first, last) :: _) => do
        let place ← tree next depth (group.map List.tail)
        return some [first, last, place]
      | _ => return none
    if moves.isEmpty then return next
    else state 10000 moves.flatten (8 * moves.length)

def chain (next : Nat) (encoding : ByteRanges) : StateT Sharing Option Nat :=
  encoding.foldlM (fun next range => state 1000 [next, range.1, range.2] 0) next

end Sharing

namespace Footprint

def oneOf (direction : Direction) (encodings : List ByteRanges) (footprint : Footprint) :
    Option Footprint :=
  if encodings.all fun encoding => encoding.length ≤ 1 then
    grow 2 (8 * encodings.length) footprint
  else
    match direction with
    | .forward => do
      let reached ← grow 1 0 footprint
      let (_, sharing) ← Sharing.tree footprint.states 4 encodings { footprint := reached }
      return sharing.footprint
    | .backward => do
      let reached ← grow 2 (4 * encodings.length) footprint
      let (_, sharing) ← (encodings.forM fun encoding =>
        discard (Sharing.chain (footprint.states + 1) encoding)) { footprint := reached }
      return sharing.footprint

def wordRuns : List (List UInt8) → List (List (List UInt8))
  | [] => [[]]
  | [] :: words => [] :: wordRuns words
  | word :: words =>
    match wordRuns words with
    | run :: runs => (word :: run) :: runs
    | [] => [[word]]

def sum (parts : List Footprint) : Footprint :=
  parts.foldl (fun total part => ⟨total.states + part.states, total.listed + part.listed⟩) {}

/-- The tree of words of at most `depth` bytes. Between two ends of words, the words that start
with the same byte share its state; where only ends are left there is none. -/
def words : (depth : Nat) → List (List UInt8) → Footprint
  | 0, _ => {}
  | depth + 1, entries =>
    match entries.dropWhile List.isEmpty with
    | [] => {}
    | longer =>
      let runs := wordRuns longer
      let early := if entries.head?.any List.isEmpty then 1 else 0
      let ends := early + (runs.length - 1)
      let moves := runs.filter (!·.isEmpty) |>.map fun run =>
        let bytes := (run.filterMap List.head?).eraseDups
        let branches := bytes.map fun byte =>
          words depth ((run.filter (·.head? == some byte)).map List.tail)
        sum (⟨1, if bytes.length ≤ 1 then 0 else 8 * bytes.length⟩ :: branches)
      sum (⟨1, 4 * (moves.length + ends)⟩ :: moves)

end Footprint

inductive Branch where
  | word (bytes : List UInt8)
  | other (layout : Layout)

namespace Branch

def word? : Branch → Option (List UInt8)
  | word bytes => some bytes
  | other _ => none

def layout : Branch → Layout
  | word bytes => Footprint.grow bytes.length 0
  | other layout => layout

/-- Alternatives, the first one preferred. Words make a tree, read from their ends by an automaton
that reads backward. -/
def join (direction : Direction) : List Branch → Layout
  | [] => some
  | [branch] => branch.layout
  | first :: second :: rest =>
    match (first :: second :: rest).mapM word? with
    | some words =>
      let words := if direction == .forward then words else words.map List.reverse
      let depth := words.foldl (fun depth word => max depth word.length) 0
      let tree := Footprint.words (depth + 1) words
      Footprint.grow (tree.states + 1) tree.listed
    | none =>
      Footprint.inOrder <|
        [first.layout, second.layout, Footprint.grow 2 8] ++
          rest.flatMap fun branch => [branch.layout, Footprint.grow 0 4]

end Branch

namespace Footprint

/-- The states of a repetition. What takes a character at least and may have no turn needs one
choice alone. -/
def repetition (least : Nat) (most : Option Nat) (takesChars : Bool) (body : Layout) : Layout :=
  let node := grow 1 0
  match least, most with
  | 0, some 1 => inOrder [choice, body, node]
  | 0, none => inOrder (if takesChars then [choice, body] else [body, choice, choice, node])
  | least, none => inOrder [times body least, choice]
  | least, some most =>
    let required := if least == 0 then node else times body least
    if most ≤ least then required
    else inOrder [required, node, times (inOrder [choice, body]) (most - least)]

end Footprint

namespace Expr

def layouts (direction : Direction) : Expr → List Branch
  | empty | look _ => [.other (Footprint.grow 1 0)]
  | literal first more => [.word ((first :: more).flatMap String.utf8EncodeChar)]
  | set chars => [.other (Footprint.oneOf direction (ByteRanges.ofSet chars))]
  | group _ _ body =>
    let inner := Branch.join direction (body.layouts direction)
    let mark := Footprint.grow 1 0
    [.other (if direction == .forward then Footprint.inOrder [mark, inner, mark] else inner)]
  | seq a b =>
    let first := Branch.join direction (a.layouts direction)
    let second := Branch.join direction (b.layouts direction)
    [.other (Footprint.inOrder
      (if direction == .forward then [first, second] else [second, first]))]
  | alt a b => a.layouts direction ++ b.layouts direction
  | repetition least most _ body =>
    let inner := Branch.join direction (body.layouts direction)
    [.other (Footprint.repetition least most body.takesChars inner)]

def anchored (direction : Direction) : Expr → Bool
  | look condition =>
    condition == match direction with
      | .forward => .textStart
      | .backward => .textEnd
  | empty | literal .. | set _ => false
  | group _ _ body => body.anchored direction
  | seq a b =>
    match direction with
    | .forward => a.anchored direction || (a.isZeroWidth && b.anchored direction)
    | .backward => b.anchored direction || (b.isZeroWidth && a.anchored direction)
  | alt a b => a.anchored direction && b.anchored direction
  | repetition least _ _ body => 0 < least && body.anchored direction

/-- The automaton of an expression: a loop over what comes before a match unless it is anchored,
the expression, and the state that accepts. -/
def footprint? (direction : Direction) (expr : Expr) : Option Footprint :=
  let node := Footprint.grow 1 0
  let start := if expr.anchored direction then node
    else Footprint.inOrder [Footprint.choice, Footprint.grow 2 8]
  let whole := Branch.join direction ((group 0 none expr).layouts direction)
  Footprint.inOrder [start, whole, node] {}

def fits (expr : Expr) : Bool :=
  (expr.footprint? .forward).isSome && (expr.footprint? .backward).isSome

end Expr
end LayeredEnv.Regex
