namespace LayeredEnv.Unicode

/-- Sorted, disjoint runs of code points, both ends included, of which none touches the next. The
ends of a run are characters; surrogates in between do not count. -/
structure RangeTable where
  runs : Array (Nat × Nat)
  deriving DecidableEq, Repr

/-- The numbers written in the pieces of a text. A digit is an ASCII digit or letter; digits below
31 end a number, larger ones carry 31 less and are followed by the next more significant digit. -/
def decodeNumbers (text : List String) : List Nat :=
  let digit (c : Char) : Nat :=
    if c.isDigit then c.toNat - 48 else if c.isUpper then c.toNat - 55 else c.toNat - 61
  let step : List Nat × Nat × Nat → Char → List Nat × Nat × Nat
    | (numbers, value, weight), c =>
      let d := digit c
      if d < 31 then ((value + d * weight) :: numbers, 0, 1)
      else (numbers, value + (d - 31) * weight, weight * 31)
  ((text.flatMap String.toList).foldl step ([], 0, 1)).1.reverse

def lastCode : Nat := 0x10ffff

def nextCode (n : Nat) : Nat := if n == 0xd7ff then 0xe000 else n + 1

def previousCode (n : Nat) : Nat := if n == 0xe000 then 0xd7ff else n - 1

namespace RangeTable

def empty : RangeTable := ⟨#[]⟩

/-- The runs whose gaps and lengths, less one, are written in turn from code point 0 on. -/
def ofGaps : (start : Nat) → List Nat → List (Nat × Nat)
  | start, gap :: length :: rest =>
    (start + gap, start + gap + length) :: ofGaps (start + gap + length + 1) rest
  | _, _ => []

def ofText (text : List String) : RangeTable := ⟨(ofGaps 0 (decodeNumbers text)).toArray⟩

def range (low high : Char) : RangeTable := ⟨#[(low.toNat, high.toNat)]⟩

def single (c : Char) : RangeTable := range c c

def single? (table : RangeTable) : Option Char :=
  match table.runs.toList with
  | [(first, last)] => if first == last then some (.ofNat first) else none
  | _ => none

/-- Looks for a run that holds `n` among the runs from `low` up to `high`, excluded. -/
def search (runs : Array (Nat × Nat)) (n low high : Nat) : Bool :=
  if low < high then
    let middle := (low + high) / 2
    match runs[middle]? with
    | none => false
    | some (first, last) =>
      if n < first then search runs n low middle
      else if last < n then search runs n (middle + 1) high
      else true
  else false
termination_by high - low

def containsCode (table : RangeTable) (n : Nat) : Bool := search table.runs n 0 table.runs.size

def contains (table : RangeTable) (c : Char) : Bool := table.containsCode c.toNat

def mergeRuns : List (Nat × Nat) → List (Nat × Nat) → List (Nat × Nat)
  | [], bs => bs
  | as, [] => as
  | a :: as, b :: bs =>
    if a.1 ≤ b.1 then a :: mergeRuns as (b :: bs) else b :: mergeRuns (a :: as) bs

def joinRuns : List (Nat × Nat) → List (Nat × Nat)
  | (a, b) :: (c, d) :: rest =>
    if c ≤ b + 1 then joinRuns ((a, max b d) :: rest) else (a, b) :: joinRuns ((c, d) :: rest)
  | runs => runs
termination_by runs => runs.length

def union (a b : RangeTable) : RangeTable :=
  ⟨(joinRuns (mergeRuns a.runs.toList b.runs.toList)).toArray⟩

def unions (tables : List RangeTable) : RangeTable := tables.foldr union empty

def meetRuns : List (Nat × Nat) → List (Nat × Nat) → List (Nat × Nat)
  | (a, b) :: as, (c, d) :: cs =>
    let rest := if b < d then meetRuns as ((c, d) :: cs) else meetRuns ((a, b) :: as) cs
    if max a c ≤ min b d then (max a c, min b d) :: rest else rest
  | _, _ => []
termination_by as cs => as.length + cs.length

def intersection (a b : RangeTable) : RangeTable :=
  ⟨(meetRuns a.runs.toList b.runs.toList).toArray⟩

def subtractRuns : List (Nat × Nat) → List (Nat × Nat) → List (Nat × Nat)
  | [], _ => []
  | runs, [] => runs
  | (a, b) :: as, (c, d) :: cs =>
    if b < c then (a, b) :: subtractRuns as ((c, d) :: cs)
    else if d < a then subtractRuns ((a, b) :: as) cs
    else
      let rest := if d < b then subtractRuns ((nextCode d, b) :: as) cs
        else subtractRuns as ((c, d) :: cs)
      if a < c then (a, previousCode c) :: rest else rest
termination_by as cs => as.length + cs.length

def difference (a b : RangeTable) : RangeTable :=
  ⟨(subtractRuns a.runs.toList b.runs.toList).toArray⟩

def symmetricDifference (a b : RangeTable) : RangeTable :=
  (a.union b).difference (a.intersection b)

/-- The gaps after a run that ends at `last`. A gap is the range between its ends: where only
surrogates part two runs it is that of the characters on both sides. -/
def gapsAfter : (last : Nat) → List (Nat × Nat) → List (Nat × Nat)
  | last, [] => if last < lastCode then [(nextCode last, lastCode)] else []
  | last, (a, b) :: rest =>
    (min (nextCode last) (previousCode a), max (nextCode last) (previousCode a)) ::
      gapsAfter b rest

def complement (table : RangeTable) : RangeTable :=
  match table.runs.toList with
  | [] => ⟨#[(0, lastCode)]⟩
  | (a, b) :: rest =>
    let gaps := gapsAfter b rest
    ⟨(if 0 < a then (0, previousCode a) :: gaps else gaps).toArray⟩

end RangeTable

def lookupRuns (tables : List (List String × List String)) (name : String) : Option RangeTable :=
  (tables.find? (fun entry => entry.1.contains name)).map (fun entry => .ofText entry.2)

end LayeredEnv.Unicode
