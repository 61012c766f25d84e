import LayeredEnv.Error
import LayeredEnv.Pattern.Glob
import LayeredEnv.Text.Class

namespace LayeredEnv

inductive Rule where
  | value
  /-- The value, or the argument if the value is empty or unset. -/
  | orIfEmpty
  /-- The value, or the argument if the value is unset. -/
  | orIfUnset
  /-- The argument if the value is not empty. -/
  | andIfNonEmpty
  /-- The argument if the value is set. -/
  | andIfSet
  /-- The first argument if the value is not empty, else the second one. -/
  | choose
  | sliceFrom
  | sliceCount
  | strip (side : Side) (extent : Extent)
  | replace (all : Bool)
  deriving DecidableEq, Repr

structure Operator where
  symbols : List String
  rule : Rule := .value
  deriving DecidableEq, Repr

def segments (spelling : String) : List String :=
  (Text.splitOn ',' spelling.toList).map .ofList

namespace Operator

/-- The number of arguments: one for each symbol of the first spelling. -/
def arity (operator : Operator) : Nat :=
  match operator.symbols with
  | [] => 0
  | spelling :: _ => if spelling == "" then 0 else (segments spelling).length

end Operator

/-- The first element that equals an earlier one or one in `seen`. -/
def firstRepeat : (seen : List String) → List String → Option String
  | _, [] => none
  | seen, s :: rest => if s ∈ seen then some s else firstRepeat (s :: seen) rest

theorem firstRepeat_eq_none_iff {seen : List String} {l : List String} :
    firstRepeat seen l = none ↔ l.Nodup ∧ ∀ s ∈ l, s ∉ seen := by
  induction l generalizing seen with
  | nil => simp [firstRepeat]
  | cons s rest ih =>
    rw [firstRepeat]
    split
    · simp_all
    · simp only [ih, List.mem_cons, not_or, List.nodup_cons, forall_eq_or_imp]
      constructor
      · rintro ⟨hr, h⟩
        exact ⟨⟨fun hs => (h s hs).1 rfl, hr⟩, by assumption, fun t ht => (h t ht).2⟩
      · rintro ⟨⟨hs, hr⟩, _, h⟩
        exact ⟨hr, fun t ht => ⟨fun he => hs (he ▸ ht), h t ht⟩⟩

def spellings (operators : List Operator) : List String := operators.flatMap (·.symbols)

/-- Operators of which no two, and none twice, have the same spelling. -/
structure OperatorTable where
  operators : List Operator
  nodup : (spellings operators).Nodup

namespace OperatorTable

def ofOperators (operators : List Operator) : Except Error OperatorTable :=
  match h : firstRepeat [] (spellings operators) with
  | some spelling => .error (.duplicateOperator spelling)
  | none => .ok ⟨operators, (firstRepeat_eq_none_iff.mp h).1⟩

def find? (table : OperatorTable) (spelling : String) : Option Operator :=
  table.operators.find? (·.symbols.contains spelling)

/-- Whether the symbols of some spelling start with `prior` and then `next`. -/
def continues (table : OperatorTable) (prior : List String) (next : String) : Bool :=
  (spellings table.operators).any fun spelling =>
    (prior ++ [next]).isPrefixOf (segments spelling)

/-- The symbol that a reference with the symbols `prior` takes at an operator character and perhaps
a second one: of both and the first alone, the longest that continues `prior` to a spelling. Without
one, both if they are the first, to be refused on evaluation. -/
def pick (table : OperatorTable) (prior : List String) (first : Char) (second : Option Char) :
    Option (List Char) :=
  let both := first :: second.toList
  match [both, [first]].find? fun symbol => table.continues prior (.ofList symbol) with
  | some symbol => some symbol
  | none => if prior.isEmpty then some both else none

theorem pick_cases {table : OperatorTable} {prior : List String} {first : Char}
    {second : Option Char} {symbol : List Char} (h : table.pick prior first second = some symbol) :
    symbol = [first] ∨ ∃ c, second = some c ∧ symbol = [first, c] := by
  have hboth : first :: second.toList = [first] ∨
      ∃ c, second = some c ∧ first :: second.toList = [first, c] := by
    cases second with
    | none => exact Or.inl rfl
    | some c => exact Or.inr ⟨c, rfl, rfl⟩
  simp only [pick] at h
  split at h
  · next found hf =>
    have hm := List.mem_of_find?_eq_some hf
    cases h
    rcases List.mem_cons.mp hm with rfl | hm
    · exact hboth
    · exact Or.inl (List.mem_singleton.mp hm)
  · split at h
    · cases h
      exact hboth
    · cases h

/-- A symbol of one character is also taken where no operator character follows it. -/
theorem pick_alone {table : OperatorTable} {prior : List String} {first : Char}
    {second : Option Char} (h : table.pick prior first second = some [first]) :
    table.pick prior first none = some [first] := by
  cases second with
  | none => exact h
  | some c =>
    have hc : table.continues prior (.ofList [first]) = true := by
      simp only [pick, Option.toList_some, List.find?_cons, List.find?_nil] at h
      cases hb : table.continues prior (.ofList [first, c]) <;>
        cases ha : table.continues prior (.ofList [first]) <;> simp_all
    simp only [pick, Option.toList_none, List.find?_cons, hc]

def standard : OperatorTable where
  operators :=
    [⟨[""], .value⟩,
     ⟨[":-", "||"], .orIfEmpty⟩,
     ⟨["-", "??"], .orIfUnset⟩,
     ⟨[":+", "&&"], .andIfNonEmpty⟩,
     ⟨["+"], .andIfSet⟩,
     ⟨["?,:"], .choose⟩,
     ⟨[":"], .sliceFrom⟩,
     ⟨[":,:"], .sliceCount⟩,
     ⟨["#"], .strip .front .shortest⟩,
     ⟨["##"], .strip .front .longest⟩,
     ⟨["%"], .strip .back .shortest⟩,
     ⟨["%%"], .strip .back .longest⟩,
     ⟨["/,/"], .replace false⟩,
     ⟨["//,/"], .replace true⟩]
  nodup := by decide

end OperatorTable
end LayeredEnv
