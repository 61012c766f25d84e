import LayeredEnv.Operator.Slice
import LayeredEnv.Operator.Table
import LayeredEnv.Pattern.Replacement

namespace LayeredEnv

/-- A computation that can fail and changes a state, also when it fails. -/
abbrev Eval (σ α : Type) : Type := ExceptT Error (StateM σ) α

namespace Eval

variable {σ α β : Type}

theorem bind_apply (x : Eval σ α) (f : α → Eval σ β) (state : σ) :
    (x >>= f) state =
      match x state with
      | (.ok a, state) => f a state
      | (.error error, state) => (.error error, state) := by
  change (match x state with | (r, state) => ExceptT.bindCont f r state) = _
  rcases x state with ⟨_ | _, _⟩ <;> rfl

end Eval

abbrev Arguments (σ : Type) : Type := List (Eval σ Value)

def Arguments.eval {σ : Type} (arguments : Arguments σ) (index : Nat) : Eval σ Value :=
  (arguments[index]?).getD (pure none)

namespace Value

def isNonEmpty (value : Value) : Bool := value.any (· != "")

def nonEmpty? (value : Value) : Option String := value.filter (· != "")

/-- The offset that a value is read as; without an integer it is 0. -/
def offset (value : Value) : Except Word.Fault Int64 :=
  match value with
  | none => return 0
  | some text => return (← Slice.readInteger text.toList).getD 0

/-- The count that a value is read as, unless it is empty; without an integer it is 0. -/
def count (value : Value) : Except Word.Fault (Option Int64) :=
  match value.nonEmpty? with
  | none => return none
  | some text => return some (← offset (some text))

end Value

namespace Rule

variable {σ : Type}

def slice (value offset count : Value) : Except Word.Fault String := do
  let offset ← offset.offset
  let count ← count.count
  match value with
  | none => return ""
  | some text => return .ofList (← Slice.slice text.toList offset count)

/-- The slice of a value; of a text with more characters than a word counts, which has none, it is
empty. -/
def sliced (value offset count : Value) : Value :=
  some ((slice value offset count).toOption.getD "")

def apply (rule : Rule) (value : Value) (arguments : Arguments σ) : Eval σ Value :=
  match rule with
  | .value => pure value
  | orIfEmpty => if value.isNonEmpty then pure value else arguments.eval 0
  | orIfUnset => if value.isSome then pure value else arguments.eval 0
  | andIfNonEmpty => if value.isNonEmpty then arguments.eval 0 else pure (some "")
  | andIfSet => if value.isSome then arguments.eval 0 else pure (some "")
  | choose => if value.isNonEmpty then arguments.eval 0 else arguments.eval 1
  | sliceFrom => do
    return sliced value (← arguments.eval 0) none
  | sliceCount => do
    let offset ← arguments.eval 0
    return sliced value offset (← arguments.eval 1)
  | strip side extent =>
    match value.nonEmpty? with
    | none => pure (some "")
    | some text => do
      match (← arguments.eval 0).nonEmpty? with
      | none => return some text
      | some pattern => return some (← Glob.strip text pattern side extent)
  | replace all =>
    match value.nonEmpty? with
    | none => pure (some "")
    | some text => do
      match (← arguments.eval 0).nonEmpty? with
      | none => return some text
      | some pattern =>
        let template := (← arguments.eval 1).getD ""
        return some (← Replacement.replace text pattern template all)

end Rule
end LayeredEnv
