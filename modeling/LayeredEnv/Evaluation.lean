import LayeredEnv.Operator.Apply
import LayeredEnv.Token.Tree

namespace LayeredEnv

abbrev Lookup (σ : Type) : Type := String → Eval σ Value

namespace Token

def spelling (children : List Token) : String :=
  ",".intercalate ((children.filter fun child => child.kind == .expression).map value)

/-- The value of a reference: of the variable, under the operator with the given spelling. -/
def reference {σ : Type} (table : OperatorTable) (lookup : Lookup σ) (name spelling : String)
    (isLength : Bool) (arguments : Arguments σ) : Eval σ Value :=
  match table.find? spelling with
  | none => throw (.unknownOperator name spelling)
  | some operator => do
    let result ← operator.rule.apply (← lookup name) arguments
    return if isLength then some (toString (result.getD "").length) else result

mutual

/-- The value of a token. Literal text stands for itself, containers for their parts in a row, and
what has no value is unset. -/
def resolve {σ : Type} (table : OperatorTable) (lookup : Lookup σ) : Token → Eval σ Value
  | node kind value isLength children =>
    match kind with
    | .text => pure (some value)
    | .assignment | .expression | .quoted => some <$> concat table lookup children
    | .interpolation =>
      reference table lookup value (spelling children) isLength (arguments table lookup children)
    | .main | .comment | .includeFlag | .preserveFlag => pure none

def concat {σ : Type} (table : OperatorTable) (lookup : Lookup σ) : List Token → Eval σ String
  | [] => pure ""
  | t :: ts => do
    let part := (← resolve table lookup t).getD ""
    return part ++ (← concat table lookup ts)

def arguments {σ : Type} (table : OperatorTable) (lookup : Lookup σ) : List Token → Arguments σ
  | [] => []
  | node kind value isLength children :: ts =>
    if kind == .expression then
      resolve table lookup (node kind value isLength children) :: arguments table lookup ts
    else arguments table lookup ts

end

end Token
end LayeredEnv
