import LayeredEnv.Environment
import LayeredEnv.Evaluation
import LayeredEnv.VariableCache

namespace LayeredEnv

abbrev Declarations : Type := List (String × Token)

namespace Declarations

def put (name : String) (token : Token) : Declarations → Declarations
  | [] => [(name, token)]
  | (n, t) :: rest => if n == name then (n, token) :: rest else (n, t) :: put name token rest

/-- The declarations among top-level tokens, in the order of the first assignment of each name;
of several assignments of a name the last one counts. -/
def ofTokens (tokens : List Token) : Declarations :=
  tokens.foldl (fun declarations token =>
    if token.kind == .assignment then put token.value token declarations else declarations) []

def names (declarations : Declarations) : List String := declarations.map (·.1)

def without (declarations : Declarations) (name : String) : Declarations :=
  declarations.filter (·.1 != name)

theorem length_without_lt {declarations : Declarations} {name : String} {token : Token}
    (h : declarations.lookup name = some token) :
    (declarations.without name).length < declarations.length := by
  induction declarations with
  | nil => simp at h
  | cons declaration rest ih =>
    obtain ⟨n, t⟩ := declaration
    by_cases hn : n = name
    · have := List.length_filter_le (·.1 != name) rest
      simp only [without, List.filter_cons, hn, bne_self_eq_false, Bool.false_eq_true, if_false,
        List.length_cons]
      omega
    · have hn' : (name == n) = false := beq_false_of_ne (Ne.symm hn)
      rw [List.lookup_cons, hn'] at h
      have := ih h
      simp only [without, List.filter_cons, bne_iff_ne, ne_eq, hn, not_false_eq_true, if_true,
        List.length_cons] at this ⊢
      omega

theorem lookup_without (declarations : Declarations) (name other : String) :
    (declarations.without name).lookup other =
      if other = name then none else declarations.lookup other :=
  Binding.lookup_filter_ne name other declarations

theorem lookup_put (name other : String) (token : Token) (declarations : Declarations) :
    (put name token declarations).lookup other =
      if other = name then some token else declarations.lookup other := by
  induction declarations with
  | nil => rw [put, Binding.lookup_cons_eq_ite]
  | cons declaration rest ih =>
    obtain ⟨n, t⟩ := declaration
    rw [put]
    by_cases hn : n = name
    · rw [if_pos (by simp [hn]), Binding.lookup_cons_eq_ite, Binding.lookup_cons_eq_ite, hn]
      split <;> rfl
    · rw [if_neg (by simp [hn]), Binding.lookup_cons_eq_ite, Binding.lookup_cons_eq_ite, ih]
      by_cases ho : other = n
      · rw [if_pos ho, if_neg (ho ▸ hn), if_pos ho]
      · simp only [if_neg ho]

theorem lookup_foldl_put (tokens : List Token) (declarations : Declarations) (name : String) :
    (tokens.foldl (fun declarations token =>
      if token.kind == .assignment then put token.value token declarations else declarations)
      declarations).lookup name =
      ((tokens.filter fun token => token.kind == .assignment && token.value == name).getLast?).or
        (declarations.lookup name) := by
  induction tokens generalizing declarations with
  | nil => rfl
  | cons token rest ih =>
    rw [List.foldl_cons, ih]
    by_cases hk : token.kind = .assignment
    · by_cases hn : token.value = name
      · rw [if_pos (by simp [hk]), lookup_put, if_pos hn.symm,
          List.filter_cons_of_pos (by simp [hk, hn])]
        cases rest.filter fun token => token.kind == .assignment && token.value == name with
        | nil => rfl
        | cons t ts => simp [List.getLast?_cons]
      · rw [if_pos (by simp [hk]), lookup_put, if_neg (Ne.symm hn),
          List.filter_cons_of_neg (by simp [hn])]
    · rw [if_neg (by simp [hk]), List.filter_cons_of_neg (by simp [hk])]

/-- The declaration of a name is its last assignment. -/
theorem lookup_ofTokens (tokens : List Token) (name : String) :
    (ofTokens tokens).lookup name =
      (tokens.filter fun token => token.kind == .assignment && token.value == name).getLast? := by
  rw [ofTokens, lookup_foldl_put, List.lookup_nil, Option.or_none]

end Declarations

namespace VariableCache

def request (name : String) : Eval VariableCache Claim := fun cache =>
  match cache.claim name with
  | .ok (claim, cache) => (.ok claim, cache)
  | .error error => (.error error, cache)

/-- Runs a computation whose claim was started, and records its value or takes the claim back. -/
def settle (name : String) (compute : Eval VariableCache Value) : Eval VariableCache Value :=
  fun cache =>
    match compute cache with
    | (.ok value, cache) => (.ok value, cache.finish name value)
    | (.error error, cache) => (.error error, cache.abandon name)

end VariableCache

namespace Assembly

/-- The value of a variable, taken from the cache or computed and remembered. A name without a
declaration is unset. A declaration is not available to its own computation: whoever asks for its
name there is refused by the cache before. -/
def resolve (table : OperatorTable) (available : Declarations) (name : String) :
    Eval VariableCache Value := do
  match ← VariableCache.request name with
  | .cached value => return value
  | .started =>
    VariableCache.settle name <|
      match _h : available.lookup name with
      | none => pure none
      | some token => token.resolve table fun other => resolve table (available.without name) other
termination_by available.length
decreasing_by exact Declarations.length_without_lt _h

def compute (table : OperatorTable) (available : Declarations) (name : String) :
    Eval VariableCache Value :=
  match available.lookup name with
  | none => pure none
  | some token => token.resolve table (resolve table (available.without name))

theorem resolve_apply (table : OperatorTable) (available : Declarations) (name : String)
    (cache : VariableCache) :
    resolve table available name cache =
      match cache.slot? name with
      | some (.resolved value) => (.ok value, cache)
      | some .inProgress => (.error (.cyclicReference (cache.cycle name)), cache)
      | none =>
        VariableCache.settle name (compute table available name) (cache.start name) := by
  rw [resolve, Eval.bind_apply, VariableCache.request, VariableCache.claim]
  cases cache.slot? name with
  | none =>
    unfold compute
    dsimp only
    cases available.lookup name <;> rfl
  | some slot => cases slot <;> rfl

def resolveAll (table : OperatorTable) (declarations : Declarations) :
    List String → Eval VariableCache Unit
  | [] => pure ()
  | name :: names => do
    let _ ← resolve table declarations name
    resolveAll table declarations names

def assemble (table : OperatorTable) (declarations : Declarations) (cache : VariableCache := {}) :
    Except Error Environment :=
  match resolveAll table declarations declarations.names cache with
  | (.ok (), cache) => .ok (.ofList cache.bindings)
  | (.error error, _) => .error error

end Assembly

def TokenTree.declarations (tree : TokenTree) : Declarations := .ofTokens tree.topTokens

end LayeredEnv
