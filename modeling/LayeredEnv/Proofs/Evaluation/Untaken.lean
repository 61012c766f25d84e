import LayeredEnv.Evaluation
import LayeredEnv.Proofs.Evaluation.Simulation
import LayeredEnv.Proofs.Tokenizing.Grammar

namespace LayeredEnv

namespace Arguments

variable {σ : Type}

def inOrder (arguments : Arguments σ) : List Nat → Eval σ (List Value)
  | [] => pure []
  | index :: rest => do
    let value ← arguments.eval index
    return value :: (← arguments.inOrder rest)

theorem inOrder_nil_bind (arguments : Arguments σ) {β : Type} (f : List Value → Eval σ β) :
    (arguments.inOrder [] >>= f) = f [] := pure_bind [] f

theorem inOrder_cons_bind (arguments : Arguments σ) (index : Nat) (rest : List Nat) {β : Type}
    (f : List Value → Eval σ β) :
    (arguments.inOrder (index :: rest) >>= f) =
      arguments.eval index >>= fun value => arguments.inOrder rest >>= fun values =>
        f (value :: values) := by
  rw [inOrder, bind_assoc]
  simp only [bind_assoc, pure_bind]

end Arguments

namespace Value

theorem isNonEmpty_eq (value : Value) : value.isNonEmpty = value.nonEmpty?.isSome := by
  cases value with
  | none => rfl
  | some text => cases h : text != "" <;> simp [Value.isNonEmpty, Value.nonEmpty?, h]

end Value

namespace Rule

/-- The arguments that a rule evaluates for a value, by what the first argument comes to. -/
def takes (rule : Rule) (value : Value) (first : Except Error Value) : List Nat :=
  match rule with
  | .value => []
  | orIfEmpty => if value.isNonEmpty then [] else [0]
  | orIfUnset => if value.isSome then [] else [0]
  | andIfNonEmpty => if value.isNonEmpty then [0] else []
  | andIfSet => if value.isSome then [0] else []
  | choose => if value.isNonEmpty then [0] else [1]
  | sliceFrom => [0]
  | sliceCount => [0, 1]
  | strip _ _ => if value.isNonEmpty then [0] else []
  | replace _ =>
    if value.isNonEmpty then if first.toOption.any Value.isNonEmpty then [0, 1] else [0] else []

/-- All that a rule does with its arguments is to evaluate those it takes, in order; it ends with
what it makes of their values. -/
def Orderly (rule : Rule) (value : Value) : Prop :=
  ∃ finish : List Value → Except Error Value, ∀ {σ : Type} (arguments : Arguments σ) (state : σ),
    rule.apply value arguments state =
      (arguments.inOrder (rule.takes value (arguments.eval 0 state).1) >>= fun values =>
        liftM (finish values)) state

variable {rule : Rule} {value : Value}

theorem Orderly.of_none (result : Except Error Value)
    (htakes : ∀ first, rule.takes value first = [])
    (h : ∀ {σ : Type} (arguments : Arguments σ), rule.apply value arguments = liftM result) :
    rule.Orderly value := by
  refine ⟨fun _ => result, fun arguments state => ?_⟩
  rw [htakes, Arguments.inOrder_nil_bind, h]

theorem Orderly.of_one (index : Nat) (finish : Value → Except Error Value)
    (htakes : ∀ first, rule.takes value first = [index])
    (h : ∀ {σ : Type} (arguments : Arguments σ),
      rule.apply value arguments = arguments.eval index >>= fun argument =>
        liftM (finish argument)) :
    rule.Orderly value := by
  refine ⟨fun values => finish (values.headD none), fun arguments state => ?_⟩
  rw [htakes, Arguments.inOrder_cons_bind, h]
  simp only [Arguments.inOrder_nil_bind, List.headD_cons]

/-- The rule gives the value of one of its arguments. -/
theorem Orderly.of_eval (index : Nat) (htakes : ∀ first, rule.takes value first = [index])
    (h : ∀ {σ : Type} (arguments : Arguments σ),
      rule.apply value arguments = arguments.eval index) : rule.Orderly value :=
  .of_one index .ok htakes fun arguments => (h arguments).trans (bind_pure _).symm

theorem orderly (rule : Rule) (value : Value) : rule.Orderly value := by
  cases rule with
  | value => exact .of_none (.ok value) (fun _ => rfl) fun _ => rfl
  | orIfEmpty =>
    cases hv : value.isNonEmpty with
    | true => exact .of_none (.ok value) (fun _ => if_pos hv) fun _ => if_pos hv
    | false =>
      have hn := Bool.eq_false_iff.mp hv
      exact .of_eval 0 (fun _ => if_neg hn) fun _ => if_neg hn
  | orIfUnset =>
    cases hv : value.isSome with
    | true => exact .of_none (.ok value) (fun _ => if_pos hv) fun _ => if_pos hv
    | false =>
      have hn := Bool.eq_false_iff.mp hv
      exact .of_eval 0 (fun _ => if_neg hn) fun _ => if_neg hn
  | andIfNonEmpty =>
    cases hv : value.isNonEmpty with
    | true => exact .of_eval 0 (fun _ => if_pos hv) fun _ => if_pos hv
    | false =>
      have hn := Bool.eq_false_iff.mp hv
      exact .of_none (.ok (some "")) (fun _ => if_neg hn) fun _ => if_neg hn
  | andIfSet =>
    cases hv : value.isSome with
    | true => exact .of_eval 0 (fun _ => if_pos hv) fun _ => if_pos hv
    | false =>
      have hn := Bool.eq_false_iff.mp hv
      exact .of_none (.ok (some "")) (fun _ => if_neg hn) fun _ => if_neg hn
  | choose =>
    cases hv : value.isNonEmpty with
    | true => exact .of_eval 0 (fun _ => if_pos hv) fun _ => if_pos hv
    | false =>
      have hn := Bool.eq_false_iff.mp hv
      exact .of_eval 1 (fun _ => if_neg hn) fun _ => if_neg hn
  | sliceFrom =>
    exact .of_one 0 (fun offset => .ok (sliced value offset none)) (fun _ => rfl) fun _ => rfl
  | sliceCount =>
    refine ⟨fun values => .ok (sliced value (values.headD none) (values.tail.headD none)),
      fun arguments state => ?_⟩
    simp only [apply, takes, Arguments.inOrder_cons_bind, Arguments.inOrder_nil_bind]
    rfl
  | strip side extent =>
    cases hv : value.nonEmpty? with
    | none =>
      have hn : ¬ value.isNonEmpty = true := by simp [Value.isNonEmpty_eq, hv]
      refine .of_none (.ok (some "")) (fun _ => if_neg hn) fun _ => ?_
      rw [apply, hv]
      rfl
    | some text =>
      have hn : value.isNonEmpty = true := by simp [Value.isNonEmpty_eq, hv]
      refine .of_one 0 (fun pattern => pattern.nonEmpty?.elim (.ok (some text)) fun pattern =>
        some <$> Glob.strip text pattern side extent) (fun _ => if_pos hn) fun arguments => ?_
      rw [apply, hv]
      dsimp only
      congr 1
      funext pattern
      cases pattern.nonEmpty? with
      | none => rfl
      | some pattern =>
        dsimp only [Option.elim]
        cases Glob.strip text pattern side extent <;> rfl
  | replace all =>
    cases hv : value.nonEmpty? with
    | none =>
      have hn : ¬ value.isNonEmpty = true := by simp [Value.isNonEmpty_eq, hv]
      refine .of_none (.ok (some "")) (fun _ => if_neg hn) fun _ => ?_
      rw [apply, hv]
      rfl
    | some text =>
      have hn : value.isNonEmpty = true := by simp [Value.isNonEmpty_eq, hv]
      refine ⟨fun values => (values.headD none).nonEmpty?.elim (.ok (some text)) fun pattern =>
        some <$> Replacement.replace text pattern ((values.tail.headD none).getD "") all,
        fun arguments state => ?_⟩
      rw [apply, hv, takes, if_pos hn]
      dsimp only
      rw [Eval.bind_apply]
      -- what the first argument comes to decides whether the second one is evaluated
      rcases hfirst : arguments.eval 0 state with ⟨error | first, after⟩
      · rw [if_neg (by simp [Except.toOption]), Arguments.inOrder_cons_bind, Eval.bind_apply,
          hfirst]
      · have htaken : ((Except.ok first : Except Error Value).toOption.any Value.isNonEmpty) =
            first.nonEmpty?.isSome := Value.isNonEmpty_eq first
        cases hpattern : first.nonEmpty? with
        | none =>
          rw [if_neg (by simp [htaken, hpattern]), Arguments.inOrder_cons_bind, Eval.bind_apply,
            hfirst]
          simp only [Arguments.inOrder_nil_bind, List.headD_cons, hpattern]
          rfl
        | some pattern =>
          rw [if_pos (by simp [htaken, hpattern]), Arguments.inOrder_cons_bind, Eval.bind_apply,
            hfirst]
          simp only [Arguments.inOrder_cons_bind, Arguments.inOrder_nil_bind, List.headD_cons,
            List.tail_cons, hpattern, Option.elim]
          refine congrArg (fun f => (arguments.eval 1 >>= f) after) (funext fun template => ?_)
          cases Replacement.replace text pattern (template.getD "") all <;> rfl

end Rule

/-- Whether an operator leaves the argument at an index aside, when the variable has the value and
the first argument comes to `first`. -/
def Untaken (spelling : String) (value : Value) (first : Except Error Value) (index : Nat) : Prop :=
  spelling ∈ [":-", "||"] ∧ index = 0 ∧ value.isNonEmpty ∨
  spelling ∈ ["-", "??"] ∧ index = 0 ∧ value.isSome ∨
  spelling ∈ [":+", "&&"] ∧ index = 0 ∧ ¬ value.isNonEmpty ∨
  spelling = "+" ∧ index = 0 ∧ ¬ value.isSome ∨
  spelling = "?,:" ∧ index = (if value.isNonEmpty then 1 else 0) ∨
  spelling ∈ ["#", "##", "%", "%%", "/,/", "//,/"] ∧ ¬ value.isNonEmpty ∨
  spelling ∈ ["/,/", "//,/"] ∧ index = 1 ∧ ¬ first.toOption.any Value.isNonEmpty

instance (spelling : String) (value : Value) (first : Except Error Value) (index : Nat) :
    Decidable (Untaken spelling value first index) := by
  unfold Untaken
  infer_instance

/-- The operators tell values apart by whether they are set and by whether they are empty. -/
theorem takes_congr {value other : Value} {first : Except Error Value} {second : Value}
    (hset : value.isSome = other.isSome) (hvalue : value.isNonEmpty = other.isNonEmpty)
    (hfirst : first.toOption.any Value.isNonEmpty = second.isNonEmpty) (rule : Rule) :
    rule.takes value first = rule.takes other (.ok second) := by
  have hsecond : (Except.ok second : Except Error Value).toOption.any Value.isNonEmpty =
      second.isNonEmpty := rfl
  cases rule <;> simp only [Rule.takes, hset, hvalue, hfirst, hsecond]

theorem untaken_congr {value other : Value} {first : Except Error Value} {second : Value}
    (hset : value.isSome = other.isSome) (hvalue : value.isNonEmpty = other.isNonEmpty)
    (hfirst : first.toOption.any Value.isNonEmpty = second.isNonEmpty) (spelling : String)
    (index : Nat) :
    Untaken spelling value first index ↔ Untaken spelling other (.ok second) index := by
  have hsecond : (Except.ok second : Except Error Value).toOption.any Value.isNonEmpty =
      second.isNonEmpty := rfl
  simp only [Untaken, hset, hvalue, hfirst, hsecond]

theorem exists_kind (value : Value) : ∃ other ∈ ([none, some "", some "x"] : List Value),
    value.isSome = other.isSome ∧ value.isNonEmpty = other.isNonEmpty := by
  cases value with
  | none => exact ⟨none, by simp, rfl, rfl⟩
  | some text =>
    by_cases ht : text = ""
    · exact ⟨some "", by simp, by simp, by rw [ht]⟩
    · exact ⟨some "x", by simp, by simp, by simp [Value.isNonEmpty, ht]⟩

/-- The arguments that the operator with a spelling evaluates are those it does not leave aside. -/
theorem takes_eq {spelling : String} {operator : Operator}
    (h : OperatorTable.standard.find? spelling = some operator) (value : Value)
    (first : Except Error Value) :
    operator.rule.takes value first =
      (List.range operator.arity).filter fun index => ¬ Untaken spelling value first index := by
  have hall : ∀ operator ∈ OperatorTable.standard.operators, ∀ spelling ∈ operator.symbols,
      ∀ value ∈ ([none, some "", some "x"] : List Value), ∀ first ∈ ([none, some "x"] : List Value),
        operator.rule.takes value (.ok first) = (List.range operator.arity).filter fun index =>
          ¬ Untaken spelling value (.ok first) index := by
    decide +kernel
  obtain ⟨other, hother, hset, hvalue⟩ := exists_kind value
  have hfirst : ∃ second ∈ ([none, some "x"] : List Value),
      first.toOption.any Value.isNonEmpty = Value.isNonEmpty second := by
    cases first.toOption.any Value.isNonEmpty with
    | true => exact ⟨some "x", by simp, rfl⟩
    | false => exact ⟨none, by simp, rfl⟩
  obtain ⟨second, hsecond, hfirst⟩ := hfirst
  simp only [takes_congr hset hvalue hfirst, untaken_congr hset hvalue hfirst]
  exact hall operator (List.mem_of_find?_eq_some h) spelling
    (List.contains_iff_mem.mp (by simpa using List.find?_some h)) other hother second hsecond

inductive Request where
  | variable (name : String)
  | argument (index : Nat)
  deriving DecidableEq, Repr

def Eval.recorded {σ α ε : Type} (entry : ε) (x : Eval σ α) : Eval (σ × List ε) α :=
  fun (state, record) => ((x state).1, (x state).2, record ++ [entry])

namespace Arguments

variable {σ : Type}

def recorded (arguments : Arguments σ) : Arguments (σ × List Request) :=
  arguments.mapIdx fun index argument => argument.recorded (.argument index)

def started (arguments : Arguments σ) : List Nat → σ → List Nat
  | [], _ => []
  | index :: rest, state =>
    index :: match arguments.eval index state with
      | (.ok _, after) => arguments.started rest after
      | (.error _, _) => []

theorem recorded_eval (arguments : Arguments σ) (index : Nat) (state : σ)
    (record : List Request) :
    arguments.recorded.eval index (state, record) =
      ((arguments.eval index state).1, (arguments.eval index state).2,
        record ++ if index < arguments.length then [.argument index] else []) := by
  unfold recorded eval
  rw [List.getElem?_mapIdx]
  by_cases hi : index < arguments.length
  · rw [List.getElem?_eq_getElem hi, if_pos hi]
    rfl
  · rw [List.getElem?_eq_none (Nat.le_of_not_lt hi), if_neg hi, List.append_nil]
    rfl

/-- Arguments that are not there are not evaluated; of the others each is, once. -/
theorem recorded_inOrder (arguments : Arguments σ) (indices : List Nat) (state : σ)
    (record : List Request) :
    arguments.recorded.inOrder indices (state, record) =
      ((arguments.inOrder indices state).1, (arguments.inOrder indices state).2,
        record ++ (arguments.started (indices.filter (· < arguments.length)) state).map
          .argument) := by
  induction indices generalizing state record with
  | nil =>
    rw [List.filter_nil, started, List.map_nil, List.append_nil]
    rfl
  | cons index rest ih =>
    rw [inOrder, inOrder, Eval.bind_apply, Eval.bind_apply, recorded_eval, List.filter_cons]
    by_cases hi : index < arguments.length
    · rw [if_pos hi, if_pos (decide_eq_true hi), started]
      rcases arguments.eval index state with ⟨error | value, after⟩
      · rfl
      · dsimp only
        rw [Eval.bind_apply, Eval.bind_apply, ih, List.map_cons, List.append_assoc]
        rcases arguments.inOrder rest after with ⟨error | values, last⟩ <;> rfl
    · have hmissing : arguments.eval index state = (.ok none, state) := by
        rw [eval, List.getElem?_eq_none (Nat.le_of_not_lt hi)]
        rfl
      rw [if_neg hi, if_neg (by simpa using hi), hmissing, List.append_nil]
      dsimp only
      rw [Eval.bind_apply, Eval.bind_apply, ih]
      rcases arguments.inOrder rest state with ⟨error | values, last⟩ <;> rfl

end Arguments

/-- A rule asks for the arguments that it takes, as far as they are there and none of them fails,
and its result is the one it has without noting them. -/
theorem Rule.recorded_apply {σ : Type} (rule : Rule) (value : Value) (arguments : Arguments σ)
    (state : σ) (record : List Request) :
    rule.apply value arguments.recorded (state, record) =
      ((rule.apply value arguments state).1, (rule.apply value arguments state).2,
        record ++ (arguments.started ((rule.takes value (arguments.eval 0 state).1).filter
          (· < arguments.length)) state).map .argument) := by
  obtain ⟨finish, h⟩ := rule.orderly value
  rw [h, h, Arguments.recorded_eval, Eval.bind_apply, Eval.bind_apply, Arguments.recorded_inOrder]
  rcases arguments.inOrder (rule.takes value (arguments.eval 0 state).1) state with
    ⟨error | values, after⟩
  · rfl
  · cases hfinish : finish values <;> simp only [hfinish] <;> rfl

namespace Token

variable {σ : Type}

/-- What a reference asks for, in order: its variable, and then the arguments that its operator
does not leave aside, up to the first one that fails. -/
def demands (lookup : Lookup σ) (name spelling : String) (arguments : Arguments σ) (state : σ) :
    List Request :=
  match OperatorTable.standard.find? spelling with
  | none => []
  | some operator =>
    .variable name :: match lookup name state with
      | (.error _, _) => []
      | (.ok value, after) =>
        (arguments.started ((List.range operator.arity).filter fun index =>
          index < arguments.length ∧ ¬ Untaken spelling value (arguments.eval 0 after).1 index)
          after).map .argument

theorem recorded_reference (lookup : Lookup σ) (name spelling : String) (isLength : Bool)
    (arguments : Arguments σ) (state : σ) (record : List Request) :
    reference .standard (fun name => (lookup name).recorded (.variable name)) name spelling isLength
        arguments.recorded (state, record) =
      ((reference .standard lookup name spelling isLength arguments state).1,
        (reference .standard lookup name spelling isLength arguments state).2,
        record ++ demands lookup name spelling arguments state) := by
  unfold reference demands
  cases ho : OperatorTable.standard.find? spelling with
  | none =>
    dsimp only
    rw [List.append_nil]
    rfl
  | some operator =>
    dsimp only
    rw [Eval.bind_apply, Eval.bind_apply, Eval.recorded]
    rcases lookup name state with ⟨error | value, after⟩
    · rfl
    · dsimp only
      have htaken : ((operator.rule.takes value (arguments.eval 0 after).1).filter
          (· < arguments.length)) = (List.range operator.arity).filter fun index =>
            index < arguments.length ∧
              ¬ Untaken spelling value (arguments.eval 0 after).1 index := by
        rw [takes_eq ho, List.filter_filter]
        simp only [Bool.decide_and]
      rw [Eval.bind_apply, Eval.bind_apply, Rule.recorded_apply, htaken, List.append_assoc]
      rcases operator.rule.apply value arguments after with ⟨error | result, last⟩ <;> rfl

end Token

theorem Rule.takes_of_zero_notMem {rule : Rule} {value : Value} {first : Except Error Value}
    (h : 0 ∉ rule.takes value first) (other : Except Error Value) :
    rule.takes value other = rule.takes value first := by
  cases rule with
  | replace all =>
    have hn : ¬ value.isNonEmpty = true := by
      intro hv
      rw [takes, if_pos hv] at h
      split at h <;> simp at h
    rw [takes, takes, if_neg hn, if_neg hn]
  | _ => rfl

namespace Arguments

variable {σ : Type}

theorem eval_of_ne (before after : Arguments σ) (x y : Eval σ Value) {index : Nat}
    (h : index ≠ before.length) :
    eval (before ++ x :: after) index = eval (before ++ y :: after) index := by
  unfold eval
  rw [List.getElem?_append, List.getElem?_append]
  split
  · rfl
  · obtain ⟨k, hk⟩ : ∃ k, index - before.length = k + 1 := ⟨index - before.length - 1, by omega⟩
    rw [hk, List.getElem?_cons_succ, List.getElem?_cons_succ]

theorem inOrder_congr {arguments other : Arguments σ} {indices : List Nat}
    (h : ∀ index ∈ indices, arguments.eval index = other.eval index) :
    arguments.inOrder indices = other.inOrder indices := by
  induction indices with
  | nil => rfl
  | cons index rest ih =>
    rw [inOrder, inOrder, h index (List.mem_cons_self ..),
      ih fun i hi => h i (List.mem_cons_of_mem _ hi)]

end Arguments

/-- A rule does not see what an argument is that it does not take. -/
theorem Rule.apply_eq_of_notMem_takes {σ : Type} {rule : Rule} {value : Value}
    {before after : Arguments σ} {x : Eval σ Value} {state : σ}
    (h : before.length ∉ rule.takes value ((Arguments.eval (before ++ x :: after) 0 state).1))
    (y : Eval σ Value) :
    rule.apply value (before ++ x :: after) state =
      rule.apply value (before ++ y :: after) state := by
  have htakes : rule.takes value (Arguments.eval (before ++ y :: after) 0 state).1 =
      rule.takes value (Arguments.eval (before ++ x :: after) 0 state).1 := by
    by_cases hb : before.length = 0
    · rw [hb] at h
      exact takes_of_zero_notMem h _
    · rw [Arguments.eval_of_ne before after y x (Ne.symm hb)]
  obtain ⟨finish, hfinish⟩ := rule.orderly value
  rw [hfinish, hfinish, htakes, Arguments.inOrder_congr fun index hi =>
    Arguments.eval_of_ne before after x y fun he => h (he ▸ hi)]

namespace Token

variable {σ τ : Type} {lookup : Lookup σ} {possible : σ → Prop} {t u : Token}

def SameOn (possible : τ → Prop) {α : Type} (x y : Eval τ α) : Prop :=
  ∀ ⦃state : τ⦄, possible state → x state = y state ∧ possible (y state).2

theorem SameOn.simulation (possible : τ → Prop) : @Simulation τ τ (SameOn possible) := by
  refine .of_throw (fun a state h => ⟨rfl, h⟩) (fun e state h => ⟨rfl, h⟩) ?_
  intro α β x y f g hx hf state h
  obtain ⟨hxy, hafter⟩ := hx h
  rw [Eval.bind_apply, Eval.bind_apply, hxy]
  rcases hy : y state with ⟨error | a, after⟩
  · rw [hy] at hafter
    exact ⟨rfl, hafter⟩
  · rw [hy] at hafter
    exact hf a hafter

/-- Whenever the reference to `name` with these children is resolved, its operator leaves the
argument at the index aside. -/
def LeavesAside (lookup : Lookup σ) (possible : σ → Prop) (name : String) (children : List Token)
    (index : Nat) : Prop :=
  ∀ state value after, possible state → lookup name state = (.ok value, after) →
    Untaken (spelling children) value ((arguments .standard lookup children).eval 0 after).1 index

/-- The second token is the first one with other children of an argument that the reference which it
belongs to leaves aside. -/
inductive Swapped (lookup : Lookup σ) (possible : σ → Prop) : Token → Token → Prop
  | argument {name symbol : String} {isLength marked : Bool} {children : List Token}
      (before after other : List Token) :
      LeavesAside lookup possible name (before ++ .node .expression symbol marked children :: after)
        (before.filter fun child => child.kind == .expression).length →
      Swapped lookup possible
        (.node .interpolation name isLength
          (before ++ .node .expression symbol marked children :: after))
        (.node .interpolation name isLength
          (before ++ .node .expression symbol marked other :: after))
  | inside {kind : Kind} {value : String} {isLength : Bool} {t u : Token}
      (before after : List Token) : Swapped lookup possible t u →
      Swapped lookup possible (.node kind value isLength (before ++ t :: after))
        (.node kind value isLength (before ++ u :: after))

theorem arguments_append (table : OperatorTable) (lookup : Lookup σ) (ts us : List Token) :
    arguments table lookup (ts ++ us) = arguments table lookup ts ++ arguments table lookup us := by
  induction ts with
  | nil => rfl
  | cons t ts ih =>
    obtain ⟨kind, value, isLength, children⟩ := t
    rw [List.cons_append, arguments, arguments, ih]
    split
    · rfl
    · rfl

theorem arguments_expression (table : OperatorTable) (lookup : Lookup σ) (symbol : String)
    (marked : Bool) (before children after : List Token) :
    arguments table lookup (before ++ .node .expression symbol marked children :: after) =
      arguments table lookup before ++
        resolve table lookup (.node .expression symbol marked children) ::
          arguments table lookup after := by
  rw [arguments_append, arguments, if_pos (beq_self_eq_true _)]

/-- The value of a reference does not depend on an argument that is left aside. -/
theorem reference_eq_of_untaken {name spelling : String} {before after : Arguments σ}
    {x : Eval σ Value} {state : σ}
    (h : ∀ value middle, lookup name state = (.ok value, middle) →
      Untaken spelling value (Arguments.eval (before ++ x :: after) 0 middle).1 before.length)
    (isLength : Bool) (y : Eval σ Value) :
    reference .standard lookup name spelling isLength (before ++ x :: after) state =
      reference .standard lookup name spelling isLength (before ++ y :: after) state := by
  unfold reference
  cases ho : OperatorTable.standard.find? spelling with
  | none => rfl
  | some operator =>
    dsimp only
    rw [Eval.bind_apply, Eval.bind_apply]
    rcases hlookup : lookup name state with ⟨error | value, middle⟩
    · rfl
    · have hnot : before.length ∉ operator.rule.takes value
          (Arguments.eval (before ++ x :: after) 0 middle).1 := by
        rw [takes_eq ho, List.mem_filter]
        rintro ⟨-, hn⟩
        exact of_decide_eq_true hn (h value middle hlookup)
      dsimp only
      rw [Eval.bind_apply, Eval.bind_apply, Rule.apply_eq_of_notMem_takes hnot y]

theorem Swapped.kind_eq (h : Swapped lookup possible t u) : t.kind = u.kind := by
  cases h <;> rfl

theorem Swapped.value_eq (h : Swapped lookup possible t u) : t.value = u.value := by
  cases h <;> rfl

theorem spelling_swap (before after children other : List Token) (symbol : String)
    (marked : Bool) :
    spelling (before ++ .node .expression symbol marked children :: after) =
      spelling (before ++ .node .expression symbol marked other :: after) := by
  simp only [spelling, List.filter_append, List.filter_cons, Token.kind, beq_self_eq_true, if_true,
    List.map_append, List.map_cons, Token.value]

theorem Swapped.sameOn (hpossible : ∀ name state, possible state → possible (lookup name state).2)
    (h : Swapped lookup possible t u) :
    SameOn possible (t.resolve .standard lookup) (u.resolve .standard lookup) := by
  have hR := SameOn.simulation possible
  have hl : ∀ name, SameOn possible (lookup name) (lookup name) := fun name state hs =>
    ⟨rfl, hpossible name state hs⟩
  induction h with
  | @argument name symbol isLength marked children before after other haside =>
    have hother : SameOn possible
        ((node .interpolation name isLength
          (before ++ .node .expression symbol marked other :: after)).resolve .standard lookup)
        ((node .interpolation name isLength
          (before ++ .node .expression symbol marked other :: after)).resolve .standard lookup) :=
      hR.resolve hl _
    intro state hs
    refine ⟨?_, (hother hs).2⟩
    rw [resolve, resolve, ← spelling_swap before after children other, arguments_expression,
      arguments_expression]
    apply reference_eq_of_untaken
    intro value middle hlookup
    have hu := haside state value middle hs hlookup
    rwa [arguments_expression, ← Token.length_arguments .standard lookup] at hu
  | @inside kind value isLength t u before after h ih =>
    have hchildren : List.Forall₂ (Simulation.Alike (SameOn possible) .standard lookup lookup)
        (before ++ t :: after) (before ++ u :: after) :=
      List.rel_append (hR.alike hl before)
        (.cons ⟨h.kind_eq, h.value_eq, ih⟩ (hR.alike hl after))
    exact hR.node hl hchildren kind value isLength

def recording (lookup : Lookup σ) : Lookup (σ × List String) := fun name =>
  (lookup name).recorded name

/-- The second computation does what the first one does, and notes something. -/
def Notes {ε α : Type} (x : Eval σ α) (y : Eval (σ × List ε) α) : Prop :=
  ∀ state record, ∃ entries, y (state, record) = ((x state).1, (x state).2, record ++ entries)

theorem Notes.simulation (σ ε : Type) : @Simulation σ (σ × List ε) Notes := by
  refine .of_throw (fun a state record => ⟨[], by rw [List.append_nil]; rfl⟩)
    (fun e state record => ⟨[], by rw [List.append_nil]; rfl⟩) ?_
  intro α β x y f g hx hf state record
  obtain ⟨entries, hxy⟩ := hx state record
  rw [Eval.bind_apply, Eval.bind_apply, hxy]
  rcases x state with ⟨error | a, after⟩
  · exact ⟨entries, rfl⟩
  · obtain ⟨more, hfg⟩ := hf a after (record ++ entries)
    exact ⟨entries ++ more, by rw [← List.append_assoc]; exact hfg⟩

theorem Notes.recording (lookup : Lookup σ) (name : String) :
    Notes (lookup name) (recording lookup name) := fun _ _ => ⟨[name], rfl⟩

theorem LeavesAside.recording {name : String} {children : List Token} {index : Nat}
    (h : LeavesAside lookup possible name children index) :
    LeavesAside (recording lookup) (fun state => possible state.1) name children index := by
  rintro ⟨state, record⟩ value ⟨after, names⟩ hs hlookup
  have hR := Notes.simulation σ String
  have harguments : List.Forall₂ Notes (arguments .standard lookup children)
      (arguments .standard (Token.recording lookup) children) :=
    Simulation.arguments (hR.alike (Notes.recording lookup) children)
  obtain ⟨entries, hfirst⟩ := hR.eval harguments 0 after names
  have hafter : lookup name state = (.ok value, after) := by
    have he := Prod.ext_iff.mp hlookup
    exact Prod.ext he.1 (Prod.ext_iff.mp he.2).1
  rw [hfirst]
  exact h state value after hs hafter

theorem Swapped.recording (h : Swapped lookup possible t u) :
    Swapped (recording lookup) (fun state => possible state.1) t u := by
  induction h with
  | argument before after other haside => exact .argument before after other haside.recording
  | inside before after _ ih => exact .inside before after ih

/-- Arguments that are left aside do not matter: with other children of one, a token that contains
it anywhere has the same value, and the same lookups are made. `possible` are the states that the
lookup can be in. A reference asks for its variable first, then once for each argument its operator
takes, in order, up to the first that fails; one with an unknown operator is refused before it
asks. -/
theorem resolve_leaves_untaken_aside {σ : Type} (lookup : Lookup σ) (possible : σ → Prop)
    (hpossible : ∀ name state, possible state → possible (lookup name state).2) :
    (∀ t u, Swapped lookup possible t u → ∀ state, possible state →
      t.resolve .standard lookup state = u.resolve .standard lookup state ∧
        ∀ names, t.resolve .standard (recording lookup) (state, names) =
          u.resolve .standard (recording lookup) (state, names)) ∧
    ∀ name isLength children state record,
      reference .standard (fun name => (lookup name).recorded (.variable name)) name
          (spelling children) isLength (arguments .standard lookup children).recorded
          (state, record) =
        let plain := (node .interpolation name isLength children).resolve .standard lookup state
        (plain.1, plain.2, record ++ demands lookup name (spelling children)
          (arguments .standard lookup children) state) := by
  refine ⟨fun t u h state hs => ⟨(h.sameOn hpossible hs).1, fun names => ?_⟩, ?_⟩
  · exact (h.recording.sameOn (fun name state hs => hpossible name state.1 hs) hs).1
  · intro name isLength children state record
    exact recorded_reference ..

def nestedDefaults (inner : List Token) : Token :=
  .node .assignment "A" false [.node .quoted "" false [.node .interpolation "Y" false
    [.node .expression ":-" false [.leaf .text "<",
      .node .interpolation "X" false [.node .expression ":-" false inner], .leaf .text ">"]]]]

def onlyX : Lookup Unit := fun name => pure (if name = "X" then some "x" else none)

theorem nestedDefaults_leaves_unknown_operator_aside :
    Swapped onlyX (fun _ => True)
        (nestedDefaults [.node .interpolation "BAD" false [.node .expression "|" false []]])
        (nestedDefaults []) ∧
      (nestedDefaults [.node .interpolation "BAD" false [.node .expression "|" false []]]).resolve
          .standard (recording onlyX) ((), []) = (.ok (some "<x>"), (), ["Y", "X"]) := by
  have hswapped : Swapped onlyX (fun _ => True)
      (nestedDefaults [.node .interpolation "BAD" false [.node .expression "|" false []]])
      (nestedDefaults []) := by
    refine .inside [] [] <| .inside [] [] <| .inside [] [] <|
      .inside [.leaf .text "<"] [.leaf .text ">"] <| .argument [] [] [] ?_
    rintro ⟨⟩ value ⟨⟩ - hlookup
    cases hlookup
    decide +kernel
  have h := (resolve_leaves_untaken_aside onlyX (fun _ => True) fun _ _ h => h).1 _ _ hswapped ()
    trivial
  exact ⟨hswapped, (h.2 []).trans (by cbv)⟩

end Token
end LayeredEnv
