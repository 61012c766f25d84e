import LayeredEnv.Evaluation
import Mathlib.Data.List.Forall2

namespace LayeredEnv

/-- A relation between computations over two states that `pure`, sequencing and the failure at a
pattern keep. -/
structure Sequencing {σ τ : Type} (R : ∀ {α : Type}, Eval σ α → Eval τ α → Prop) : Prop where
  pure {α : Type} (a : α) : R (pure a) (pure a)
  bind {α β : Type} {x : Eval σ α} {y : Eval τ α} {f : α → Eval σ β} {g : α → Eval τ β} :
    R x y → (∀ a, R (f a) (g a)) → R (x >>= f) (y >>= g)
  invalid {α : Type} (pattern : String) :
    R (throw (.invalidPattern pattern) : Eval σ α) (throw (.invalidPattern pattern))

/-- A relation that all failures of the evaluation itself keep too. -/
structure Simulation {σ τ : Type} (R : ∀ {α : Type}, Eval σ α → Eval τ α → Prop) : Prop
    extends Sequencing R where
  unknown {α : Type} (name spelling : String) :
    R (throw (.unknownOperator name spelling) : Eval σ α) (throw (.unknownOperator name spelling))

namespace Sequencing

variable {σ τ : Type} {R : ∀ {α : Type}, Eval σ α → Eval τ α → Prop}

theorem map (hR : Sequencing R) {α β : Type} (f : α → β) {x : Eval σ α} {y : Eval τ α}
    (h : R x y) : R (f <$> x) (f <$> y) := by
  rw [← bind_pure_comp, ← bind_pure_comp]
  exact hR.bind h fun a => hR.pure (f a)

theorem eval (hR : Sequencing R) {xs : Arguments σ} {ys : Arguments τ}
    (h : List.Forall₂ R xs ys) (index : Nat) : R (xs.eval index) (ys.eval index) := by
  induction h generalizing index with
  | nil => exact hR.pure none
  | cons hx _ ih =>
    cases index with
    | zero => exact hx
    | succ index => exact ih index

theorem strip (hR : Sequencing R) (text pattern : String) (side : Side) (extent : Extent) :
    R (liftM (Glob.strip text pattern side extent) : Eval σ String)
      (liftM (Glob.strip text pattern side extent)) := by
  unfold Glob.strip
  split
  · exact hR.pure _
  · exact hR.invalid pattern

theorem replace (hR : Sequencing R) (text pattern template : String) (all : Bool) :
    R (liftM (Replacement.replace text pattern template all) : Eval σ String)
      (liftM (Replacement.replace text pattern template all)) := by
  unfold Replacement.replace
  split
  · exact hR.invalid pattern
  · exact hR.pure _

theorem apply (hR : Sequencing R) {xs : Arguments σ} {ys : Arguments τ}
    (h : List.Forall₂ R xs ys) (rule : Rule) (value : Value) :
    R (rule.apply value xs) (rule.apply value ys) := by
  cases rule with
  | value => exact hR.pure value
  | orIfEmpty =>
    simp only [Rule.apply]
    split
    · exact hR.pure value
    · exact hR.eval h 0
  | orIfUnset =>
    simp only [Rule.apply]
    split
    · exact hR.pure value
    · exact hR.eval h 0
  | andIfNonEmpty =>
    simp only [Rule.apply]
    split
    · exact hR.eval h 0
    · exact hR.pure _
  | andIfSet =>
    simp only [Rule.apply]
    split
    · exact hR.eval h 0
    · exact hR.pure _
  | choose =>
    simp only [Rule.apply]
    split
    · exact hR.eval h 0
    · exact hR.eval h 1
  | sliceFrom => exact hR.bind (hR.eval h 0) fun _ => hR.pure _
  | sliceCount =>
    exact hR.bind (hR.eval h 0) fun _ => hR.bind (hR.eval h 1) fun _ => hR.pure _
  | strip side extent =>
    simp only [Rule.apply]
    split
    · exact hR.pure _
    · apply hR.bind (hR.eval h 0)
      intro pattern
      split
      · exact hR.pure _
      · exact hR.bind (hR.strip ..) fun _ => hR.pure _
  | replace all =>
    simp only [Rule.apply]
    split
    · exact hR.pure _
    · apply hR.bind (hR.eval h 0)
      intro pattern
      split
      · exact hR.pure _
      · exact hR.bind (hR.eval h 1) fun _ => hR.bind (hR.replace ..) fun _ => hR.pure _

end Sequencing

namespace Simulation

variable {σ τ : Type} {R : ∀ {α : Type}, Eval σ α → Eval τ α → Prop}

/-- A relation that every failure keeps. -/
theorem of_throw (hpure : ∀ {α : Type} (a : α), R (pure a) (pure a))
    (hthrow : ∀ {α : Type} (error : Error), R (throw error : Eval σ α) (throw error))
    (hbind : ∀ {α β : Type} {x : Eval σ α} {y : Eval τ α} {f : α → Eval σ β} {g : α → Eval τ β},
      R x y → (∀ a, R (f a) (g a)) → R (x >>= f) (y >>= g)) : Simulation R where
  pure := hpure
  bind := hbind
  invalid _ := hthrow _
  unknown _ _ := hthrow _

variable {table : OperatorTable} {left : Lookup σ} {right : Lookup τ}

theorem reference (hR : Simulation R) (hl : ∀ name, R (left name) (right name))
    {xs : Arguments σ} {ys : Arguments τ} (h : List.Forall₂ R xs ys) (name spelling : String)
    (isLength : Bool) :
    R (Token.reference table left name spelling isLength xs)
      (Token.reference table right name spelling isLength ys) := by
  unfold Token.reference
  split
  · exact hR.unknown name spelling
  · exact hR.bind (hl name) fun value => hR.bind (hR.apply h _ value) fun _ => hR.pure _

def Alike (R : ∀ {α : Type}, Eval σ α → Eval τ α → Prop) (table : OperatorTable)
    (left : Lookup σ) (right : Lookup τ) (t u : Token) : Prop :=
  t.kind = u.kind ∧ t.value = u.value ∧ R (t.resolve table left) (u.resolve table right)

section Children

variable {ts us : List Token}

theorem spelling_eq (h : List.Forall₂ (Alike R table left right) ts us) :
    Token.spelling ts = Token.spelling us := by
  unfold Token.spelling
  congr 1
  induction h with
  | nil => rfl
  | cons ht _ ih =>
    obtain ⟨hkind, hvalue, -⟩ := ht
    rw [List.filter_cons, List.filter_cons, hkind]
    split
    · rw [List.map_cons, List.map_cons, hvalue, ih]
    · exact ih

theorem concat (hR : Simulation R) (h : List.Forall₂ (Alike R table left right) ts us) :
    R (Token.concat table left ts) (Token.concat table right us) := by
  induction h with
  | nil => exact hR.pure _
  | cons ht _ ih => exact hR.bind ht.2.2 fun _ => hR.bind ih fun _ => hR.pure _

theorem arguments (h : List.Forall₂ (Alike R table left right) ts us) :
    List.Forall₂ R (Token.arguments table left ts) (Token.arguments table right us) := by
  induction h with
  | nil => exact .nil
  | @cons t u ts us ht _ ih =>
    obtain ⟨kind, value, isLength, children⟩ := t
    obtain ⟨kind', value', isLength', children'⟩ := u
    obtain ⟨hkind, -, hr⟩ := ht
    cases show kind = kind' from hkind
    unfold Token.arguments
    split
    · exact .cons hr ih
    · exact ih

/-- Tokens that differ below themselves only are related if their children are. -/
theorem node (hR : Simulation R) (hl : ∀ name, R (left name) (right name))
    (h : List.Forall₂ (Alike R table left right) ts us) (kind : Kind) (value : String)
    (isLength : Bool) :
    R ((Token.node kind value isLength ts).resolve table left)
      ((Token.node kind value isLength us).resolve table right) := by
  unfold Token.resolve
  cases kind with
  | text => exact hR.pure _
  | assignment | expression | quoted => exact hR.map some (hR.concat h)
  | interpolation =>
    dsimp only
    rw [spelling_eq h]
    exact hR.reference hl (arguments h) value _ isLength
  | main | comment | includeFlag | preserveFlag => exact hR.pure _

end Children

mutual

theorem resolve (hR : Simulation R) (hl : ∀ name, R (left name) (right name)) :
    ∀ t : Token, R (t.resolve table left) (t.resolve table right)
  | .node kind value isLength children => hR.node hl (alike hR hl children) kind value isLength

theorem alike (hR : Simulation R) (hl : ∀ name, R (left name) (right name)) :
    ∀ ts : List Token, List.Forall₂ (Alike R table left right) ts ts
  | [] => .nil
  | t :: ts => .cons ⟨rfl, rfl, resolve hR hl t⟩ (alike hR hl ts)

end

end Simulation
end LayeredEnv
