import LayeredEnv.Proofs.Assembly.History

namespace LayeredEnv

namespace Token

mutual

def valuesOf (p : Kind → Bool) : Token → List String
  | node kind value _ children =>
    if p kind then value :: valuesOfAll p children else valuesOfAll p children

def valuesOfAll (p : Kind → Bool) : List Token → List String
  | [] => []
  | t :: ts => valuesOf p t ++ valuesOfAll p ts

end

def references (t : Token) : List String := t.valuesOf (· == .interpolation)

def mentions (t : Token) : List String :=
  t.valuesOf fun kind => kind == .assignment || kind == .interpolation

mutual

theorem valuesOf_subset {p q : Kind → Bool} (h : ∀ kind, p kind = true → q kind = true) :
    ∀ t : Token, t.valuesOf p ⊆ t.valuesOf q
  | node kind value isLength children => by
    have hchildren := valuesOfAll_subset h children
    rw [valuesOf, valuesOf]
    by_cases hp : p kind = true
    · rw [if_pos hp, if_pos (h kind hp)]
      exact List.cons_subset_cons value hchildren
    · rw [if_neg hp]
      split
      · exact List.subset_cons_of_subset value hchildren
      · exact hchildren

theorem valuesOfAll_subset {p q : Kind → Bool} (h : ∀ kind, p kind = true → q kind = true) :
    ∀ ts : List Token, valuesOfAll p ts ⊆ valuesOfAll q ts
  | [] => List.Subset.refl _
  | t :: ts => List.append_subset.mpr
      ⟨List.subset_append_of_subset_left _ (valuesOf_subset h t),
        List.subset_append_of_subset_right _ (valuesOfAll_subset h ts)⟩

end

theorem references_subset_mentions (t : Token) : t.references ⊆ t.mentions :=
  valuesOf_subset (fun kind h => by rw [h, Bool.or_true]) t

theorem value_mem_mentions {t : Token} (h : t.kind = .assignment) : t.value ∈ t.mentions := by
  obtain ⟨kind, value, isLength, children⟩ := t
  obtain rfl : kind = .assignment := h
  exact List.mem_cons_self

section Congruence

variable {σ : Type} {table : OperatorTable} {left right : Lookup σ}

def referencesAll (ts : List Token) : List String := valuesOfAll (· == .interpolation) ts

theorem referencesAll_subset (kind : Kind) (value : String) (isLength : Bool)
    (children : List Token) :
    referencesAll children ⊆ (node kind value isLength children).references := by
  rw [references, valuesOf, referencesAll]
  split
  · exact List.subset_cons_of_subset value (List.Subset.refl _)
  · exact List.Subset.refl _

mutual

/-- What a token comes to depends on the variables that it refers to. -/
theorem resolve_congr : ∀ t : Token, (∀ name ∈ t.references, left name = right name) →
    t.resolve table left = t.resolve table right
  | node kind value isLength children, h => by
    have hchildren : ∀ name ∈ referencesAll children, left name = right name :=
      fun name hm => h name (referencesAll_subset kind value isLength children hm)
    unfold resolve
    cases kind with
    | assignment | expression | quoted => rw [concat_congr children hchildren]
    | interpolation =>
      have hname : left value = right value := h value List.mem_cons_self
      rw [arguments_congr children hchildren, reference, reference, hname]
    | text | main | comment | includeFlag | preserveFlag => rfl

theorem concat_congr : ∀ ts : List Token, (∀ name ∈ referencesAll ts, left name = right name) →
    concat table left ts = concat table right ts
  | [], _ => rfl
  | t :: ts, h => by
    obtain ⟨ht, hts⟩ := List.forall_mem_append.mp h
    rw [concat, concat, resolve_congr t ht, concat_congr ts hts]

theorem arguments_congr : ∀ ts : List Token, (∀ name ∈ referencesAll ts, left name = right name) →
    arguments table left ts = arguments table right ts
  | [], _ => rfl
  | t :: ts, h => by
    obtain ⟨ht, hts⟩ := List.forall_mem_append.mp h
    have hhead := resolve_congr t ht
    have htail := arguments_congr ts hts
    obtain ⟨kind, value, isLength, children⟩ := t
    rw [arguments, arguments, hhead, htail]

end

end Congruence

end Token

/-- To relate the values of a token, it is enough to relate those of the variables it refers to. -/
theorem Simulation.resolve_of_references {σ τ : Type} {R : ∀ {α : Type}, Eval σ α → Eval τ α → Prop}
    (hR : Simulation R) {table : OperatorTable} {left : Lookup σ} {right : Lookup τ} {t : Token}
    (h : ∀ name ∈ t.references, R (left name) (right name)) :
    R (t.resolve table left) (t.resolve table right) := by
  -- other variables may just as well be unset
  let left' : Lookup σ := fun name => if name ∈ t.references then left name else pure none
  let right' : Lookup τ := fun name => if name ∈ t.references then right name else pure none
  have hleft : t.resolve table left = t.resolve table left' :=
    Token.resolve_congr t fun name hm => (if_pos hm).symm
  have hright : t.resolve table right = t.resolve table right' :=
    Token.resolve_congr t fun name hm => (if_pos hm).symm
  rw [hleft, hright]
  refine hR.resolve (fun name => ?_) t
  by_cases hm : name ∈ t.references
  · simp only [left', right', if_pos hm]
    exact h name hm
  · simp only [left', right', if_neg hm]
    exact hR.pure none

namespace Assembly

variable {table : OperatorTable} {declarations other : Declarations} {known : Known}
  {environment : Environment} {fresh : String} {token : Token}

/-- Both computations have one result, and neither changes its state. -/
def Mirrors {σ τ : Type} (state : σ) (state' : τ) {α : Type} (x : Eval σ α) (y : Eval τ α) : Prop :=
  ∃ result, x state = (result, state) ∧ y state' = (result, state')

theorem Mirrors.simulation {σ τ : Type} (state : σ) (state' : τ) :
    @Simulation σ τ (Mirrors state state') := by
  refine .of_throw (fun a => ⟨.ok a, rfl, rfl⟩) (fun e => ⟨.error e, rfl, rfl⟩) ?_
  rintro α β x y f g ⟨result, hx, hy⟩ hf
  unfold Mirrors
  rw [Eval.bind_apply, Eval.bind_apply, hx, hy]
  cases result with
  | error error => exact ⟨.error error, rfl, rfl⟩
  | ok a => exact hf a

theorem remembered_apply (known : Known) (name : String) :
    ∃ result, remembered name known = (result, known) ∧
      ∀ other : Known, other.lookup name = known.lookup name →
        remembered name other = (result, other) := by
  unfold remembered
  cases known.lookup name with
  | none => exact ⟨_, rfl, fun other h => by rw [h]⟩
  | some value => exact ⟨_, rfl, fun other h => by rw [h]⟩

/-- `other` declares `fresh` by the token, beside what is declared. Nothing refers to `fresh`. -/
structure Extended (declarations other : Declarations) (fresh : String) (token : Token) : Prop where
  undeclared : declarations.lookup fresh = none
  declared : other.lookup fresh = some token
  same : ∀ name, name ≠ fresh → other.lookup name = declarations.lookup name
  unreferenced : ∀ name token, declarations.lookup name = some token → fresh ∉ token.references
  noncircular : fresh ∉ token.references

/-- What was found of another variable was not found from the new one. -/
theorem Found.extended (he : Extended declarations other fresh token) {name : String}
    {value : Value} (hname : name ≠ fresh) (h : Found table declarations known name value) :
    Found table other (known.filter (·.1 != fresh)) name value := by
  unfold Found at h ⊢
  rw [he.same name hname]
  cases hd : declarations.lookup name with
  | none =>
    rw [hd] at h
    exact h
  | some t =>
    rw [hd] at h
    dsimp only at h ⊢
    have hmirrors : Mirrors known (known.filter (·.1 != fresh))
        (t.resolve table remembered) (t.resolve table remembered) := by
      refine (Mirrors.simulation _ _).resolve_of_references fun n hn => ?_
      have hne : n ≠ fresh := fun heq => he.unreferenced name t hd (heq ▸ hn)
      obtain ⟨result, hresult, hsame⟩ := remembered_apply known n
      exact ⟨result, hresult, hsame _ (by rw [Binding.lookup_filter_ne, if_neg hne])⟩
    obtain ⟨result, hleft, hright⟩ := hmirrors
    rw [h] at hleft
    cases hleft
    exact hright

theorem Grounded.extended (he : Extended declarations other fresh token)
    (h : Grounded table declarations known) :
    Grounded table other (known.filter (·.1 != fresh)) := by
  induction h with
  | nil => exact .nil
  | @cons known name value _ hnone hfound ih =>
    by_cases hname : name = fresh
    · rwa [List.filter_cons_of_neg (by simp [hname])]
    · rw [List.filter_cons_of_pos (by simp [hname])]
      have hfresh : List.lookup name (known.filter (·.1 != fresh)) = none := by
        rw [Binding.lookup_filter_ne, if_neg hname, hnone]
      exact ih.cons hfresh (hfound.extended he hname)

/-- Names that are declared nowhere are unset, which is found at any time. -/
theorem Grounded.exists_covering (h : Grounded table declarations known) (names : List String)
    (hall : ∀ name ∈ names, ∀ token, declarations.lookup name = some token →
      ∃ value, known.lookup name = some value) :
    ∃ all : Known, Grounded table declarations all ∧ known.Le all ∧
      (∀ name ∈ names, ∃ value, all.lookup name = some value) ∧
      ∀ name ∉ names, all.lookup name = known.lookup name := by
  induction names with
  | nil => exact ⟨known, h, fun _ _ h => h, by simp, fun _ _ => rfl⟩
  | cons name names ih =>
    rw [List.forall_mem_cons] at hall
    obtain ⟨all, hg, hle, hnames, hother⟩ := ih hall.2
    cases hn : all.lookup name with
    | some value =>
      refine ⟨all, hg, hle, List.forall_mem_cons.mpr ⟨⟨value, hn⟩, hnames⟩, fun n hm => ?_⟩
      exact hother n fun hm' => hm (List.mem_cons_of_mem _ hm')
    | none =>
      have hnone : declarations.lookup name = none := by
        refine Option.eq_none_iff_forall_ne_some.mpr fun token hd => ?_
        obtain ⟨value, hv⟩ := hall.1 token hd
        rw [hle name value hv] at hn
        cases hn
      have hfound : Found table declarations all name none := by
        unfold Found
        rw [hnone]
      have hlater : all.Le ((name, none) :: all) := fun n v hv => lookup_cons_of_fresh hn hv
      refine ⟨(name, none) :: all, hg.cons hn hfound, fun n v hv => hlater n v (hle n v hv),
        List.forall_mem_cons.mpr ⟨⟨none, ?_⟩, fun n hm => ?_⟩, fun n hm => ?_⟩
      · rw [Binding.lookup_cons_eq_ite, if_pos rfl]
      · obtain ⟨value, hv⟩ := hnames n hm
        exact ⟨value, hlater n value hv⟩
      · rw [List.mem_cons, not_or] at hm
        rw [Binding.lookup_cons_eq_ite, if_neg hm.1, hother n hm.2]

/-- Declarations whose values can be found one after another have an environment. -/
theorem Grounded.exists_assemble (h : Grounded table declarations known)
    (hall : ∀ name token, declarations.lookup name = some token →
      ∃ value, known.lookup name = some value) :
    ∃ environment, assemble table declarations = .ok environment := by
  rw [exists_assemble_iff]
  intro name hm
  obtain ⟨token, hd⟩ := mem_names_iff.mp hm
  obtain ⟨value, hv⟩ := hall name token hd
  have hreplays := h.replays (fun _ _ h => h) declarations name
  have hresolve :=
    hreplays.2 (.empty table declarations) (fun _ _ => rfl) (fun _ _ hs => nomatch hs)
    (fun _ _ _ hs => nomatch hs) value (congrArg Prod.fst (remembered_of_lookup hv))
  exact ⟨value, hresolve.1⟩

/-- The values of the others and that of the new variable solve the longer declarations. -/
theorem holds_extended (he : Extended declarations other fresh token)
    (h : assemble table declarations = .ok environment) {value : String}
    (hv : token.resolve table (environment.lookup : Lookup Unit) = pure (some value))
    (name : String) :
    Holds table other ((environment.insert fresh value).lookup : Lookup Unit) name
      ((environment.insert fresh value).get? name) := by
  have hlookup : ∀ n, n ≠ fresh → ((environment.insert fresh value).lookup : Lookup Unit) n =
      (environment.lookup : Lookup Unit) n := by
    intro n hn
    rw [Environment.lookup, Environment.lookup, Environment.get?_insert, if_neg hn]
  have hresolve : ∀ t : Token, fresh ∉ t.references →
      t.resolve table ((environment.insert fresh value).lookup : Lookup Unit) =
        t.resolve table (environment.lookup : Lookup Unit) := fun t ht =>
    Token.resolve_congr t fun n hn => hlookup n fun heq => ht (heq ▸ hn)
  unfold Holds
  rw [Environment.get?_insert]
  by_cases hname : name = fresh
  · rw [hname, he.declared, if_pos rfl]
    exact (hresolve token he.noncircular).trans hv
  · have hold := holds_of_assemble h name
    rw [Holds] at hold
    rw [he.same name hname, if_neg hname]
    cases hd : declarations.lookup name with
    | none =>
      rw [hd] at hold
      exact hold
    | some t =>
      rw [hd] at hold
      exact (hresolve t (he.unreferenced name t hd)).trans hold

/-- The new variable can be found last. -/
theorem exists_assemble_extended (he : Extended declarations other fresh token)
    (h : assemble table declarations = .ok environment) {value : String}
    (hv : token.resolve table (environment.lookup : Lookup Unit) = pure (some value)) :
    ∃ extended, assemble table other = .ok extended := by
  obtain ⟨known, hg, hget, hall⟩ := exists_grounded_of_assemble h
  have hknown : ∀ name, name ≠ fresh → ∀ t, other.lookup name = some t →
      ∃ v, (known.filter (·.1 != fresh)).lookup name = some v := by
    intro name hname t ht
    obtain ⟨v, hv⟩ := hall name t (he.same name hname ▸ ht)
    exact ⟨v, by rw [Binding.lookup_filter_ne, if_neg hname, hv]⟩
  obtain ⟨all, hgall, hle, hreferences, hothers⟩ :=
    (hg.extended he).exists_covering token.references
    fun name hm => hknown name fun heq => he.noncircular (heq ▸ hm)
  have hfresh : all.lookup fresh = none := by
    rw [hothers fresh he.noncircular, Binding.lookup_filter_ne, if_pos rfl]
  have hagrees : ∀ name v, all.lookup name = some v →
      (environment.insert fresh value).get? name = v :=
    hgall.agrees (holds_extended he h hv)
  have hmirrors : Mirrors all () (token.resolve table remembered)
      (token.resolve table (environment.lookup : Lookup Unit)) := by
    refine (Mirrors.simulation _ _).resolve_of_references fun name hm => ?_
    have hne : name ≠ fresh := fun heq => he.noncircular (heq ▸ hm)
    obtain ⟨v, hlookup⟩ := hreferences name hm
    have hvalue := hagrees name v hlookup
    rw [Environment.get?_insert, if_neg hne] at hvalue
    exact ⟨.ok v, remembered_of_lookup hlookup, by rw [Environment.lookup, hvalue]; rfl⟩
  have hfound : Found table other all fresh (some value) := by
    obtain ⟨result, hleft, hright⟩ := hmirrors
    rw [hv] at hright
    cases hright
    unfold Found
    rw [he.declared]
    exact hleft
  refine (hgall.cons hfresh hfound).exists_assemble fun name t ht => ?_
  rw [Binding.lookup_cons_eq_ite]
  by_cases hname : name = fresh
  · exact ⟨some value, if_pos hname⟩
  · obtain ⟨v, hlookup⟩ := hknown name hname t ht
    exact ⟨v, by rw [if_neg hname, hle name v hlookup]⟩

/-- One more declaration leaves the environment as it is and adds the value that its assignment has
under it; if that fails, so does the longer assembly. -/
theorem assemble_extended_iff (he : Extended declarations other fresh token)
    (h : assemble table declarations = .ok environment) (hk : token.kind = .assignment)
    (extended : Environment) :
    assemble table other = .ok extended ↔ ∃ value,
      token.resolve table (environment.lookup : Lookup Unit) = pure (some value) ∧
        extended = environment.insert fresh value := by
  constructor
  · intro hother
    -- without the new variable these values solve the shorter declarations
    let f : String → Value := fun name => if name = fresh then none else extended.get? name
    have hresolve : ∀ t : Token, fresh ∉ t.references →
        t.resolve table (extended.lookup : Lookup Unit) =
          t.resolve table (fun name => pure (f name) : Lookup Unit) := fun t ht =>
      Token.resolve_congr t fun name hm => by
        have hne : name ≠ fresh := fun heq => ht (heq ▸ hm)
        simp only [f, if_neg hne, Environment.lookup]
    have hholds := holds_of_assemble hother
    have hf : ∀ name,
        Holds table declarations (fun name => pure (f name) : Lookup Unit) name (f name) := by
      intro name
      by_cases hname : name = fresh
      · unfold Holds
        rw [hname, he.undeclared]
        exact if_pos rfl
      · have hold := hholds name
        unfold Holds at hold ⊢
        rw [he.same name hname] at hold
        have hfname : f name = extended.get? name := if_neg hname
        rw [hfname]
        cases hd : declarations.lookup name with
        | none =>
          rw [hd] at hold
          exact hold
        | some t =>
          rw [hd] at hold
          exact (hresolve t (he.unreferenced name t hd)).symm.trans hold
    have hsame := eq_get?_of_holds h hf
    have henvironment : (fun name => pure (f name) : Lookup Unit) = environment.lookup :=
      funext fun name => congrArg pure (hsame name)
    have hnew := hholds fresh
    unfold Holds at hnew
    rw [he.declared] at hnew
    dsimp only at hnew
    rw [hresolve token he.noncircular, henvironment] at hnew
    obtain ⟨value, hvalue⟩ := Token.isSome_of_resolve_assignment hk () hnew
    refine ⟨value, hvalue ▸ hnew, Environment.eq_of_get?_eq fun name => ?_⟩
    rw [Environment.get?_insert, ← hsame]
    by_cases hname : name = fresh
    · rw [if_pos hname, hname, hvalue]
    · rw [if_neg hname]
      exact (if_neg hname).symm
  · rintro ⟨value, hv, rfl⟩
    -- the values of the others are found in the same order, and the new one after them
    obtain ⟨extended, hother⟩ := exists_assemble_extended he h hv
    have hsame := eq_get?_of_holds hother (holds_extended he h hv)
    rw [hother, Environment.eq_of_get?_eq hsame]

end Assembly
end LayeredEnv
