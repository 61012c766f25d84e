import LayeredEnv.Proofs.Assembly.History
import Mathlib

namespace LayeredEnv

namespace Token

def noting (values : String → Except Error Value) : Lookup (List String) := fun name asked =>
  (values name, asked ++ [name])

/-- The names that the evaluation of a token asks for, in order. It ends at a name that has no
value. -/
def requests (table : OperatorTable) (values : String → Except Error Value) (token : Token) :
    List String :=
  (token.resolve table (noting values) []).2

end Token

namespace Assembly

variable {table : OperatorTable} {declarations available : Declarations}

/-- The evaluation of the assignment of `name` asks for `other`, with the values given. -/
def Asks (table : OperatorTable) (declarations : Declarations)
    (values : String → Except Error Value) (name other : String) : Prop :=
  ∃ token, declarations.lookup name = some token ∧ other ∈ token.requests table values

def answer (table : OperatorTable) (declarations : Declarations) (name : String) :
    Except Error Value :=
  (resolve table declarations name {}).1

def cacheAfter (table : OperatorTable) (declarations : Declarations) (names : List String) :
    VariableCache :=
  names.foldl (fun cache name => (resolve table declarations name cache).2) {}

/-- The value of a variable, with all declarations at hand in every computation. Requests are nested
`depth` deep; what is asked for beyond that is left to `beyond`. -/
def resolveWithin (table : OperatorTable) (declarations : Declarations)
    (beyond : Lookup VariableCache) : (depth : Nat) → Lookup VariableCache
  | 0, name => beyond name
  | depth + 1, name => do
    match ← VariableCache.request name with
    | .cached value => return value
    | .started =>
      VariableCache.settle name <|
        match declarations.lookup name with
        | none => pure none
        | some token => token.resolve table (resolveWithin table declarations beyond depth)

theorem Idle.cacheAfter (table : OperatorTable) (declarations : Declarations)
    (names : List String) : Idle table declarations (cacheAfter table declarations names) := by
  suffices h : ∀ cache, Idle table declarations cache → Idle table declarations
      (names.foldl (fun cache name => (Assembly.resolve table declarations name cache).2) cache)
    from h {} (.empty table declarations)
  induction names with
  | nil => exact fun cache h => h
  | cons name names ih => exact fun cache h => ih _ (h.resolve name).2

/-- The computations do the same with caches that leave what is declared available. -/
def Same (table : OperatorTable) (declarations available : Declarations) {α : Type}
    (x y : Eval VariableCache α) : Prop :=
  ∀ ⦃cache : VariableCache⦄, Valid table declarations cache → Covers available declarations cache →
    x cache = y cache ∧ Valid table declarations (y cache).2 ∧ Extends cache (y cache).2

theorem Same.simulation (table : OperatorTable) (declarations available : Declarations) :
    @Simulation VariableCache VariableCache (Same table declarations available) := by
  refine .of_throw (fun a cache hv _ => ⟨rfl, hv, .refl cache⟩)
    (fun e cache hv _ => ⟨rfl, hv, .refl cache⟩) ?_
  intro α β x y f g hx hf cache hv hc
  obtain ⟨hxy, hv', he⟩ := hx hv hc
  rw [Eval.bind_apply, Eval.bind_apply, hxy]
  rcases hy : y cache with ⟨error | a, middle⟩
  · rw [hy] at hv' he
    exact ⟨rfl, hv', he⟩
  · rw [hy] at hv' he
    obtain ⟨hfg, hv'', he'⟩ := hf a hv' (hc.of_extends he)
    exact ⟨hfg, hv'', he.trans he'⟩

/-- What is in progress is never computed again, so that requests are nested no deeper than there
are declarations left. -/
theorem resolveWithin_same {beyond : Lookup VariableCache} {depth : Nat}
    (h : available.length < depth) (name : String) :
    Same table declarations available (resolveWithin table declarations beyond depth name)
      (resolve table available name) := by
  induction depth generalizing available name with
  | zero => exact absurd h (Nat.not_lt_zero _)
  | succ depth ih =>
    intro cache hv hc
    refine ⟨?_, hv.resolve hc name⟩
    rw [resolve_apply, resolveWithin, Eval.bind_apply, VariableCache.request, VariableCache.claim]
    cases hslot : cache.slot? name with
    | some slot => cases slot <;> rfl
    | none =>
      dsimp only
      have hd : available.lookup name = declarations.lookup name := hc name (by simp [hslot])
      unfold compute VariableCache.settle
      rw [hd]
      cases ht : declarations.lookup name with
      | none => rfl
      | some token =>
        rw [← hd] at ht
        have hlt := Declarations.length_without_lt ht
        have hs : Same table declarations (available.without name)
            (token.resolve table (resolveWithin table declarations beyond depth))
            (token.resolve table (resolve table (available.without name))) :=
          (Same.simulation table declarations _).resolve (fun other => ih (by omega) other) token
        dsimp only
        rw [(hs (hv.start hslot) (hc.start name)).1]

/-- A variable that has a value has it by itself. -/
theorem answer_of_resolve {cache : VariableCache} (hv : Valid table declarations cache)
    (hc : Covers available declarations cache) {name : String} {value : Value}
    (h : (resolve table available name cache).1 = .ok value) :
    answer table declarations name = .ok value := by
  obtain ⟨known, hs⟩ := hv
  obtain ⟨found, hs', -, hy⟩ := resolve_tracks table declarations available name hs hc
  have hr := hs'.grounded.replays (fun _ _ h => h) declarations name
  have hvalue := hy value h found fun _ _ h => h
  exact (hr.2 (.empty table declarations) (fun _ _ => rfl) nofun nofun value
    (congrArg Prod.fst hvalue)).1

/-- What is in progress waits: every name is declared and has asked for the next one. -/
structure Waiting (table : OperatorTable) (declarations : Declarations) (cache : VariableCache) :
    Prop where
  pending : ∀ name, cache.slot? name = some .inProgress → name ∈ cache.pending
  nodup : cache.pending.Nodup
  declared : ∀ name ∈ cache.pending, ∃ token, declarations.lookup name = some token
  chain : cache.pending.IsChain (Asks table declarations (answer table declarations))

def Cycle (table : OperatorTable) (declarations : Declarations) (chain : List String) : Prop :=
  ∃ name names, chain = name :: names ++ [name] ∧ (name :: names).Nodup ∧
    (∀ n ∈ name :: names, ∃ token, declarations.lookup n = some token) ∧
    chain.IsChain (Asks table declarations (answer table declarations))

theorem Waiting.of_extends {before after : VariableCache} (h : Waiting table declarations before)
    (he : Extends before after) : Waiting table declarations after where
  pending name hn := by
    rw [he.pending]
    exact h.pending name ((he.inProgress name).mpr hn)
  nodup := by
    rw [he.pending]
    exact h.nodup
  declared := by
    rw [he.pending]
    exact h.declared
  chain := by
    rw [he.pending]
    exact h.chain

theorem Waiting.start {cache : VariableCache} (h : Waiting table declarations cache)
    (hv : Valid table declarations cache) {name : String} {token : Token}
    (hn : cache.slot? name = none) (ht : declarations.lookup name = some token)
    (hl : ∀ last ∈ cache.pending.getLast?,
      Asks table declarations (answer table declarations) last name) :
    Waiting table declarations (cache.start name) where
  pending other ho := by
    rw [VariableCache.slot?_start] at ho
    rw [VariableCache.pending_start, List.mem_append, List.mem_singleton]
    split at ho
    · next he => exact Or.inr he
    · exact Or.inl (h.pending other ho)
  nodup := by
    obtain ⟨known, hs⟩ := hv
    rw [VariableCache.pending_start]
    refine List.nodup_append.mpr ⟨h.nodup, List.nodup_singleton name, fun other ho _ he => ?_⟩
    rw [List.mem_singleton.mp he]
    rintro rfl
    exact hs.not_pending hn ho
  declared other ho := by
    rw [VariableCache.pending_start, List.mem_append, List.mem_singleton] at ho
    rcases ho with ho | rfl
    · exact h.declared other ho
    · exact ⟨token, ht⟩
  chain := by
    rw [VariableCache.pending_start]
    refine List.isChain_append.mpr ⟨h.chain, List.isChain_singleton name, fun last hm next he => ?_⟩
    cases he
    exact hl last hm

/-- A name in progress that the last one asks for closes a cycle. -/
theorem Waiting.cycle {cache : VariableCache} (h : Waiting table declarations cache)
    {name : String} (hn : cache.slot? name = some .inProgress)
    (hl : ∀ last ∈ cache.pending.getLast?,
      Asks table declarations (answer table declarations) last name) :
    Cycle table declarations (cache.cycle name) := by
  obtain ⟨before, after, hp⟩ := List.append_of_mem (h.pending name hn)
  have hbefore : name ∉ before := by
    intro hm
    have hnodup := h.nodup
    rw [hp, List.nodup_append] at hnodup
    exact hnodup.2.2 name hm name List.mem_cons_self rfl
  have hsub : (name :: after) <:+ cache.pending := ⟨before, hp.symm⟩
  rw [VariableCache.cycle_eq hp hbefore]
  refine ⟨name, after, rfl, h.nodup.sublist hsub.sublist,
    fun n hm => h.declared n (hsub.subset hm), ?_⟩
  refine List.isChain_append.mpr ⟨h.chain.suffix hsub, List.isChain_singleton name,
    fun last hm next he => ?_⟩
  cases he
  apply hl last
  rw [hp, List.getLast?_append_of_ne_nil _ (List.cons_ne_nil _ _)]
  exact hm

theorem Idle.pending_eq_nil {cache : VariableCache} (h : Idle table declarations cache) :
    cache.pending = [] := h.ahead.pending.symm

/-- Where no request is being answered, nothing waits. -/
theorem Idle.waiting {cache : VariableCache} (h : Idle table declarations cache) :
    Waiting table declarations cache where
  pending name hn := absurd ((h.ahead.inProgress name).mpr hn) nofun
  nodup := by
    rw [h.pending_eq_nil]
    exact List.nodup_nil
  declared := by
    rw [h.pending_eq_nil]
    exact nofun
  chain := by
    rw [h.pending_eq_nil]
    exact List.isChain_nil

/-- `x` computes for `caller` what `y` evaluates; `y` only adds to the names that it notes. Where
these are what `caller` asks for, a cycle that `x` reports is one. -/
def Follows (table : OperatorTable) (declarations available : Declarations) (caller : String)
    {α : Type} (x : Eval VariableCache α) (y : Eval (List String) α) : Prop :=
  (∀ asked, asked ⊆ (y asked).2) ∧
  ∀ ⦃cache : VariableCache⦄ ⦃asked : List String⦄, Valid table declarations cache →
    Covers available declarations cache → Waiting table declarations cache →
    cache.pending.getLast? = some caller →
    (∀ name ∈ (y asked).2, Asks table declarations (answer table declarations) caller name) →
    (∀ a, (x cache).1 = .ok a → (y asked).1 = .ok a) ∧
    (∀ chain, (x cache).1 = .error (.cyclicReference chain) → Cycle table declarations chain) ∧
    Valid table declarations (x cache).2 ∧ Extends cache (x cache).2

theorem Follows.simulation (table : OperatorTable) (declarations available : Declarations)
    (caller : String) :
    @Simulation VariableCache (List String) (Follows table declarations available caller) := by
  have hfail : ∀ {α : Type} {error : Error}, (∀ chain, error ≠ .cyclicReference chain) →
      Follows table declarations available caller (throw error : Eval VariableCache α)
        (throw error) := by
    intro α error he
    refine ⟨fun asked => List.Subset.refl asked, fun cache asked hv _ _ _ _ => ?_⟩
    refine ⟨nofun, fun chain hx => ?_, hv, .refl cache⟩
    cases hx
    exact absurd rfl (he chain)
  refine ⟨⟨?_, ?_, fun _ => hfail nofun⟩, fun _ _ => hfail nofun⟩
  · intro α a
    exact ⟨fun asked => List.Subset.refl asked, fun cache asked hv _ _ _ _ =>
      ⟨fun b hb => by cases hb; rfl, nofun, hv, .refl cache⟩⟩
  · intro α β x y f g ⟨hgrow, hx⟩ hf
    have hstep : ∀ asked, (y asked).2 ⊆ ((y >>= g) asked).2 := by
      intro asked
      rw [Eval.bind_apply]
      rcases y asked with ⟨error | a, noted⟩
      · exact List.Subset.refl noted
      · exact (hf a).1 noted
    refine ⟨fun asked => List.Subset.trans (hgrow asked) (hstep asked), ?_⟩
    intro cache asked hv hc hw hp hasks
    obtain ⟨hvalue, hcycle, hv', he⟩ := hx hv hc hw hp fun n hn => hasks n (hstep asked hn)
    rw [Eval.bind_apply] at hasks
    rw [Eval.bind_apply, Eval.bind_apply]
    rcases hr : x cache with ⟨error | a, middle⟩
    · rw [hr] at hcycle hv' he
      refine ⟨nofun, fun chain hx => hcycle chain ?_, hv', he⟩
      cases hx
      rfl
    · rw [hr] at hvalue hv' he
      have hya := hvalue a rfl
      rcases hy : y asked with ⟨error | b, noted⟩
      · rw [hy] at hya
        cases hya
      · rw [hy] at hya hasks
        cases hya
        have hp' : middle.pending.getLast? = some caller := he.pending ▸ hp
        obtain ⟨hvalue', hcycle', hv'', he'⟩ :=
          (hf a).2 hv' (hc.of_extends he) (hw.of_extends he) hp' hasks
        exact ⟨hvalue', hcycle', hv'', he.trans he'⟩

/-- A cycle that is reported, in answer to what the last name in progress asks for, is one. -/
theorem resolve_cycle {cache : VariableCache} {name : String} {chain : List String}
    (hv : Valid table declarations cache) (hc : Covers available declarations cache)
    (hw : Waiting table declarations cache)
    (hl : ∀ last ∈ cache.pending.getLast?,
      Asks table declarations (answer table declarations) last name)
    (h : (resolve table available name cache).1 = .error (.cyclicReference chain)) :
    Cycle table declarations chain := by
  induction hlen : available.length using Nat.strong_induction_on
    generalizing available name cache chain with
  | _ length ih =>
  rw [resolve_apply] at h
  cases hslot : cache.slot? name with
  | some slot =>
    rw [hslot] at h
    cases slot with
    | resolved value => cases h
    | inProgress =>
      cases h
      exact hw.cycle hslot hl
  | none =>
    rw [hslot] at h
    have hd : available.lookup name = declarations.lookup name := hc name (by simp [hslot])
    unfold compute VariableCache.settle at h
    cases ht : available.lookup name with
    | none =>
      rw [ht] at h
      cases h
    | some token =>
      rw [ht] at h
      have hlt := Declarations.length_without_lt ht
      -- a name that the token's evaluation asks for is resolved with one declaration less
      have hlookup : ∀ other, Follows table declarations (available.without name) name
          (resolve table (available.without name) other)
          (Token.noting (answer table declarations) other) := by
        intro other
        refine ⟨fun asked => List.subset_append_left asked [other], ?_⟩
        intro cache asked hv hc hw hp hasks
        obtain ⟨hv', he⟩ := hv.resolve hc other
        refine ⟨fun a ha => answer_of_resolve hv hc ha, fun chain hx => ?_, hv', he⟩
        refine ih _ (hlen ▸ hlt) hv hc hw (fun last hm => ?_) hx rfl
        rw [hp] at hm
        cases hm
        exact hasks other (List.mem_append_right asked List.mem_cons_self)
      have hfollows : Follows table declarations (available.without name) name
          (token.resolve table (resolve table (available.without name)))
          (token.resolve table (Token.noting (answer table declarations))) :=
        (Follows.simulation table declarations _ name).resolve hlookup token
      rw [hd] at ht
      have hasks : ∀ other ∈ token.requests table (answer table declarations),
          Asks table declarations (answer table declarations) name other :=
        fun other ho => ⟨token, ht, ho⟩
      obtain ⟨-, hcycle, -, -⟩ := hfollows.2 (hv.start hslot) (hc.start name)
        (hw.start hv hslot ht hl) (by simp) hasks
      apply hcycle chain
      rcases hr : token.resolve table (resolve table (available.without name))
          (cache.start name) with ⟨error | value, computed⟩
      · simp only [hr] at h
        exact h
      · simp only [hr] at h
        cases h

/-- What `x` finds in the known values, `y` evaluates, and it asks for nothing else. -/
def Needs (known : Known) {α : Type} (x : Eval Known α) (y : Eval (List String) α) : Prop :=
  (x known).2 = known ∧ ∀ a, (x known).1 = .ok a → ∀ asked, (y asked).1 = .ok a ∧
    ∀ name ∈ (y asked).2, name ∈ asked ∨ ∃ value, known.lookup name = some value

theorem Needs.simulation (known : Known) : @Simulation Known (List String) (Needs known) := by
  refine .of_throw ?_ ?_ ?_
  · intro α a
    refine ⟨rfl, fun b hb asked => ?_⟩
    cases hb
    exact ⟨rfl, fun name hn => Or.inl hn⟩
  · intro α error
    exact ⟨rfl, nofun⟩
  · intro α β x y f g ⟨hsame, hx⟩ hf
    unfold Needs
    rw [Eval.bind_apply]
    rcases hr : x known with ⟨error | a, after⟩
    · rw [hr] at hsame
      exact ⟨hsame, nofun⟩
    · rw [hr] at hsame hx
      obtain rfl : after = known := hsame
      obtain ⟨hsame', hf'⟩ := hf a
      refine ⟨hsame', fun b hb asked => ?_⟩
      obtain ⟨hya, hasked⟩ := hx a rfl asked
      rw [Eval.bind_apply]
      rcases hy : y asked with ⟨error | a', noted⟩
      · rw [hy] at hya
        cases hya
      · rw [hy] at hya hasked
        cases hya
        obtain ⟨hgb, hnoted⟩ := hf' b hb noted
        refine ⟨hgb, fun name hn => ?_⟩
        rcases hnoted name hn with hn | hn
        · exact hasked name hn
        · exact Or.inr hn

/-- A value that follows from known values asks for no others. -/
theorem Found.lookup_of_asks {values : String → Except Error Value} {known : Known} {name : String}
    {value : Value} (h : Found table declarations known name value)
    (hk : ∀ name value, known.lookup name = some value → values name = .ok value) {other : String}
    (ha : Asks table declarations values name other) : ∃ v, known.lookup other = some v := by
  obtain ⟨token, ht, ho⟩ := ha
  unfold Found at h
  rw [ht] at h
  have hlookup : ∀ n, Needs known (remembered n) (Token.noting values n) := by
    intro n
    unfold Needs remembered
    cases hn : known.lookup n with
    | none => exact ⟨rfl, nofun⟩
    | some v =>
      refine ⟨rfl, fun a hv asked => ?_⟩
      cases hv
      refine ⟨hk n v hn, fun m hm => ?_⟩
      rcases List.mem_append.mp hm with hm | hm
      · exact Or.inl hm
      · rw [List.mem_singleton.mp hm]
        exact Or.inr ⟨v, hn⟩
  have hneeds : Needs known (token.resolve table remembered)
      (token.resolve table (Token.noting values)) := (Needs.simulation known).resolve hlookup token
  rcases (hneeds.2 value (congrArg Prod.fst h) []).2 other ho with hm | hm
  · cases hm
  · exact hm

/-- Among grounded values, what asks for what goes back to the values found first. -/
theorem Grounded.acc {values : String → Except Error Value} {known : Known}
    (h : Grounded table declarations known)
    (hk : ∀ name value, known.lookup name = some value → values name = .ok value) :
    ∀ name value, known.lookup name = some value →
      Acc (Function.swap (Asks table declarations values)) name := by
  induction h with
  | nil => exact fun name value hn => by cases hn
  | @cons known m w _ hfresh hfound ih =>
    have hk' : ∀ name value, known.lookup name = some value → values name = .ok value :=
      fun name value hn => hk name value (lookup_cons_of_fresh hfresh hn)
    have hm : Acc (Function.swap (Asks table declarations values)) m := by
      refine Acc.intro m fun other ho => ?_
      obtain ⟨v, hv⟩ := hfound.lookup_of_asks hk' ho
      exact ih hk' other v hv
    intro name value hn
    rw [Binding.lookup_cons_eq_ite] at hn
    split at hn
    · next he => exact he ▸ hm
    · exact ih hk' name value hn

/-- Under an assembled environment no variable asks for itself, not even by way of others. -/
theorem not_transGen_asks {environment : Environment}
    (h : assemble table declarations = .ok environment) (name : String) :
    ¬Relation.TransGen (Asks table declarations fun n => .ok (environment.get? n)) name name := by
  obtain ⟨known, hg, hget, hall⟩ := exists_grounded_of_assemble h
  intro hname
  obtain ⟨_, ⟨token, ht, -⟩, -⟩ := Relation.TransGen.head'_iff.mp hname
  obtain ⟨value, hv⟩ := hall name token ht
  have hacc := hg.acc (fun n v hn => congrArg Except.ok (get?_of_known hget hn)) name value hv
  have hloop := Relation.transGen_swap.mpr hname
  clear ht hv hname
  induction hacc.transGen with
  | intro n _ ih => exact ih n hloop hacc hloop

end Assembly

namespace TokenTree

/-- A name comes again at the end and none else twice; each has an assignment, whose evaluation asks
for the next one. The names that it asks for before have the values that they have by themselves. -/
def IsCycle (tree : TokenTree) (table : OperatorTable) (chain : List String) : Prop :=
  ∃ name names, chain = name :: names ++ [name] ∧ (name :: names).Nodup ∧
    (∀ n ∈ name :: names, tree.Declares n) ∧
    chain.IsChain
      (Assembly.Asks table tree.declarations (Assembly.answer table tree.declarations))

/-- Resolving a variable ends: if every computation has all declarations at hand, requests are
still nested no deeper than there are declarations and one, so that nothing is ever asked of
`beyond`. A cycle that is reported is one of requests that were made. In an assembled environment no
variable asks for itself. -/
theorem resolve_ends_and_reports_cycles (table : OperatorTable) (tree : TokenTree) :
    (∀ earlier name beyond depth, tree.declarations.length < depth →
      Assembly.resolveWithin table tree.declarations beyond depth name
          (Assembly.cacheAfter table tree.declarations earlier) =
        Assembly.resolve table tree.declarations name
          (Assembly.cacheAfter table tree.declarations earlier)) ∧
    (∀ earlier name chain,
      (Assembly.resolve table tree.declarations name
        (Assembly.cacheAfter table tree.declarations earlier)).1 =
          .error (.cyclicReference chain) → tree.IsCycle table chain) ∧
    ∀ environment, Assembly.assemble table tree.declarations = .ok environment →
      ∀ name, ¬Relation.TransGen
        (Assembly.Asks table tree.declarations fun n => .ok (environment.get? n)) name name := by
  refine ⟨fun earlier name beyond depth h => ?_, fun earlier name chain h => ?_,
    fun environment h => Assembly.not_transGen_asks h⟩
  · have hi := Assembly.Idle.cacheAfter table tree.declarations earlier
    exact (Assembly.resolveWithin_same h name hi.valid fun _ _ => rfl).1
  · have hi := Assembly.Idle.cacheAfter table tree.declarations earlier
    obtain ⟨n, names, hchain, hnodup, hdeclared, hasks⟩ :=
      Assembly.resolve_cycle hi.valid (fun _ _ => rfl) hi.waiting (by simp [hi.pending_eq_nil]) h
    exact ⟨n, names, hchain, hnodup,
      fun m hm => exists_lookup_declarations_iff.mp (hdeclared m hm), hasks⟩

theorem resolve_ends_and_reports_cycles_mutualReference :
    (Assembly.resolve .standard mutualReference.declarations "B"
      (Assembly.cacheAfter .standard mutualReference.declarations ["A"])).1 =
        .error (.cyclicReference ["B", "A", "B"]) ∧
      mutualReference.IsCycle .standard ["B", "A", "B"] ∧
      Assembly.assemble .standard untakenSelfReference.declarations =
        .ok (.ofList [("A", "1-a"), ("SET", "1")]) ∧
      ¬Relation.TransGen (Assembly.Asks .standard untakenSelfReference.declarations fun n =>
        .ok ((Environment.ofList [("A", "1-a"), ("SET", "1")]).get? n)) "A" "A" := by
  have h : (Assembly.resolve .standard mutualReference.declarations "B"
      (Assembly.cacheAfter .standard mutualReference.declarations ["A"])).1 =
        .error (.cyclicReference ["B", "A", "B"]) := by cbv
  have hu : Assembly.assemble .standard untakenSelfReference.declarations =
      .ok (.ofList [("A", "1-a"), ("SET", "1")]) := by cbv
  exact ⟨h, (resolve_ends_and_reports_cycles .standard mutualReference).2.1 ["A"] "B" _ h, hu,
    (resolve_ends_and_reports_cycles .standard untakenSelfReference).2.2 _ hu "A"⟩

end TokenTree
end LayeredEnv
