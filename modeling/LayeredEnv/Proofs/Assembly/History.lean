import LayeredEnv.Proofs.Assembly.Solution

namespace LayeredEnv

namespace Assembly

variable {table : OperatorTable} {declarations available : Declarations}

/-- The cache has nothing but values that follow from the declarations. -/
def Valid (table : OperatorTable) (declarations : Declarations) (cache : VariableCache) : Prop :=
  ∃ known : Known, Sound table declarations cache known

def Within (known : Known) (cache : VariableCache) : Prop :=
  ∀ name value, cache.slot? name = some (.resolved value) → known.lookup name = some value

/-- `right` has the values that `left` has, and the same variables are in progress. -/
structure Ahead (left right : VariableCache) : Prop where
  resolved : ∀ name value, left.slot? name = some (.resolved value) →
    right.slot? name = some (.resolved value)
  inProgress : ∀ name, left.slot? name = some .inProgress ↔ right.slot? name = some .inProgress
  pending : left.pending = right.pending

theorem Valid.empty (table : OperatorTable) (declarations : Declarations) :
    Valid table declarations {} := ⟨[], .empty table declarations⟩

theorem Valid.start {cache : VariableCache} (h : Valid table declarations cache) {name : String}
    (hn : cache.slot? name = none) : Valid table declarations (cache.start name) :=
  let ⟨known, hs⟩ := h
  ⟨known, hs.start hn⟩

theorem Valid.resolve {cache : VariableCache} (h : Valid table declarations cache)
    (hc : Covers available declarations cache) (name : String) :
    Valid table declarations (resolve table available name cache).2 ∧
      Extends cache (resolve table available name cache).2 := by
  obtain ⟨known, hs⟩ := h
  obtain ⟨found, hs', he, -⟩ := resolve_tracks table declarations available name hs hc
  exact ⟨⟨found, hs'⟩, he⟩

/-- With nothing in progress that `known` has, `x` computes what `y` finds in `known`, and no value
that is not in `all`. -/
def Replays (table : OperatorTable) (declarations available : Declarations) (all known : Known)
    {α : Type} (x : Eval VariableCache α) (y : Eval Known α) : Prop :=
  (y known).2 = known ∧
  ∀ ⦃cache : VariableCache⦄, Valid table declarations cache →
    Covers available declarations cache → Within all cache →
    (∀ name value, known.lookup name = some value → cache.slot? name ≠ some .inProgress) →
    ∀ a, (y known).1 = .ok a → (x cache).1 = .ok a ∧ Within all (x cache).2 ∧
      Valid table declarations (x cache).2 ∧ Extends cache (x cache).2

theorem Replays.simulation (table : OperatorTable) (declarations available : Declarations)
    (all known : Known) :
    @Simulation VariableCache Known (Replays table declarations available all known) := by
  refine .of_throw ?_ ?_ ?_
  · intro α a
    refine ⟨rfl, fun cache hv _ hw _ b hb => ?_⟩
    cases hb
    exact ⟨rfl, hw, hv, .refl cache⟩
  · intro α error
    exact ⟨rfl, fun cache _ _ _ _ b hb => by cases hb⟩
  · intro α β x y f g ⟨hsame, hx⟩ hf
    unfold Replays
    rw [Eval.bind_apply]
    rcases hr : y known with ⟨error | a, after⟩
    · rw [hr] at hsame
      exact ⟨hsame, fun cache _ _ _ _ b hb => by cases hb⟩
    · rw [hr] at hsame hx
      obtain rfl : after = known := hsame
      obtain ⟨hsame', hf'⟩ := hf a
      refine ⟨hsame', fun cache hv hc hw hp b hb => ?_⟩
      obtain ⟨hxa, hw', hv', he⟩ := hx hv hc hw hp a rfl
      have hp' : ∀ name value, after.lookup name = some value →
          (x cache).2.slot? name ≠ some .inProgress :=
        fun name value hn hi => hp name value hn ((he.inProgress name).mpr hi)
      obtain ⟨hfb, hw'', hv'', he'⟩ := hf' hv' (hc.of_extends he) hw' hp' b hb
      rw [Eval.bind_apply]
      rcases hrx : x cache with ⟨_ | a', middle⟩
      · rw [hrx] at hxa
        cases hxa
      · rw [hrx] at hxa hfb hw'' hv'' he he'
        cases hxa
        exact ⟨hfb, hw'', hv'', he.trans he'⟩

theorem Within.start {all : Known} {cache : VariableCache} (h : Within all cache) (name : String) :
    Within all (cache.start name) := by
  intro other value hs
  rw [VariableCache.slot?_start] at hs
  split at hs
  · cases hs
  · exact h other value hs

theorem Within.finish {all : Known} {cache : VariableCache} (h : Within all cache) {name : String}
    {value : Value} (hn : all.lookup name = some value) : Within all (cache.finish name value) := by
  intro other v hs
  rw [VariableCache.slot?_finish] at hs
  split at hs
  · next he =>
    cases hs
    rw [he, hn]
  · exact h other v hs

/-- What follows from known values is computed where none of them is in progress. -/
theorem compute_of_found {all known : Known} {cache : VariableCache} {name : String} {value : Value}
    (hl : ∀ available other,
      Replays table declarations available all known (resolve table available other)
        (remembered other))
    (hfresh : known.lookup name = none) (hf : Found table declarations known name value)
    (hv : Valid table declarations cache) (hc : Covers available declarations cache)
    (hw : Within all cache)
    (hp : ∀ name value, known.lookup name = some value → cache.slot? name ≠ some .inProgress)
    (hn : cache.slot? name = none) :
    (compute table available name (cache.start name)).1 = .ok value ∧
      Within all (compute table available name (cache.start name)).2 := by
  have hd : available.lookup name = declarations.lookup name := hc name (by simp [hn])
  unfold compute
  unfold Found at hf
  rw [hd]
  cases ht : declarations.lookup name with
  | none =>
    rw [ht] at hf
    exact ⟨congrArg Except.ok hf.symm, hw.start name⟩
  | some token =>
    rw [ht] at hf
    have hp' : ∀ other v, known.lookup other = some v →
        (cache.start name).slot? other ≠ some .inProgress := by
      intro other v ho
      have hne : other ≠ name := by
        rintro rfl
        rw [hfresh] at ho
        cases ho
      rw [VariableCache.slot?_start, if_neg hne]
      exact hp other v ho
    have htoken : Replays table declarations (available.without name) all known
        (token.resolve table (resolve table (available.without name)))
        (token.resolve table remembered) :=
      (Replays.simulation table declarations _ all known).resolve (hl _) token
    obtain ⟨hx, hw', -, -⟩ := htoken.2 (hv.start hn) (hc.start name) (hw.start name) hp' value
      (congrArg Prod.fst hf)
    exact ⟨hx, hw'⟩

/-- The induction is on the order in which the values were found: each is computed from those before
it. -/
theorem Grounded.replays {all known : Known} (h : Grounded table declarations known)
    (hle : known.Le all) (available : Declarations) (name : String) :
    Replays table declarations available all known (resolve table available name)
      (remembered name) := by
  induction h generalizing available name with
  | nil => exact ⟨rfl, fun cache _ _ _ _ a ha => by cases ha⟩
  | @cons known m w _ hfresh hfound ih =>
    have hsame : (remembered name ((m, w) :: known)).2 = (m, w) :: known := by
      unfold remembered
      split <;> rfl
    refine ⟨hsame, fun cache hv hc hw hp a ha => ?_⟩
    have hle' : known.Le all := fun n v hn => hle n v (lookup_cons_of_fresh hfresh hn)
    have hp' : ∀ n v, known.lookup n = some v → cache.slot? n ≠ some .inProgress :=
      fun n v hn => hp n v (lookup_cons_of_fresh hfresh hn)
    have hlookup : List.lookup name ((m, w) :: known) = some a :=
      lookup_of_remembered (Prod.ext ha hsame)
    rw [Binding.lookup_cons_eq_ite] at hlookup
    by_cases hm : name = m
    · subst hm
      rw [if_pos rfl, Option.some.injEq] at hlookup
      subst hlookup
      have hall : all.lookup name = some w :=
        hle name w (by rw [Binding.lookup_cons_eq_ite, if_pos rfl])
      obtain ⟨hv', he⟩ := hv.resolve hc name
      suffices h : (resolve table available name cache).1 = .ok w ∧
          Within all (resolve table available name cache).2 from ⟨h.1, h.2, hv', he⟩
      rw [resolve_apply]
      cases hslot : cache.slot? name with
      | some slot =>
        cases slot with
        | inProgress =>
          exact absurd hslot (hp name w (by rw [Binding.lookup_cons_eq_ite, if_pos rfl]))
        | resolved v =>
          have hv := hw name v hslot
          rw [hall, Option.some.injEq] at hv
          exact ⟨congrArg Except.ok hv.symm, hw⟩
      | none =>
        obtain ⟨hx, hw'⟩ :=
          compute_of_found (fun available other => ih hle' available other) hfresh hfound hv hc hw
            hp' hslot
        dsimp only [VariableCache.settle]
        rcases hr : compute table available name (cache.start name) with ⟨_ | v, computed⟩
        · rw [hr] at hx
          cases hx
        · rw [hr] at hx hw'
          cases hx
          exact ⟨rfl, hw'.finish hall⟩
    · rw [if_neg hm] at hlookup
      have hr := remembered_of_lookup hlookup
      exact (ih hle' available name).2 hv hc hw hp' a (congrArg Prod.fst hr)

theorem Ahead.refl (cache : VariableCache) : Ahead cache cache :=
  ⟨fun _ _ h => h, fun _ => Iff.rfl, rfl⟩

/-- Both caches make one change. -/
theorem Ahead.of_slots {left right left' right' : VariableCache} (h : Ahead left right)
    {name : String} {slot : Option Slot}
    (hl : ∀ other, left'.slot? other = if other = name then slot else left.slot? other)
    (hr : ∀ other, right'.slot? other = if other = name then slot else right.slot? other)
    (hp : left'.pending = right'.pending) : Ahead left' right' where
  resolved other value ho := by
    rw [hr]
    rw [hl] at ho
    split
    · next he => rwa [if_pos he] at ho
    · next he => exact h.resolved other value (by rwa [if_neg he] at ho)
  inProgress other := by
    rw [hl, hr]
    split
    · exact Iff.rfl
    · exact h.inProgress other
  pending := hp

theorem Ahead.start {left right : VariableCache} (h : Ahead left right) (name : String) :
    Ahead (left.start name) (right.start name) :=
  h.of_slots (VariableCache.slot?_start left name) (VariableCache.slot?_start right name)
    (congrArg (· ++ [name]) h.pending)

theorem Ahead.finish {left right : VariableCache} (h : Ahead left right) (name : String)
    (value : Value) : Ahead (left.finish name value) (right.finish name value) :=
  h.of_slots (VariableCache.slot?_finish left name · value)
    (VariableCache.slot?_finish right name · value)
    (congrArg (List.filter (· != name)) h.pending)

theorem Ahead.abandon {left right : VariableCache} (h : Ahead left right) {name : String}
    (hn : left.slot? name = some .inProgress) : Ahead (left.abandon name) (right.abandon name) :=
  h.of_slots (VariableCache.slot?_abandon hn)
    (VariableCache.slot?_abandon ((h.inProgress name).mp hn))
    (by simp only [VariableCache.pending_abandon, h.pending])

/-- The computations answer alike, with caches of which one is ahead of the other. -/
def Agree (table : OperatorTable) (declarations available : Declarations) {α : Type}
    (x y : Eval VariableCache α) : Prop :=
  ∀ ⦃left right : VariableCache⦄, Ahead left right → Valid table declarations left →
    Valid table declarations right → Covers available declarations left →
    (x left).1 = (y right).1 ∧ Ahead (x left).2 (y right).2 ∧ Valid table declarations (x left).2 ∧
      Valid table declarations (y right).2 ∧ Extends left (x left).2

theorem Agree.simulation (table : OperatorTable) (declarations available : Declarations) :
    @Simulation VariableCache VariableCache (Agree table declarations available) := by
  refine .of_throw (fun a left right h hl hr _ => ⟨rfl, h, hl, hr, .refl left⟩)
    (fun e left right h hl hr _ => ⟨rfl, h, hl, hr, .refl left⟩) ?_
  intro α β x y f g hx hf left right h hl hr hc
  obtain ⟨hxy, h', hl', hr', he⟩ := hx h hl hr hc
  rw [Eval.bind_apply, Eval.bind_apply]
  rcases hxl : x left with ⟨result, middle⟩
  rcases hyr : y right with ⟨result', middle'⟩
  rw [hxl, hyr] at hxy h'
  rw [hxl] at hl' he
  rw [hyr] at hr'
  obtain rfl : result = result' := hxy
  cases result with
  | error error => exact ⟨rfl, h', hl', hr', he⟩
  | ok a =>
    obtain ⟨hab, h'', hl'', hr'', he'⟩ := hf a h' hl' hr' (hc.of_extends he)
    exact ⟨hab, h'', hl'', hr'', he.trans he'⟩

theorem Covers.ahead {left right : VariableCache} (hc : Covers available declarations left)
    (h : Ahead left right) : Covers available declarations right :=
  fun name hn => hc name fun hi => hn ((h.inProgress name).mp hi)

/-- A variable that only the cache ahead has: the other one computes the same value. -/
theorem agree_of_resolved {left right : VariableCache} (h : Ahead left right)
    (hl : Valid table declarations left) (hr : Valid table declarations right)
    (hc : Covers available declarations left) {name : String} {value : Value}
    (hn : right.slot? name = some (.resolved value)) :
    (resolve table available name left).1 = .ok value ∧
      Ahead (resolve table available name left).2 right := by
  obtain ⟨known, hs⟩ := hr
  -- nothing that `left` has in progress took part in finding what `right` knows
  have hw : Within known left := fun n v hv => (hs.slot n v).mp (h.resolved n v hv)
  have hp : ∀ n v, known.lookup n = some v → left.slot? n ≠ some .inProgress := by
    intro n v hv hi
    have hi' := (h.inProgress n).mp hi
    rw [(hs.slot n v).mpr hv] at hi'
    cases hi'
  have hvalue := remembered_of_lookup ((hs.slot name value).mp hn)
  have hreplays := hs.grounded.replays (fun _ _ h => h) available name
  obtain ⟨hx, hw', -, he⟩ := hreplays.2 hl hc hw hp value (congrArg Prod.fst hvalue)
  refine ⟨hx, fun n v hv => (hs.slot n v).mpr (hw' n v hv), fun n => ?_, ?_⟩
  · exact (he.inProgress n).symm.trans (h.inProgress n)
  · exact he.pending.trans h.pending

/-- Resolving a variable gives the same with a cache that is ahead. -/
theorem resolve_agree (table : OperatorTable) (declarations available : Declarations)
    (name : String) :
    Agree table declarations available (resolve table available name)
      (resolve table available name) := by
  induction hlen : available.length using Nat.strong_induction_on generalizing available name with
  | _ length ih =>
  intro left right h hl hr hc
  obtain ⟨hl', he⟩ := hl.resolve hc name
  obtain ⟨hr', -⟩ := hr.resolve (hc.ahead h) name
  suffices hs : (resolve table available name left).1 = (resolve table available name right).1 ∧
      Ahead (resolve table available name left).2 (resolve table available name right).2 from
    ⟨hs.1, hs.2, hl', hr', he⟩
  rw [resolve_apply table available name right]
  cases hright : right.slot? name with
  | some slot =>
    cases slot with
    | resolved value =>
      -- the value was found with nothing in progress, and so it is found again
      exact agree_of_resolved h hl hr hc hright
    | inProgress =>
      -- the same variables are in progress, so that the cycles are the same
      rw [resolve_apply, (h.inProgress name).mpr hright]
      unfold VariableCache.cycle
      exact ⟨by rw [h.pending], h⟩
  | none =>
    have hleft : left.slot? name = none := by
      cases hs : left.slot? name with
      | none => rfl
      | some slot =>
        cases slot with
        | inProgress => rw [(h.inProgress name).mp hs] at hright; cases hright
        | resolved v => rw [h.resolved name v hs] at hright; cases hright
    rw [resolve_apply, hleft]
    -- both compute the variable, with one declaration less available
    have hcompute : Agree table declarations (available.without name)
        (compute table available name) (compute table available name) := by
      unfold compute
      split
      · exact (Agree.simulation table declarations _).pure none
      · next token ht =>
        exact (Agree.simulation table declarations _).resolve
          (fun other => ih _ (hlen ▸ Declarations.length_without_lt ht) _ other rfl) token
    obtain ⟨hxy, h', -, -, he'⟩ :=
      hcompute (h.start name) (hl.start hleft) (hr.start hright) (hc.start name)
    have hprogress : (compute table available name (left.start name)).2.slot? name =
        some .inProgress := by
      rw [← he'.inProgress, VariableCache.slot?_start, if_pos rfl]
    dsimp only [VariableCache.settle]
    rcases hcl : compute table available name (left.start name) with ⟨result, computed⟩
    rcases hcr : compute table available name (right.start name) with ⟨result', computed'⟩
    rw [hcl, hcr] at hxy h'
    rw [hcl] at hprogress
    obtain rfl : result = result' := hxy
    cases result with
    | error error => exact ⟨rfl, h'.abandon hprogress⟩
    | ok value => exact ⟨rfl, h'.finish name value⟩

def answers (table : OperatorTable) (declarations : Declarations) :
    List String → VariableCache → List (Except Error Value)
  | [], _ => []
  | name :: names, cache =>
    let (answer, cache) := resolve table declarations name cache
    answer :: answers table declarations names cache

/-- A cache that requests can have left when none is being answered. -/
structure Idle (table : OperatorTable) (declarations : Declarations) (cache : VariableCache) :
    Prop where
  ahead : Ahead {} cache
  valid : Valid table declarations cache

theorem Idle.empty (table : OperatorTable) (declarations : Declarations) :
    Idle table declarations {} := ⟨.refl _, .empty table declarations⟩

/-- A request is answered as with an empty cache, and leaves nothing in progress. -/
theorem Idle.resolve {cache : VariableCache} (h : Idle table declarations cache) (name : String) :
    (resolve table declarations name cache).1 = (resolve table declarations name {}).1 ∧
      Idle table declarations (resolve table declarations name cache).2 := by
  have hc : ∀ cache, Covers declarations declarations cache := fun _ _ _ => rfl
  obtain ⟨hv, he⟩ := h.valid.resolve (hc cache) name
  have hagree := resolve_agree table declarations declarations name h.ahead (.empty _ _) h.valid
    (hc {})
  refine ⟨hagree.1.symm, ⟨nofun, fun other => ?_, ?_⟩, hv⟩
  · exact (h.ahead.inProgress other).trans (he.inProgress other)
  · exact h.ahead.pending.trans he.pending.symm

theorem Idle.answers_eq {cache : VariableCache} (h : Idle table declarations cache)
    (names : List String) : answers table declarations names cache =
      names.map fun name => (Assembly.resolve table declarations name {}).1 := by
  induction names generalizing cache with
  | nil => rfl
  | cons name names ih =>
    obtain ⟨hr, hi⟩ := h.resolve name
    rw [answers, List.map_cons, ← hr]
    exact congrArg _ (ih hi)

theorem Idle.resolveAll_iff {cache : VariableCache} (h : Idle table declarations cache)
    (names : List String) :
    (∃ after, resolveAll table declarations names cache = (.ok (), after)) ↔
      ∀ name ∈ names, ∃ value, (Assembly.resolve table declarations name {}).1 = .ok value := by
  induction names generalizing cache with
  | nil => exact ⟨fun _ => by simp, fun _ => ⟨cache, rfl⟩⟩
  | cons name names ih =>
    obtain ⟨hr, hi⟩ := h.resolve name
    rw [List.forall_mem_cons, ← hr, resolveAll, Eval.bind_apply]
    rcases hx : Assembly.resolve table declarations name cache with ⟨error | value, after⟩
    · constructor
      · rintro ⟨_, he⟩
        cases he
      · rintro ⟨⟨_, he⟩, -⟩
        cases he
    · rw [hx] at hi
      exact (ih hi).trans ⟨fun ht => ⟨⟨value, rfl⟩, ht⟩, fun ht => ht.2⟩

/-- Assembly succeeds if every declared variable has a value on its own. -/
theorem exists_assemble_iff (table : OperatorTable) (declarations : Declarations) :
    (∃ environment, assemble table declarations = .ok environment) ↔
      ∀ name ∈ declarations.names,
        ∃ value, (resolve table declarations name {}).1 = .ok value := by
  rw [← (Idle.empty table declarations).resolveAll_iff, assemble]
  rcases hr : resolveAll table declarations declarations.names {} with ⟨error | _, after⟩
  · constructor
    · rintro ⟨_, he⟩
      cases he
    · rintro ⟨_, he⟩
      cases he
  · exact ⟨fun _ => ⟨after, rfl⟩, fun _ => ⟨_, rfl⟩⟩

/-- Declarations are asked for their assignments by name only. -/
theorem resolve_congr {left right : Declarations}
    (h : ∀ name, left.lookup name = right.lookup name) (name : String) :
    resolve table left name = resolve table right name := by
  induction hlen : left.length using Nat.strong_induction_on generalizing left right name with
  | _ length ih =>
  have hcompute : compute table left name = compute table right name := by
    unfold compute
    rw [← h name]
    split
    · rfl
    · next token ht =>
      have hw : ∀ other, (left.without name).lookup other = (right.without name).lookup other := by
        intro other
        rw [Declarations.lookup_without, Declarations.lookup_without, h]
      have hl : resolve table (left.without name) = resolve table (right.without name) :=
        funext fun other => ih _ (hlen ▸ Declarations.length_without_lt ht) hw other rfl
      rw [hl]
  funext cache
  rw [resolve_apply, resolve_apply, hcompute]

theorem mem_names_iff {declarations : Declarations} {name : String} :
    name ∈ declarations.names ↔ ∃ token, declarations.lookup name = some token :=
  Binding.exists_lookup_iff.symm

/-- Declarations of the same assignments have the same environment, or have none. -/
theorem assemble_congr {left right : Declarations}
    (h : ∀ name, left.lookup name = right.lookup name) {environment : Environment}
    (he : assemble table left = .ok environment) : assemble table right = .ok environment := by
  have hall : ∀ name ∈ right.names, ∃ value, (resolve table right name {}).1 = .ok value := by
    intro name hn
    rw [mem_names_iff, ← h, ← mem_names_iff] at hn
    rw [← resolve_congr h]
    exact (exists_assemble_iff table left).mp ⟨environment, he⟩ name hn
  obtain ⟨other, ho⟩ := (exists_assemble_iff table right).mpr hall
  have hholds : ∀ name, Holds table right (environment.lookup : Lookup Unit) name
      (environment.get? name) := by
    intro name
    have hh := holds_of_assemble he name
    unfold Holds at hh ⊢
    rwa [← h]
  rw [ho, Environment.eq_of_get?_eq (eq_get?_of_holds ho hholds)]

end Assembly

namespace TokenTree

def assignments (tree : TokenTree) : List Token :=
  tree.topTokens.filter fun token => token.kind == .assignment

theorem lookup_declarations_eq_some_iff {tree : TokenTree} (hf : tree.Flat) {name : String}
    {token : Token} :
    tree.declarations.lookup name = some token ↔ token ∈ tree.assignments ∧ token.value = name := by
  constructor
  · intro h
    obtain ⟨id, hm, hk, rfl, rfl⟩ := exists_of_lookup_declarations h
    refine ⟨List.mem_filter.mpr ⟨List.mem_map_of_mem hm, ?_⟩, value_subtree tree id⟩
    rw [kind_subtree, hk]
    rfl
  · rintro ⟨hm, rfl⟩
    obtain ⟨htop, hk⟩ := List.mem_filter.mp hm
    obtain ⟨id, hid, rfl⟩ := List.mem_map.mp htop
    rw [kind_subtree, beq_iff_eq] at hk
    rw [value_subtree]
    exact lookup_declarations_of_mem hf hid hk

/-- Trees with the same assignments in some order declare the same. -/
theorem lookup_declarations_of_perm {tree other : TokenTree} (hf : tree.Flat) (hf' : other.Flat)
    (h : tree.assignments.Perm other.assignments) (name : String) :
    tree.declarations.lookup name = other.declarations.lookup name := by
  refine Option.ext fun token => ?_
  rw [lookup_declarations_eq_some_iff hf, lookup_declarations_eq_some_iff hf', h.mem_iff]

/-- Requests made one after another of one cache, also after some that failed, are answered as each
is with an empty cache. So the order of the assignments of a flat tree does not matter to its
environment. -/
theorem resolve_ignores_history (table : OperatorTable) (tree : TokenTree) :
    (∀ names, Assembly.answers table tree.declarations names {} =
      names.map fun name => (Assembly.resolve table tree.declarations name {}).1) ∧
    ∀ other : TokenTree, tree.Flat → other.Flat → tree.assignments.Perm other.assignments →
      ∀ environment, Assembly.assemble table tree.declarations = .ok environment ↔
        Assembly.assemble table other.declarations = .ok environment := by
  refine ⟨(Assembly.Idle.empty table tree.declarations).answers_eq, ?_⟩
  intro other hf hf' hp environment
  have hl := lookup_declarations_of_perm hf hf' hp
  exact ⟨Assembly.assemble_congr hl, Assembly.assemble_congr fun name => (hl name).symm⟩

def settingFirst : TokenTree := .ofTokens
  [.node .assignment "SET" false [.leaf .text "1"],
    .node .assignment "A" false
      [.node .interpolation "SET" false
        [.node .expression ":-" false [.leaf .interpolation "A"]], .leaf .text "-a"]]

theorem resolve_ignores_history_settingFirst :
    untakenSelfReference.Flat ∧ settingFirst.Flat ∧
      untakenSelfReference.assignments.Perm settingFirst.assignments ∧
      Assembly.assemble .standard settingFirst.declarations =
        .ok (.ofList [("A", "1-a"), ("SET", "1")]) := by
  have hf : untakenSelfReference.Flat := by
    unfold Flat
    decide
  have hf' : settingFirst.Flat := by
    unfold Flat
    decide
  have hp : untakenSelfReference.assignments.Perm settingFirst.assignments := by
    unfold assignments untakenSelfReference settingFirst
    rw [topTokens_ofTokens, topTokens_ofTokens]
    exact List.Perm.swap ..
  have h : Assembly.assemble .standard untakenSelfReference.declarations =
      .ok (.ofList [("A", "1-a"), ("SET", "1")]) := by cbv
  exact ⟨hf, hf', hp,
    ((resolve_ignores_history .standard untakenSelfReference).2 settingFirst hf hf' hp _).mp h⟩

def mutualReference : TokenTree := .ofTokens
  [.node .assignment "A" false [.node .interpolation "B" false []],
    .node .assignment "B" false [.node .interpolation "A" false []]]

example : Assembly.answers .standard mutualReference.declarations ["A", "B", "A"] {} =
    [.error (.cyclicReference ["A", "B", "A"]), .error (.cyclicReference ["B", "A", "B"]),
      .error (.cyclicReference ["A", "B", "A"])] := by cbv

end TokenTree
end LayeredEnv
