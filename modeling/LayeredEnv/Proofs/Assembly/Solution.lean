import LayeredEnv.Assembly
import LayeredEnv.Proofs.Evaluation.Simulation
import Mathlib

namespace LayeredEnv

def Environment.lookup {σ : Type} (environment : Environment) : Lookup σ := fun name =>
  pure (environment.get? name)

theorem Environment.eq_of_get?_eq {a b : Environment} (h : ∀ name, a.get? name = b.get? name) :
    a = b := by
  obtain ⟨l, hl⟩ := a
  obtain ⟨m, hm⟩ := b
  have he : l = m := by
    have : Std.Irrefl fun x y : String × String => x.1 < y.1 := ⟨fun x => String.lt_irrefl x.1⟩
    refine hl.eq_of_mem_iff hm fun ⟨name, value⟩ => ?_
    have hn := h name
    have hleft : Environment.get? ⟨l, hl⟩ name = some value ↔ (name, value) ∈ l := get?_eq_some_iff
    have hright : Environment.get? ⟨m, hm⟩ name = some value ↔ (name, value) ∈ m := get?_eq_some_iff
    rw [← hleft, ← hright, hn]
  subst he
  rfl

namespace Assembly

abbrev Known : Type := List (String × Value)

/-- The values found so far as a source of values, which fails on other names. -/
def remembered : Lookup Known := fun name known =>
  match known.lookup name with
  | some value => (.ok value, known)
  | none => (.error (.cyclicReference [name]), known)

variable {table : OperatorTable} {declarations : Declarations}

def Known.Le (left right : Known) : Prop :=
  ∀ name value, left.lookup name = some value → right.lookup name = some value

def Settles {σ : Type} (known : Known) {α : Type} (x : Eval Known α) (y : Eval σ α) : Prop :=
  (x known).2 = known ∧ ∀ a, (x known).1 = .ok a → y = pure a

theorem Settles.simulation {σ : Type} (known : Known) :
    @Simulation Known σ (Settles known) := by
  refine .of_throw (fun a => ⟨rfl, fun b hb => by cases hb; rfl⟩)
    (fun e => ⟨rfl, fun b hb => by cases hb⟩) ?_
  intro α β x y f g ⟨hx, hy⟩ hf
  rcases hr : x known with ⟨r, after⟩
  rw [hr] at hx hy
  obtain rfl : after = known := hx
  unfold Settles
  rw [Eval.bind_apply, hr]
  cases r with
  | error error => exact ⟨rfl, fun b hb => by cases hb⟩
  | ok a =>
    rw [hy a rfl, pure_bind]
    exact hf a

/-- A value found from known values alone is found from every source that agrees with them. -/
theorem resolve_of_remembered {σ : Type} {lookup : Lookup σ} {known : Known} {token : Token}
    {value : Value} (hk : ∀ name value, known.lookup name = some value → lookup name = pure value)
    (h : token.resolve table remembered known = (.ok value, known)) :
    token.resolve table lookup = pure value := by
  have hl : ∀ name, Settles known (remembered name) (lookup name) := by
    intro name
    unfold Settles remembered
    cases hn : known.lookup name with
    | none => exact ⟨rfl, fun a ha => by cases ha⟩
    | some v => exact ⟨rfl, fun a ha => by cases ha; exact hk name v hn⟩
  have hs : Settles known (token.resolve table remembered) (token.resolve table lookup) :=
    (Settles.simulation known).resolve hl token
  exact hs.2 value (congrArg Prod.fst h)

/-- The equation that the declarations state for a variable, with values from `lookup`. -/
def Holds {σ : Type} (table : OperatorTable) (declarations : Declarations) (lookup : Lookup σ)
    (name : String) (value : Value) : Prop :=
  match declarations.lookup name with
  | none => value = none
  | some token => token.resolve table lookup = pure value

theorem Holds.unique {lookup : Lookup Unit} {name : String} {v w : Value}
    (hv : Holds table declarations lookup name v) (hw : Holds table declarations lookup name w) :
    v = w := by
  cases hd : declarations.lookup name with
  | none =>
    simp only [Holds, hd] at hv hw
    rw [hv, hw]
  | some token =>
    simp only [Holds, hd] at hv hw
    have hp := congrFun (hv.symm.trans hw) ()
    cases hp
    rfl

def Found (table : OperatorTable) (declarations : Declarations) (known : Known) (name : String)
    (value : Value) : Prop :=
  match declarations.lookup name with
  | none => value = none
  | some token => token.resolve table remembered known = (.ok value, known)

/-- Each value follows from the values found before it. -/
inductive Grounded (table : OperatorTable) (declarations : Declarations) : Known → Prop where
  | nil : Grounded table declarations []
  | cons {known : Known} {name : String} {value : Value} :
    Grounded table declarations known → known.lookup name = none →
      Found table declarations known name value →
      Grounded table declarations ((name, value) :: known)

theorem Found.holds {σ : Type} {lookup : Lookup σ} {known : Known} {name : String} {value : Value}
    (h : Found table declarations known name value)
    (hk : ∀ name value, known.lookup name = some value → lookup name = pure value) :
    Holds table declarations lookup name value := by
  unfold Found at h
  unfold Holds
  split at h
  · exact h
  · exact resolve_of_remembered hk h

theorem lookup_cons_of_fresh {known : Known} {name : String} {value : Value}
    (hn : known.lookup name = none) {other : String} {v : Value}
    (h : known.lookup other = some v) : List.lookup other ((name, value) :: known) = some v := by
  have hne : other ≠ name := by
    rintro rfl
    rw [hn] at h
    cases h
  rw [Binding.lookup_cons_eq_ite, if_neg hne, h]

/-- Grounded values satisfy their equations under every source that agrees with them. -/
theorem Grounded.holds {σ : Type} {lookup : Lookup σ} {known : Known}
    (h : Grounded table declarations known)
    (hk : ∀ name value, known.lookup name = some value → lookup name = pure value) :
    ∀ name value, known.lookup name = some value → Holds table declarations lookup name value := by
  induction h with
  | nil => exact fun name value hn => by cases hn
  | @cons known m w _ hfresh hfound ih =>
    have hk' : ∀ name value, known.lookup name = some value → lookup name = pure value :=
      fun name value hn => hk name value (lookup_cons_of_fresh hfresh hn)
    intro name value hn
    rw [Binding.lookup_cons_eq_ite] at hn
    split at hn
    · next he =>
      cases hn
      exact he ▸ hfound.holds hk'
    · exact ih hk' name value hn

/-- Every solution agrees with the grounded values: the induction follows the order in which they
were found, so that a variable is compared after all that its value came from. -/
theorem Grounded.agrees {f : String → Value} {known : Known}
    (hf : ∀ name, Holds table declarations (fun n => pure (f n) : Lookup Unit) name (f name))
    (h : Grounded table declarations known) :
    ∀ name value, known.lookup name = some value → f name = value := by
  induction h with
  | nil => exact fun name value hn => by cases hn
  | @cons known m w _ hfresh hfound ih =>
    have hm : Holds table declarations (fun n => pure (f n) : Lookup Unit) m w :=
      hfound.holds fun name value hn => congrArg pure (ih name value hn)
    have he : f m = w := (hf m).unique hm
    intro name value hn
    rw [Binding.lookup_cons_eq_ite] at hn
    split at hn
    · next hname =>
      cases hn
      exact hname ▸ he
    · exact ih name value hn

/-- The values in a cache are the known ones, and what is pending is in progress. -/
structure Sound (table : OperatorTable) (declarations : Declarations) (cache : VariableCache)
    (known : Known) : Prop where
  grounded : Grounded table declarations known
  slot : ∀ name value, cache.slot? name = some (.resolved value) ↔ known.lookup name = some value
  distinct : cache.names.Nodup
  pending : ∀ name ∈ cache.pending, cache.slot? name = some .inProgress

structure Extends (before after : VariableCache) : Prop where
  resolved : ∀ name value, before.slot? name = some (.resolved value) →
    after.slot? name = some (.resolved value)
  inProgress : ∀ name, before.slot? name = some .inProgress ↔ after.slot? name = some .inProgress
  pending : after.pending = before.pending

def Covers (available declarations : Declarations) (cache : VariableCache) : Prop :=
  ∀ name, cache.slot? name ≠ some .inProgress → available.lookup name = declarations.lookup name

theorem Extends.refl (cache : VariableCache) : Extends cache cache :=
  ⟨fun _ _ h => h, fun _ => Iff.rfl, rfl⟩

theorem Extends.trans {a b c : VariableCache} (hab : Extends a b) (hbc : Extends b c) :
    Extends a c :=
  ⟨fun name value h => hbc.resolved name value (hab.resolved name value h),
    fun name => (hab.inProgress name).trans (hbc.inProgress name), hbc.pending.trans hab.pending⟩

theorem Covers.of_extends {available : Declarations} {before after : VariableCache}
    (h : Covers available declarations before) (he : Extends before after) :
    Covers available declarations after :=
  fun name hn => h name fun hb => hn ((he.inProgress name).mp hb)

theorem Sound.empty (table : OperatorTable) (declarations : Declarations) :
    Sound table declarations {} [] :=
  ⟨.nil, fun _ _ => ⟨nofun, nofun⟩, .nil, nofun⟩

theorem Sound.le {before after : VariableCache} {left right : Known}
    (hl : Sound table declarations before left) (hr : Sound table declarations after right)
    (he : Extends before after) : left.Le right :=
  fun name value hn =>
    (hr.slot name value).mp (he.resolved name value ((hl.slot name value).mpr hn))

theorem Sound.start {cache : VariableCache} {known : Known}
    (h : Sound table declarations cache known) {name : String} (hn : cache.slot? name = none) :
    Sound table declarations (cache.start name) known where
  grounded := h.grounded
  distinct := VariableCache.nodup_names_start h.distinct name
  slot other value := by
    rw [VariableCache.slot?_start, ← h.slot]
    by_cases ho : other = name
    · rw [if_pos ho, ho, hn]
      exact ⟨nofun, nofun⟩
    · rw [if_neg ho]
  pending other ho := by
    rw [VariableCache.slot?_start]
    rw [VariableCache.pending_start, List.mem_append, List.mem_singleton] at ho
    rcases ho with ho | rfl
    · rw [h.pending other ho, ite_self]
    · rw [if_pos rfl]

theorem Sound.not_pending {cache : VariableCache} {known : Known}
    (h : Sound table declarations cache known) {name : String} (hn : cache.slot? name = none) :
    name ∉ cache.pending := by
  intro hm
  have hs := h.pending name hm
  rw [hn] at hs
  cases hs

/-- A variable in progress is not known. -/
theorem Sound.lookup_eq_none {cache : VariableCache} {known : Known}
    (h : Sound table declarations cache known) {name : String}
    (hn : cache.slot? name = some .inProgress) : known.lookup name = none := by
  cases hk : known.lookup name with
  | none => rfl
  | some v =>
    rw [(h.slot name v).mpr hk] at hn
    cases hn

/-- Whatever becomes of a variable, the others that are pending are in progress as before. -/
theorem Sound.pending_leave {cache : VariableCache} {known : Known}
    (h : Sound table declarations cache known) {name : String} {slot : Option Slot} {other : String}
    (ho : other ∈ cache.pending.filter (· != name)) :
    (if other = name then slot else cache.slot? other) = some .inProgress := by
  obtain ⟨hm, hne⟩ := List.mem_filter.mp ho
  rw [if_neg (by simpa using hne), h.pending other hm]

theorem Sound.finish {cache : VariableCache} {known : Known}
    (h : Sound table declarations cache known) {name : String} {value : Value}
    (hn : cache.slot? name = some .inProgress) (hf : Found table declarations known name value) :
    Sound table declarations (cache.finish name value) ((name, value) :: known) where
  grounded := h.grounded.cons (h.lookup_eq_none hn) hf
  distinct := VariableCache.nodup_names_finish h.distinct name value
  slot other v := by
    rw [VariableCache.slot?_finish, Binding.lookup_cons_eq_ite]
    split
    · simp
    · exact h.slot other v
  pending other ho := by
    rw [VariableCache.slot?_finish]
    exact h.pending_leave ho

theorem Sound.abandon {cache : VariableCache} {known : Known}
    (h : Sound table declarations cache known) {name : String}
    (hn : cache.slot? name = some .inProgress) :
    Sound table declarations (cache.abandon name) known where
  grounded := h.grounded
  distinct := VariableCache.nodup_names_abandon h.distinct name
  slot other v := by
    rw [VariableCache.slot?_abandon hn, ← h.slot]
    by_cases ho : other = name
    · rw [if_pos ho, ho, hn]
      exact ⟨nofun, nofun⟩
    · rw [if_neg ho]
  pending other ho := by
    rw [VariableCache.slot?_abandon hn]
    rw [VariableCache.pending_abandon] at ho
    exact h.pending_leave ho

theorem Covers.start {available : Declarations} {cache : VariableCache}
    (h : Covers available declarations cache) (name : String) :
    Covers (available.without name) declarations (cache.start name) := by
  intro other ho
  rw [VariableCache.slot?_start] at ho
  rw [Declarations.lookup_without]
  by_cases hn : other = name
  · rw [if_pos hn] at ho
    exact absurd rfl ho
  · rw [if_neg hn] at ho
    rw [if_neg hn, h other ho]

/-- A variable that was started is in progress no more, and nothing else is changed. -/
theorem Extends.leave {cache computed after : VariableCache} {name : String}
    (hn : cache.slot? name = none) (hp : name ∉ cache.pending)
    (h : Extends (cache.start name) computed) {slot : Option Slot}
    (hslot : slot ≠ some .inProgress)
    (hs : ∀ other, after.slot? other = if other = name then slot else computed.slot? other)
    (hpending : after.pending = computed.pending.filter (· != name)) : Extends cache after where
  resolved other v ho := by
    have hne : other ≠ name := by
      rintro rfl
      rw [hn] at ho
      cases ho
    rw [hs, if_neg hne]
    apply h.resolved
    rw [VariableCache.slot?_start, if_neg hne, ho]
  inProgress other := by
    rw [hs]
    by_cases ho : other = name
    · rw [if_pos ho, ho, hn]
      exact ⟨nofun, fun hc => absurd hc hslot⟩
    · rw [if_neg ho, ← h.inProgress other, VariableCache.slot?_start, if_neg ho]
  pending := by
    have hkeep : ∀ other ∈ cache.pending, (other != name) = true := fun other ho => by
      rw [bne_iff_ne]
      rintro rfl
      exact hp ho
    rw [hpending, h.pending, VariableCache.pending_start, List.filter_append,
      List.filter_eq_self.mpr hkeep, List.filter_singleton]
    simp

/-- `x` computes with the cache what `y` finds from the known values. What `y` gives is said of all
later known values, so that a part of a computation is still right when the computation ends. A
computation that fails leaves a sound cache too. -/
def Tracks (table : OperatorTable) (declarations available : Declarations) {α : Type}
    (x : Eval VariableCache α) (y : Eval Known α) : Prop :=
  ∀ ⦃cache : VariableCache⦄ ⦃known : Known⦄, Sound table declarations cache known →
    Covers available declarations cache →
    ∃ found : Known, Sound table declarations (x cache).2 found ∧ Extends cache (x cache).2 ∧
      ∀ a, (x cache).1 = .ok a → ∀ later : Known, found.Le later → y later = (.ok a, later)

theorem Tracks.simulation (table : OperatorTable) (declarations available : Declarations) :
    @Simulation VariableCache Known (Tracks table declarations available) := by
  refine .of_throw ?_ ?_ ?_
  · intro α a cache known hs _
    exact ⟨known, hs, .refl cache, fun b hb _ _ => by cases hb; rfl⟩
  · intro α error cache known hs _
    exact ⟨known, hs, .refl cache, fun b hb => by cases hb⟩
  · intro α β x y f g hx hf cache known hs hc
    obtain ⟨found, hs', he, hy⟩ := hx hs hc
    rw [Eval.bind_apply]
    rcases hr : x cache with ⟨error | a, middle⟩
    · rw [hr] at hs' he
      exact ⟨found, hs', he, fun b hb => by cases hb⟩
    · rw [hr] at hs' he hy
      obtain ⟨found', hs'', he', hy'⟩ := hf a hs' (hc.of_extends he)
      refine ⟨found', hs'', he.trans he', fun b hb later hl => ?_⟩
      have hle : found.Le later := fun name value hn =>
        hl name value (hs'.le hs'' he' name value hn)
      rw [Eval.bind_apply, hy a rfl later hle]
      exact hy' b hb later hl

theorem remembered_of_lookup {known : Known} {name : String} {value : Value}
    (h : known.lookup name = some value) : remembered name known = (.ok value, known) := by
  rw [remembered, h]

theorem lookup_of_remembered {known : Known} {name : String} {value : Value}
    (h : remembered name known = (.ok value, known)) : known.lookup name = some value := by
  unfold remembered at h
  split at h
  · next hn =>
    cases h
    exact hn
  · cases h

/-- What a variable is computed to is found from the values that are known afterwards. -/
theorem compute_tracks {available : Declarations} {cache : VariableCache} {known : Known}
    {name : String} (hn : cache.slot? name = none) (hs : Sound table declarations cache known)
    (hc : Covers available declarations cache)
    (hl : ∀ token, available.lookup name = some token → ∀ other,
      Tracks table declarations (available.without name)
        (resolve table (available.without name) other) (remembered other)) :
    ∃ found : Known,
      Sound table declarations (compute table available name (cache.start name)).2 found ∧
      Extends (cache.start name) (compute table available name (cache.start name)).2 ∧
      ∀ value, (compute table available name (cache.start name)).1 = .ok value →
        Found table declarations found name value := by
  have hs' := hs.start hn
  have hd : available.lookup name = declarations.lookup name := hc name (by simp [hn])
  unfold compute Found
  rw [← hd]
  cases ht : available.lookup name with
  | none => exact ⟨known, hs', .refl _, fun value hv => by cases hv; rfl⟩
  | some token =>
    obtain ⟨found, hs'', he, hy⟩ :=
      (Tracks.simulation table declarations _).resolve (hl token ht) token hs' (hc.start name)
    exact ⟨found, hs'', he, fun value hv => hy value hv found fun _ _ h => h⟩

/-- A variable is computed from what is known and is known from then on. -/
theorem resolve_tracks (table : OperatorTable) (declarations available : Declarations)
    (name : String) :
    Tracks table declarations available (resolve table available name) (remembered name) := by
  induction hlen : available.length using Nat.strong_induction_on generalizing available name with
  | _ length ih =>
  intro cache known hs hc
  rw [resolve_apply]
  cases hslot : cache.slot? name with
  | some slot =>
    cases slot with
    | inProgress => exact ⟨known, hs, .refl cache, fun a ha => by cases ha⟩
    | resolved value =>
      refine ⟨known, hs, .refl cache, fun a ha later hl => ?_⟩
      cases ha
      exact remembered_of_lookup (hl name value ((hs.slot name value).mp hslot))
  | none =>
    -- a variable that is being computed is not available, so that fewer and fewer are
    have hl : ∀ token, available.lookup name = some token → ∀ other,
        Tracks table declarations (available.without name)
          (resolve table (available.without name) other) (remembered other) :=
      fun token ht other => ih _ (hlen ▸ Declarations.length_without_lt ht) _ other rfl
    obtain ⟨found, hs', he, hf⟩ := compute_tracks hslot hs hc hl
    have hp := hs.not_pending hslot
    have hprogress : (compute table available name (cache.start name)).2.slot? name =
        some .inProgress := by
      rw [← he.inProgress, VariableCache.slot?_start, if_pos rfl]
    dsimp only [VariableCache.settle]
    rcases hr : compute table available name (cache.start name) with ⟨error | value, computed⟩
    · rw [hr] at hs' he hprogress
      have hne : (none : Option Slot) ≠ some .inProgress := nofun
      exact ⟨found, hs'.abandon hprogress,
        he.leave hslot hp hne (VariableCache.slot?_abandon hprogress)
          (VariableCache.pending_abandon ..),
        fun a ha => by cases ha⟩
    · rw [hr] at hs' he hprogress hf
      have hne : some (Slot.resolved value) ≠ some .inProgress := by simp
      refine ⟨(name, value) :: found, hs'.finish hprogress (hf value rfl),
        he.leave hslot hp hne (VariableCache.slot?_finish computed name · value) rfl,
        fun a ha later hl => ?_⟩
      cases ha
      exact remembered_of_lookup (hl name value (by rw [Binding.lookup_cons_eq_ite, if_pos rfl]))

theorem resolveAll_sound {names : List String} {cache after : VariableCache} {known : Known}
    (hs : Sound table declarations cache known)
    (h : resolveAll table declarations names cache = (.ok (), after)) :
    ∃ found : Known, Sound table declarations after found ∧ Extends cache after ∧
      ∀ name ∈ names, ∃ value, found.lookup name = some value := by
  induction names generalizing cache known with
  | nil =>
    cases h
    exact ⟨known, hs, .refl _, by simp⟩
  | cons name names ih =>
    rw [resolveAll, Eval.bind_apply] at h
    rcases hr : resolve table declarations name cache with ⟨_ | value, middle⟩
    · rw [hr] at h
      cases h
    · rw [hr] at h
      obtain ⟨found, hs', he, hy⟩ :=
        resolve_tracks table declarations declarations name hs (fun _ _ => rfl)
      rw [hr] at hs' he hy
      obtain ⟨found', hs'', he', hn⟩ := ih hs' h
      have hvalue := lookup_of_remembered (hy value rfl found fun _ _ h => h)
      have hname := hs'.le hs'' he' name value hvalue
      refine ⟨found', hs'', he.trans he', ?_⟩
      rw [List.forall_mem_cons]
      exact ⟨⟨value, hname⟩, hn⟩

/-- An assembled environment holds the set ones of grounded values, of which every declared
variable has one. -/
theorem exists_grounded_of_assemble {environment : Environment}
    (h : assemble table declarations = .ok environment) :
    ∃ known : Known, Grounded table declarations known ∧
      (∀ name value, environment.get? name = some value ↔ known.lookup name = some (some value)) ∧
      ∀ name token, declarations.lookup name = some token →
        ∃ value, known.lookup name = some value := by
  have hs := Sound.empty table declarations
  rw [assemble] at h
  rcases hr : resolveAll table declarations declarations.names {} with ⟨_ | _, after⟩
  · rw [hr] at h
    cases h
  · rw [hr] at h
    cases h
    obtain ⟨known, hs', _, hn⟩ := resolveAll_sound hs hr
    refine ⟨known, hs'.grounded, fun name value => ?_, fun name token ht => ?_⟩
    · have hb := VariableCache.nodup_map_bindings hs'.distinct
      rw [Environment.get?_ofList hb, Binding.lookup_eq_some_iff hb,
        VariableCache.mem_bindings_iff hs'.distinct, hs'.slot]
    · exact hn name (Binding.exists_lookup_iff.mp ⟨token, ht⟩)

theorem get?_of_known {environment : Environment} {known : Known}
    (hget : ∀ name value,
      environment.get? name = some value ↔ known.lookup name = some (some value))
    {name : String} {value : Value} (hn : known.lookup name = some value) :
    environment.get? name = value := by
  cases value with
  | some text => exact (hget name text).mpr hn
  | none =>
    apply Option.eq_none_iff_forall_ne_some.mpr
    intro text ht
    rw [hget, hn] at ht
    cases ht

/-- The environment satisfies every equation. -/
theorem holds_of_assemble {environment : Environment}
    (h : assemble table declarations = .ok environment) (name : String) :
    Holds table declarations (environment.lookup : Lookup Unit) name (environment.get? name) := by
  obtain ⟨known, hg, hget, hall⟩ := exists_grounded_of_assemble h
  have hlookup : ∀ n v, known.lookup n = some v →
      (environment.lookup : Lookup Unit) n = pure v :=
    fun n v hn => congrArg pure (get?_of_known hget hn)
  have hh := hg.holds hlookup
  cases hd : declarations.lookup name with
  | some token =>
    obtain ⟨value, hv⟩ := hall name token hd
    rw [get?_of_known hget hv]
    exact hh name value hv
  | none =>
    simp only [Holds, hd]
    apply Option.eq_none_iff_forall_ne_some.mpr
    intro text ht
    have hn := hh name _ ((hget name text).mp ht)
    simp only [Holds, hd] at hn
    cases hn

/-- Only the environment satisfies every equation. -/
theorem eq_get?_of_holds {environment : Environment}
    (h : assemble table declarations = .ok environment) {f : String → Value}
    (hf : ∀ name, Holds table declarations (fun n => pure (f n) : Lookup Unit) name (f name))
    (name : String) : f name = environment.get? name := by
  obtain ⟨known, hg, hget, hall⟩ := exists_grounded_of_assemble h
  cases hd : declarations.lookup name with
  | some token =>
    obtain ⟨value, hv⟩ := hall name token hd
    rw [hg.agrees hf name value hv, get?_of_known hget hv]
  | none =>
    have hfn := hf name
    have hen := holds_of_assemble h name
    simp only [Holds, hd] at hfn hen
    rw [hfn, hen]

end Assembly

theorem Token.isSome_of_resolve_assignment {σ : Type} {table : OperatorTable} {lookup : Lookup σ}
    {token : Token} {value : Value} (hk : token.kind = .assignment) (state : σ)
    (h : token.resolve table lookup = pure value) : ∃ text, value = some text := by
  obtain ⟨kind, name, isLength, children⟩ := token
  obtain rfl : kind = .assignment := hk
  rw [resolve, ← bind_pure_comp] at h
  have hs := congrFun h state
  rw [Eval.bind_apply] at hs
  rcases hc : concat table lookup children state with ⟨_ | text, after⟩
  · rw [hc] at hs
    cases hs
  · rw [hc] at hs
    cases hs
    exact ⟨text, rfl⟩

namespace TokenTree

def Flat (tree : TokenTree) : Prop :=
  ((tree.topLevel.filter fun id => tree.kind id == .assignment).map tree.value).Nodup

def Declares (tree : TokenTree) (name : String) : Prop :=
  ∃ id ∈ tree.topLevel, tree.kind id = .assignment ∧ tree.value id = name

theorem lookup_declarations (tree : TokenTree) (name : String) :
    tree.declarations.lookup name = ((tree.topLevel.filter fun id =>
      tree.kind id == .assignment && tree.value id == name).getLast?).map tree.subtree := by
  rw [declarations, Declarations.lookup_ofTokens, topTokens, List.filter_map, List.getLast?_map]
  simp only [Function.comp_def, kind_subtree, value_subtree]

theorem exists_of_lookup_declarations {tree : TokenTree} {name : String} {token : Token}
    (h : tree.declarations.lookup name = some token) :
    ∃ id ∈ tree.topLevel, tree.kind id = .assignment ∧ tree.value id = name ∧
      tree.subtree id = token := by
  rw [lookup_declarations] at h
  obtain ⟨id, hid, ht⟩ := Option.map_eq_some_iff.mp h
  have hm := List.mem_of_getLast? hid
  rw [List.mem_filter, Bool.and_eq_true, beq_iff_eq, beq_iff_eq] at hm
  exact ⟨id, hm.1, hm.2.1, hm.2.2, ht⟩

theorem exists_lookup_declarations_iff {tree : TokenTree} {name : String} :
    (∃ token, tree.declarations.lookup name = some token) ↔ tree.Declares name := by
  constructor
  · rintro ⟨token, h⟩
    obtain ⟨id, hm, hk, hv, -⟩ := exists_of_lookup_declarations h
    exact ⟨id, hm, hk, hv⟩
  · rintro ⟨id, hm, hk, hv⟩
    rw [lookup_declarations]
    have hmem : id ∈ tree.topLevel.filter fun id =>
        tree.kind id == .assignment && tree.value id == name := by
      simp [hm, hk, hv]
    obtain ⟨last, hl⟩ :=
      Option.isSome_iff_exists.mp (List.getLast?_isSome.mpr (List.ne_nil_of_mem hmem))
    exact ⟨tree.subtree last, by rw [hl]; rfl⟩

theorem lookup_declarations_of_mem {tree : TokenTree} (hf : tree.Flat) {id : Nat}
    (hm : id ∈ tree.topLevel) (hk : tree.kind id = .assignment) :
    tree.declarations.lookup (tree.value id) = some (tree.subtree id) := by
  obtain ⟨token, ht⟩ := exists_lookup_declarations_iff.mpr ⟨id, hm, hk, rfl⟩
  obtain ⟨other, hm', hk', hv, hs⟩ := exists_of_lookup_declarations ht
  have he : other = id :=
    List.inj_on_of_nodup_map hf (by simp [hm', hk']) (by simp [hm, hk]) hv
  rw [ht, ← hs, he]

/-- Every assignment has, under the values of the environment, the value that it has there. -/
def SolvedBy (tree : TokenTree) (table : OperatorTable) (environment : Environment) : Prop :=
  ∀ id ∈ tree.topLevel, tree.kind id = .assignment →
    ∃ text, environment.get? (tree.value id) = some text ∧
      (tree.subtree id).resolve table environment.lookup = (pure (some text) : Eval Unit Value)

/-- To have the declared variables and solve a flat tree is to satisfy the equations of all
names. -/
theorem solvedBy_iff_holds {tree : TokenTree} {table : OperatorTable} (hf : tree.Flat)
    (environment : Environment) :
    ((∀ name, name ∈ environment.names ↔ tree.Declares name) ∧ tree.SolvedBy table environment) ↔
      ∀ name, Assembly.Holds table tree.declarations (environment.lookup : Lookup Unit) name
        (environment.get? name) := by
  constructor
  · rintro ⟨hnames, hsolved⟩ name
    unfold Assembly.Holds
    cases hd : tree.declarations.lookup name with
    | some token =>
      obtain ⟨id, hm, hk, rfl, rfl⟩ := exists_of_lookup_declarations hd
      obtain ⟨text, ht, hr⟩ := hsolved id hm hk
      rw [ht]
      exact hr
    | none =>
      apply Option.eq_none_iff_forall_ne_some.mpr
      intro text ht
      have hn := (hnames name).mp (Environment.mem_names_iff.mpr ⟨text, ht⟩)
      obtain ⟨token, htoken⟩ := exists_lookup_declarations_iff.mpr hn
      rw [hd] at htoken
      cases htoken
  · intro hh
    have hsolved : tree.SolvedBy table environment := by
      intro id hm hk
      have hr := hh (tree.value id)
      simp only [Assembly.Holds, lookup_declarations_of_mem hf hm hk] at hr
      have hk' : (tree.subtree id).kind = .assignment := by rw [kind_subtree, hk]
      obtain ⟨text, ht⟩ := Token.isSome_of_resolve_assignment hk' () hr
      exact ⟨text, ht, ht ▸ hr⟩
    refine ⟨fun name => ?_, hsolved⟩
    rw [Environment.mem_names_iff]
    constructor
    · rintro ⟨text, ht⟩
      have hr := hh name
      rw [← exists_lookup_declarations_iff]
      cases hd : tree.declarations.lookup name with
      | some token => exact ⟨token, rfl⟩
      | none =>
        simp only [Assembly.Holds, hd, ht] at hr
        cases hr
    · rintro ⟨id, hm, hk, rfl⟩
      obtain ⟨text, ht, -⟩ := hsolved id hm hk
      exact ⟨text, ht⟩

/-- An assembled environment has the declared variables, its values solve the declarations of a
flat tree, and no other environment with these variables does. -/
theorem assemble_unique_solution {tree : TokenTree} {table : OperatorTable}
    {environment : Environment} (hf : tree.Flat)
    (h : Assembly.assemble table tree.declarations = .ok environment) :
    (∀ name, name ∈ environment.names ↔ tree.Declares name) ∧
      tree.SolvedBy table environment ∧
      ∀ other : Environment, (∀ name, name ∈ other.names ↔ tree.Declares name) →
        tree.SolvedBy table other → other = environment := by
  have hh := Assembly.holds_of_assemble h
  obtain ⟨hnames, hsolved⟩ := (solvedBy_iff_holds hf environment).mpr hh
  refine ⟨hnames, hsolved, fun other hkeys hother => ?_⟩
  -- both have the values that the equations determine
  apply Environment.eq_of_get?_eq
  apply Assembly.eq_get?_of_holds h
  exact (solvedBy_iff_holds hf other).mp ⟨hkeys, hother⟩

/-- `A=${SET:-$A}-a` beside `SET=1`: the argument that refers to `A` itself is not taken. -/
def untakenSelfReference : TokenTree := .ofTokens
  [.node .assignment "A" false
    [.node .interpolation "SET" false
      [.node .expression ":-" false [.leaf .interpolation "A"]], .leaf .text "-a"],
    .node .assignment "SET" false [.leaf .text "1"]]

theorem assemble_unique_solution_untakenSelfReference :
    untakenSelfReference.Flat ∧
      Assembly.assemble .standard untakenSelfReference.declarations =
        .ok (.ofList [("A", "1-a"), ("SET", "1")]) ∧
      ∀ other : Environment,
        (∀ name, name ∈ other.names ↔ untakenSelfReference.Declares name) →
        untakenSelfReference.SolvedBy .standard other →
          other = .ofList [("A", "1-a"), ("SET", "1")] := by
  have hf : untakenSelfReference.Flat := by
    unfold Flat
    decide
  have h : Assembly.assemble .standard untakenSelfReference.declarations =
      .ok (.ofList [("A", "1-a"), ("SET", "1")]) := by cbv
  exact ⟨hf, h, (assemble_unique_solution hf h).2.2⟩

end TokenTree
end LayeredEnv
