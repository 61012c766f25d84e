import LayeredEnv.Binding
import LayeredEnv.Error

namespace LayeredEnv

inductive Slot where
  | inProgress
  | resolved (value : Value)
  deriving DecidableEq, Repr

inductive Claim where
  | cached (value : Value)
  | started
  deriving DecidableEq, Repr

/-- The slots of variables and the names being computed, outermost first. Computations are nested,
so that a request for a name in progress comes from its own computation. -/
structure VariableCache where
  slots : List (String × Slot) := []
  pending : List String := []
  deriving DecidableEq, Repr

namespace VariableCache

def slot? (cache : VariableCache) (name : String) : Option Slot := cache.slots.lookup name

def others (cache : VariableCache) (name : String) : List (String × Slot) :=
  cache.slots.filter (·.1 != name)

def set (cache : VariableCache) (name : String) (slot : Slot) : VariableCache :=
  { cache with slots := (name, slot) :: cache.others name }

def leave (cache : VariableCache) (name : String) : VariableCache :=
  { cache with pending := cache.pending.filter (· != name) }

def cycle (cache : VariableCache) (name : String) : List String :=
  cache.pending.dropWhile (· != name) ++ [name]

def start (cache : VariableCache) (name : String) : VariableCache :=
  { cache.set name .inProgress with pending := cache.pending ++ [name] }

/-- Asks to compute a variable. It is refused while that is in progress. -/
def claim (cache : VariableCache) (name : String) : Except Error (Claim × VariableCache) :=
  match cache.slot? name with
  | some (.resolved value) => .ok (.cached value, cache)
  | some .inProgress => .error (.cyclicReference (cache.cycle name))
  | none => .ok (.started, cache.start name)

def finish (cache : VariableCache) (name : String) (value : Value) : VariableCache :=
  (cache.leave name).set name (.resolved value)

/-- Takes back a claim whose computation failed, so that a later request starts anew. -/
def abandon (cache : VariableCache) (name : String) : VariableCache :=
  match cache.slot? name with
  | some .inProgress => { cache.leave name with slots := cache.others name }
  | _ => cache.leave name

def isResolved (cache : VariableCache) (name : String) : Bool :=
  match cache.slot? name with
  | some (.resolved _) => true
  | _ => false

def bindings (cache : VariableCache) : List (String × String) :=
  cache.slots.filterMap fun
    | (name, .resolved (some value)) => some (name, value)
    | _ => none

theorem slot?_set (cache : VariableCache) (name other : String) (slot : Slot) :
    (cache.set name slot).slot? other = if other = name then some slot else cache.slot? other := by
  rw [slot?, set, Binding.lookup_cons_eq_ite, others, Binding.lookup_filter_ne]
  split <;> rfl

theorem slot?_start (cache : VariableCache) (name other : String) :
    (cache.start name).slot? other =
      if other = name then some .inProgress else cache.slot? other :=
  slot?_set cache name other _

theorem slot?_finish (cache : VariableCache) (name other : String) (value : Value) :
    (cache.finish name value).slot? other =
      if other = name then some (.resolved value) else cache.slot? other :=
  slot?_set (cache.leave name) name other _

theorem slot?_abandon {cache : VariableCache} {name : String}
    (h : cache.slot? name = some .inProgress) (other : String) :
    (cache.abandon name).slot? other = if other = name then none else cache.slot? other := by
  rw [abandon, h]
  exact Binding.lookup_filter_ne name other _

@[simp] theorem pending_start (cache : VariableCache) (name : String) :
    (cache.start name).pending = cache.pending ++ [name] := rfl

@[simp] theorem pending_finish (cache : VariableCache) (name : String) (value : Value) :
    (cache.finish name value).pending = cache.pending.filter (· != name) := rfl

@[simp] theorem pending_abandon (cache : VariableCache) (name : String) :
    (cache.abandon name).pending = cache.pending.filter (· != name) := by
  unfold abandon
  split <;> rfl

theorem cycle_eq {cache : VariableCache} {name : String} {before behind : List String}
    (h : cache.pending = before ++ name :: behind) (hn : name ∉ before) :
    cache.cycle name = name :: behind ++ [name] := by
  have hbefore : ∀ other ∈ before, (other != name) = true := by
    intro other hm
    rw [bne_iff_ne]
    rintro rfl
    exact hn hm
  rw [cycle, h, List.dropWhile_append_of_pos hbefore, List.dropWhile_cons_of_neg (by simp)]

def names (cache : VariableCache) : List String := cache.slots.map (·.1)

theorem nodup_names_set {cache : VariableCache} (h : cache.names.Nodup) (name : String)
    (slot : Slot) : (cache.set name slot).names.Nodup := by
  refine List.nodup_cons.mpr ⟨?_, (List.filter_sublist.map _).nodup h⟩
  simp [others]

theorem nodup_names_start {cache : VariableCache} (h : cache.names.Nodup) (name : String) :
    (cache.start name).names.Nodup := nodup_names_set h name _

theorem nodup_names_finish {cache : VariableCache} (h : cache.names.Nodup) (name : String)
    (value : Value) : (cache.finish name value).names.Nodup := by
  have hl : (cache.leave name).names.Nodup := h
  exact nodup_names_set hl name _

theorem nodup_names_abandon {cache : VariableCache} (h : cache.names.Nodup) (name : String) :
    (cache.abandon name).names.Nodup := by
  unfold abandon
  split
  · exact (List.filter_sublist.map _).nodup h
  · exact h

theorem mem_bindings_iff {cache : VariableCache} (h : cache.names.Nodup) {name value : String} :
    (name, value) ∈ cache.bindings ↔ cache.slot? name = some (.resolved (some value)) := by
  rw [slot?, Binding.lookup_eq_some_iff h, bindings, List.mem_filterMap]
  constructor
  · rintro ⟨⟨n, slot⟩, hm, he⟩
    split at he
    · simp_all
    · cases he
  · intro hm
    exact ⟨_, hm, rfl⟩

theorem nodup_map_bindings {cache : VariableCache} (h : cache.names.Nodup) :
    (cache.bindings.map (·.1)).Nodup := by
  refine List.pairwise_map.mpr ((List.pairwise_map.mp h).filterMap _ ?_)
  rintro ⟨m, _ | _ | v⟩ ⟨n, _ | _ | w⟩ hne b hb c hc <;> cases hb <;> cases hc
  exact hne

end VariableCache
end LayeredEnv
