import LayeredEnv.Assembly
import Mathlib.Data.List.Induction
import Mathlib.Data.List.Nodup

namespace LayeredEnv.VariableCache

/-- A use of the cache that may change it. -/
inductive Call where
  | claim (name : String)
  | finish (name : String) (value : Value)
  | abandon (name : String)

def Call.apply (cache : VariableCache) : Call → VariableCache
  | claim name => (request name cache).2
  | finish name value => cache.finish name value
  | abandon name => cache.abandon name

def after (calls : List Call) : VariableCache := calls.foldl Call.apply {}

def Call.recorded? (name : String) : Call → Option Value
  | finish other value => if name = other then some value else none
  | _ => none

def recorded? (calls : List Call) (name : String) : Option Value :=
  (calls.filterMap (Call.recorded? name)).getLast?

/-- Call number `i` claims `name`, and is not refused. -/
def ClaimedAt (calls : List Call) (name : String) (i : ℕ) : Prop :=
  calls[i]? = some (.claim name) ∧
    ∃ claim, (request name (after (calls.take i))).1 = .ok claim

/-- The latest claim of `name` that was not refused is call number `i`. -/
def LastClaimedAt (calls : List Call) (name : String) (i : ℕ) : Prop :=
  ClaimedAt calls name i ∧ ∀ j, ClaimedAt calls name j → j ≤ i

variable {cache : VariableCache} {calls more : List Call} {call : Call} {name other : String}
  {value : Value} {i : ℕ}

theorem request_apply (name : String) (cache : VariableCache) :
    request name cache =
      match cache.slot? name with
      | some (.resolved value) => (.ok (.cached value), cache)
      | some .inProgress => (.error (.cyclicReference (cache.cycle name)), cache)
      | none => (.ok .started, cache.start name) := by
  rw [request, claim]
  cases cache.slot? name with
  | none => rfl
  | some slot => cases slot <;> rfl

theorem request_eq_error_iff {error : Error} :
    (request name cache).1 = .error error ↔
      cache.slot? name = some .inProgress ∧ error = .cyclicReference (cache.cycle name) := by
  rw [request_apply]
  split
  · next h => simp [h]
  · next h => simp [h, eq_comm]
  · next h => simp [h]

theorem after_concat (calls : List Call) (call : Call) :
    after (calls ++ [call]) = call.apply (after calls) := by
  rw [after, List.foldl_append]
  rfl

/-- The names in progress are pending, each once, and every variable has one slot. -/
structure Tidy (cache : VariableCache) : Prop where
  mem_pending_iff : ∀ name, name ∈ cache.pending ↔ cache.slot? name = some .inProgress
  nodup_pending : cache.pending.Nodup
  nodup_names : cache.names.Nodup

theorem Tidy.empty : Tidy {} := ⟨fun _ => ⟨nofun, nofun⟩, .nil, .nil⟩

theorem Tidy.start (h : cache.Tidy) (hn : cache.slot? name = none) : (cache.start name).Tidy where
  mem_pending_iff other := by
    rw [pending_start, slot?_start, List.mem_append, List.mem_singleton, h.mem_pending_iff]
    by_cases ho : other = name
    · simp [ho]
    · simp [ho]
  nodup_pending := by
    have hfresh : name ∉ cache.pending := by
      rw [h.mem_pending_iff, hn]
      exact nofun
    rw [pending_start]
    exact List.nodup_append.mpr ⟨h.nodup_pending, List.nodup_singleton name,
      fun other ho last hl he => hfresh (List.mem_singleton.mp hl ▸ he ▸ ho)⟩
  nodup_names := nodup_names_start h.nodup_names name

/-- A name that is pending no more leaves the other ones in progress. -/
theorem Tidy.left (h : cache.Tidy) {next : VariableCache} {slot : Option Slot}
    (hpending : next.pending = cache.pending.filter (· != name))
    (hslot : ∀ other, next.slot? other = if other = name then slot else cache.slot? other)
    (hne : slot ≠ some .inProgress) (hnames : next.names.Nodup) : next.Tidy where
  mem_pending_iff other := by
    rw [hpending, hslot, List.mem_filter, bne_iff_ne, h.mem_pending_iff]
    by_cases ho : other = name
    · simp [ho, hne]
    · simp [ho]
  nodup_pending := by
    rw [hpending]
    exact h.nodup_pending.filter _
  nodup_names := hnames

/-- What is not in progress has no claim that could be taken back. -/
theorem Tidy.abandon_of_ne (h : cache.Tidy) (hn : cache.slot? name ≠ some .inProgress) :
    cache.abandon name = cache := by
  have hkeep : cache.pending.filter (· != name) = cache.pending := by
    refine List.filter_eq_self.mpr fun other ho => bne_iff_ne.mpr ?_
    rintro rfl
    exact hn ((h.mem_pending_iff other).mp ho)
  have habandon : cache.abandon name = cache.leave name := by
    unfold abandon
    split
    · next hs => exact absurd hs hn
    · rfl
  rw [habandon, leave, hkeep]

theorem Tidy.apply (h : cache.Tidy) (call : Call) : (call.apply cache).Tidy := by
  cases call with
  | claim name =>
    rw [Call.apply, request_apply]
    split
    · exact h
    · exact h
    · next hn => exact h.start hn
  | finish name value =>
    exact h.left (pending_finish ..) (slot?_finish cache name · value) nofun
      (nodup_names_finish h.nodup_names name value)
  | abandon name =>
    rw [Call.apply]
    by_cases hn : cache.slot? name = some .inProgress
    · exact h.left (pending_abandon ..) (slot?_abandon hn) nofun
        (nodup_names_abandon h.nodup_names name)
    · rw [h.abandon_of_ne hn]
      exact h

theorem tidy_after (calls : List Call) : (after calls).Tidy := by
  induction calls using List.reverseRecOn with
  | nil => exact .empty
  | append_singleton calls call ih =>
    rw [after_concat]
    exact ih.apply call

/-- Only a claim adds a name to those that are pending, and it comes last. -/
theorem pending_apply (cache : VariableCache) (call : Call) :
    (call.apply cache).pending.Sublist cache.pending ∨
      ∃ name, call = .claim name ∧ (request name cache).1 = .ok .started ∧
        (call.apply cache).pending = cache.pending ++ [name] := by
  cases call with
  | claim name =>
    rw [Call.apply, request_apply]
    split
    · exact Or.inl (List.Sublist.refl _)
    · exact Or.inl (List.Sublist.refl _)
    · next hn => exact Or.inr ⟨name, rfl, by rw [request_apply, hn], pending_start cache name⟩
  | finish name value => exact Or.inl List.filter_sublist
  | abandon name =>
    rw [Call.apply, pending_abandon]
    exact Or.inl List.filter_sublist

theorem ClaimedAt.lt (h : ClaimedAt calls name i) : i < calls.length :=
  (List.getElem?_eq_some_iff.mp h.1).1

theorem claimedAt_concat : ClaimedAt (calls ++ [call]) name i ↔
    ClaimedAt calls name i ∨
      i = calls.length ∧ call = .claim name ∧
        ∃ claim, (request name (after calls)).1 = .ok claim := by
  unfold ClaimedAt
  rcases Nat.lt_trichotomy i calls.length with h | rfl | h
  · have hne : i ≠ calls.length := by omega
    rw [List.getElem?_append_left h, List.take_append_of_le_length (by omega)]
    simp [hne]
  · rw [List.getElem?_concat_length, List.take_left]
    simp
  · have hne : i ≠ calls.length := by omega
    have hlong : (calls ++ [call]).length ≤ i := by
      rw [List.length_append, List.length_singleton]
      omega
    rw [List.getElem?_eq_none hlong, List.getElem?_eq_none (by omega)]
    simp [hne]

/-- A name that is pending is not claimed again. -/
theorem LastClaimedAt.concat (h : LastClaimedAt calls name i) (hp : name ∈ (after calls).pending)
    (call : Call) : LastClaimedAt (calls ++ [call]) name i := by
  refine ⟨claimedAt_concat.mpr (Or.inl h.1), fun j hj => ?_⟩
  rcases claimedAt_concat.mp hj with hj | ⟨-, -, claim, hclaim⟩
  · exact h.2 j hj
  · have hprogress := ((tidy_after calls).mem_pending_iff name).mp hp
    rw [request_eq_error_iff.mpr ⟨hprogress, rfl⟩] at hclaim
    cases hclaim

theorem lastClaimedAt_concat {claim : Claim} (h : (request name (after calls)).1 = .ok claim) :
    LastClaimedAt (calls ++ [.claim name]) name calls.length := by
  refine ⟨claimedAt_concat.mpr (Or.inr ⟨rfl, rfl, claim, h⟩), fun j hj => ?_⟩
  have hlt := hj.lt
  rw [List.length_append, List.length_singleton] at hlt
  omega

def ClaimedBefore (calls : List Call) (name other : String) : Prop :=
  ∃ i j, LastClaimedAt calls name i ∧ LastClaimedAt calls other j ∧ i < j

theorem exists_lastClaimedAt (calls : List Call) :
    ∀ name ∈ (after calls).pending, ∃ i, LastClaimedAt calls name i := by
  induction calls using List.reverseRecOn with
  | nil => exact nofun
  | append_singleton calls call ih =>
    have hold : ∀ name ∈ (after calls).pending, ∃ i, LastClaimedAt (calls ++ [call]) name i :=
      fun name hm => (ih name hm).imp fun i h => h.concat hm call
    rw [after_concat]
    rcases pending_apply (after calls) call with hs | ⟨last, rfl, hstarted, hp⟩
    · exact fun name hm => hold name (hs.subset hm)
    · rw [hp, List.forall_mem_append]
      exact ⟨hold, List.forall_mem_singleton.mpr ⟨_, lastClaimedAt_concat hstarted⟩⟩

theorem pairwise_claimedBefore (calls : List Call) :
    (after calls).pending.Pairwise (ClaimedBefore calls) := by
  induction calls using List.reverseRecOn with
  | nil => exact .nil
  | append_singleton calls call ih =>
    have hold : (after calls).pending.Pairwise (ClaimedBefore (calls ++ [call])) :=
      ih.imp_of_mem fun ha hb ⟨i, j, hi, hj, hlt⟩ =>
        ⟨i, j, hi.concat ha call, hj.concat hb call, hlt⟩
    rw [after_concat]
    rcases pending_apply (after calls) call with hs | ⟨last, rfl, hstarted, hp⟩
    · exact hold.sublist hs
    · rw [hp]
      -- the name behind all others was claimed last
      refine List.pairwise_append.mpr
        ⟨hold, List.pairwise_singleton _ _, fun name hm other ho => ?_⟩
      obtain rfl := List.mem_singleton.mp ho
      obtain ⟨i, hi⟩ := exists_lastClaimedAt calls name hm
      exact ⟨i, calls.length, hi.concat hm _, lastClaimedAt_concat hstarted, hi.1.lt⟩

theorem recorded?_append (calls more : List Call) (name : String) :
    recorded? (calls ++ more) name = (recorded? more name).or (recorded? calls name) := by
  rw [recorded?, List.filterMap_append, List.getLast?_append]
  rfl

/-- A call gives a variable the value that it records, and no other call changes a value. -/
theorem slot?_apply_eq_resolved_iff (call : Call) :
    (call.apply cache).slot? name = some (.resolved value) ↔
      call.recorded? name = some value ∨
        call.recorded? name = none ∧ cache.slot? name = some (.resolved value) := by
  cases call with
  | claim other =>
    rw [Call.apply, request_apply]
    simp only [Call.recorded?, reduceCtorEq, false_or, true_and]
    split
    · exact Iff.rfl
    · exact Iff.rfl
    · next hn =>
      rw [slot?_start]
      split
      · next he => simp [he, hn]
      · exact Iff.rfl
  | finish other v =>
    rw [Call.apply, slot?_finish, Call.recorded?]
    split <;> simp
  | abandon other =>
    simp only [Call.recorded?, reduceCtorEq, false_or, true_and]
    by_cases hn : cache.slot? other = some .inProgress
    · rw [Call.apply, slot?_abandon hn]
      split
      · next he => simp [he, hn]
      · exact Iff.rfl
    · rw [Call.apply, abandon]
      split
      · next hs => exact absurd hs hn
      · exact Iff.rfl

/-- The value of a variable is the one that was recorded last. -/
theorem slot?_after_eq_resolved_iff (calls : List Call) (name : String) (value : Value) :
    (after calls).slot? name = some (.resolved value) ↔ recorded? calls name = some value := by
  induction calls using List.reverseRecOn with
  | nil => exact ⟨nofun, nofun⟩
  | append_singleton calls call ih =>
    have hone : recorded? [call] name = call.recorded? name := by
      unfold recorded?
      cases h : call.recorded? name <;> simp [h]
    rw [after_concat, slot?_apply_eq_resolved_iff, ih, recorded?_append, hone,
      Option.or_eq_some_iff]

theorem isResolved_iff : cache.isResolved name = true ↔
    ∃ value, cache.slot? name = some (.resolved value) := by
  unfold isResolved
  split
  · next h => simp [h]
  · next h => exact ⟨nofun, fun ⟨value, hv⟩ => (h value hv).elim⟩

/-- The environment has what was recorded last, where that is set. -/
theorem get?_ofList_bindings (calls : List Call) (name text : String) :
    (Environment.ofList (after calls).bindings).get? name = some text ↔
      recorded? calls name = some (some text) := by
  have hnames := (tidy_after calls).nodup_names
  have hbindings := nodup_map_bindings hnames
  rw [Environment.get?_ofList hbindings, Binding.lookup_eq_some_iff hbindings,
    mem_bindings_iff hnames, slot?_after_eq_resolved_iff]

/-- After any calls, the names in progress are pending, each once, in the order of their latest
claims. A variable that has a value keeps it until another one is recorded. A claim is refused
exactly for a name in progress; that changes nothing, and the names from it on are reported. The
environment has the values recorded last, where they are set. -/
theorem calls_keep_cache (calls : List Call) :
    ((after calls).pending.Nodup ∧
      (∀ name, name ∈ (after calls).pending ↔ (after calls).slot? name = some .inProgress) ∧
      (∀ name ∈ (after calls).pending, ∃ i, LastClaimedAt calls name i) ∧
      (after calls).pending.Pairwise (ClaimedBefore calls)) ∧
    (∀ name value, (after calls).slot? name = some (.resolved value) → ∀ more,
      (after (calls ++ more)).slot? name =
        some (.resolved ((recorded? more name).getD value))) ∧
    ((∀ name, (∃ error, (request name (after calls)).1 = .error error) ↔
        (after calls).slot? name = some .inProgress) ∧
      ∀ name error, (request name (after calls)).1 = .error error →
        (request name (after calls)).2 = after calls ∧
        ∃ before behind, (after calls).pending = before ++ name :: behind ∧
          error = .cyclicReference (name :: behind ++ [name])) ∧
    (∀ name, (after calls).isResolved name = (recorded? calls name).isSome) ∧
    ∀ name text, (Environment.ofList (after calls).bindings).get? name = some text ↔
      recorded? calls name = some (some text) := by
  have htidy := tidy_after calls
  refine ⟨⟨htidy.nodup_pending, htidy.mem_pending_iff, exists_lastClaimedAt calls,
    pairwise_claimedBefore calls⟩, ?_, ⟨?_, ?_⟩, ?_, get?_ofList_bindings calls⟩
  · intro name value h more
    rw [slot?_after_eq_resolved_iff] at h
    rw [slot?_after_eq_resolved_iff, recorded?_append, h, Option.or_some]
  · intro name
    simp only [request_eq_error_iff, exists_and_left, exists_eq, and_true]
  · intro name error h
    obtain ⟨hprogress, rfl⟩ := request_eq_error_iff.mp h
    refine ⟨by rw [request_apply, hprogress], ?_⟩
    have hm := (htidy.mem_pending_iff name).mpr hprogress
    obtain ⟨before, behind, hp, hbefore⟩ := List.eq_append_cons_of_mem hm
    exact ⟨before, behind, hp, congrArg Error.cyclicReference (cycle_eq hp hbefore)⟩
  · intro name
    rw [Bool.eq_iff_iff, isResolved_iff, Option.isSome_iff_exists]
    simp only [slot?_after_eq_resolved_iff]

/-- A value that was recorded without a claim, a claim that was taken back and made anew behind
another one, and one that is refused. -/
theorem calls_keep_cache_claimedAnew :
    let calls : List Call := [.claim "A", .finish "F" (some "1"), .claim "B", .abandon "A",
      .claim "A", .claim "B", .finish "U" none]
    (after calls).slot? "F" = some (.resolved (some "1")) ∧
      (after (calls ++ [.abandon "F", .finish "F" none])).slot? "F" = some (.resolved none) ∧
      (request "B" (after calls)).1 = .error (.cyclicReference ["B", "A", "B"]) ∧
      (request "B" (after calls)).2 = after calls := by
  intro calls
  obtain ⟨-, hvalues, ⟨-, hrefused⟩, -⟩ := calls_keep_cache calls
  have hfound : (after calls).slot? "F" = some (.resolved (some "1")) := by decide
  have hcycle : (request "B" (after calls)).1 = .error (.cyclicReference ["B", "A", "B"]) := rfl
  exact ⟨hfound, hvalues "F" _ hfound [.abandon "F", .finish "F" none], hcycle,
    (hrefused "B" _ hcycle).1⟩

end LayeredEnv.VariableCache
