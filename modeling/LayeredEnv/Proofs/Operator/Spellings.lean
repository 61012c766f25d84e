import LayeredEnv.Operator.Table
import Mathlib

namespace LayeredEnv

namespace Text

theorem splitOn_eq (sep : Char) (cs : List Char) : splitOn sep cs = cs.splitOn sep := by
  induction cs with
  | nil => rfl
  | cons c cs ih =>
    rw [splitOn, List.splitOn_cons_eq_if_modifyHead, ih]
    split
    · rfl
    · cases h : cs.splitOn sep with
      | nil => exact absurd h (List.splitOn_ne_nil sep cs)
      | cons piece pieces => rfl

theorem notMem_of_mem_splitOn {sep : Char} {cs piece : List Char} (h : piece ∈ splitOn sep cs) :
    sep ∉ piece := by
  fun_induction splitOn sep cs generalizing piece with
  | case1 =>
    rw [List.mem_singleton.mp h]
    exact List.not_mem_nil
  | case2 c cs hc ih =>
    obtain rfl | h := List.mem_cons.mp h
    · exact List.not_mem_nil
    · exact ih h
  | case3 c cs hc hnil ih =>
    have hne : sep ≠ c := fun he => hc (by rw [he, beq_self_eq_true])
    rw [List.mem_singleton.mp h]
    exact fun hm => hne (List.mem_singleton.mp hm)
  | case4 c cs hc first pieces he ih =>
    have hne : sep ≠ c := fun he => hc (by rw [he, beq_self_eq_true])
    rw [he] at ih
    obtain rfl | h := List.mem_cons.mp h
    · exact fun hm => (List.mem_cons.mp hm).elim hne (ih List.mem_cons_self)
    · exact ih (List.mem_cons_of_mem _ h)

end Text

theorem map_toList_segments (spelling : String) :
    (segments spelling).map String.toList = spelling.toList.splitOn ',' := by
  have hid : String.toList ∘ String.ofList = id := funext fun _ => String.toList_ofList
  rw [segments, List.map_map, hid, List.map_id, Text.splitOn_eq]

theorem segments_ne_nil (spelling : String) : segments spelling ≠ [] := by
  rw [segments, Text.splitOn_eq]
  exact fun h => List.splitOn_ne_nil _ _ (List.map_eq_nil_iff.mp h)

theorem intercalate_segments (spelling : String) :
    ",".intercalate (segments spelling) = spelling := by
  rw [← String.toList_inj, String.toList_intercalate, map_toList_segments]
  exact List.intercalate_splitOn ','

/-- A spelling and its symbols determine each other, as long as no symbol has a comma. -/
theorem segments_eq_iff {spelling : String} {symbols : List String} :
    segments spelling = symbols ↔
      symbols ≠ [] ∧ (∀ s ∈ symbols, ',' ∉ s.toList) ∧ ",".intercalate symbols = spelling := by
  constructor
  · rintro rfl
    refine ⟨segments_ne_nil spelling, fun s hs => ?_, intercalate_segments spelling⟩
    obtain ⟨piece, hpiece, rfl⟩ := List.mem_map.mp hs
    rw [String.toList_ofList]
    exact Text.notMem_of_mem_splitOn hpiece
  · rintro ⟨hne, hcomma, rfl⟩
    have hsplit : ([','].intercalate (symbols.map String.toList)).splitOn ',' =
        symbols.map String.toList :=
      List.splitOn_intercalate ',' (by simpa using hcomma) (by simpa using hne)
    have hmap : (segments (",".intercalate symbols)).map String.toList =
        symbols.map String.toList := by
      rw [map_toList_segments, String.toList_intercalate]
      exact hsplit
    exact List.map_injective_iff.mpr (fun _ _ h => String.toList_inj.mp h) hmap

/-- A repeat is reported where the list, together with what was seen before, first has one. -/
theorem firstRepeat_eq_some_iff {seen l : List String} {s : String} :
    firstRepeat seen l = some s ↔ ∃ before after, l = before ++ s :: after ∧
      before.Nodup ∧ (∀ t ∈ before, t ∉ seen) ∧ (s ∈ before ∨ s ∈ seen) := by
  induction l generalizing seen with
  | nil => simp [firstRepeat]
  | cons first rest ih =>
    rw [firstRepeat]
    split
    · next hseen =>
      constructor
      · rintro ⟨⟩
        exact ⟨[], rest, rfl, List.nodup_nil, by simp, .inr hseen⟩
      · rintro ⟨_ | ⟨b, before⟩, after, he, -, hnew, -⟩
        · rw [(List.cons.inj he).1]
        · rw [(List.cons.inj he).1] at hseen
          exact absurd hseen (hnew b List.mem_cons_self)
    · next hseen =>
      rw [ih]
      constructor
      · rintro ⟨before, after, rfl, hdup, hnew, hs⟩
        refine ⟨first :: before, after, rfl, ?_, ?_, ?_⟩
        · exact List.nodup_cons.mpr ⟨fun h => hnew _ h List.mem_cons_self, hdup⟩
        · rintro t ht hts
          obtain rfl | ht := List.mem_cons.mp ht
          · exact hseen hts
          · exact hnew t ht (List.mem_cons_of_mem _ hts)
        · simp only [List.mem_cons] at hs ⊢
          tauto
      · rintro ⟨_ | ⟨b, before⟩, after, he, hdup, hnew, hs⟩
        · obtain rfl := (List.cons.inj he).1
          exact absurd (hs.resolve_left List.not_mem_nil) hseen
        · obtain ⟨rfl, rfl⟩ := List.cons.inj he
          obtain ⟨hfirst, hdup⟩ := List.nodup_cons.mp hdup
          refine ⟨before, after, rfl, hdup, fun t ht hts => ?_, ?_⟩
          · obtain rfl | hts := List.mem_cons.mp hts
            · exact hfirst ht
            · exact hnew t (List.mem_cons_of_mem _ ht) hts
          · simp only [List.mem_cons] at hs ⊢
            tauto

namespace OperatorTable

variable {operators : List Operator} {table : OperatorTable} {spelling : String}
  {operator : Operator} {prior : List String} {next : String}

/-- A table is made of nothing but its operators. -/
theorem ofOperators_eq_ok_iff : ofOperators operators = .ok table ↔ table.operators = operators := by
  constructor
  · intro h
    unfold ofOperators at h
    split at h <;> cases h
    rfl
  · rintro rfl
    unfold ofOperators
    split
    · next hrepeat =>
      have hnone := firstRepeat_eq_none_iff.mpr ⟨table.nodup, fun s _ => List.not_mem_nil⟩
      rw [hnone] at hrepeat
      cases hrepeat
    · rfl

theorem exists_ofOperators_iff :
    (∃ table, ofOperators operators = .ok table) ↔ (spellings operators).Nodup := by
  simp only [ofOperators_eq_ok_iff]
  constructor
  · rintro ⟨table, rfl⟩
    exact table.nodup
  · intro h
    exact ⟨⟨operators, h⟩, rfl⟩

theorem ofOperators_eq_error_iff {e : Error} :
    ofOperators operators = .error e ↔ ∃ before s after, spellings operators = before ++ s :: after ∧
      before.Nodup ∧ s ∈ before ∧ e = .duplicateOperator s := by
  have hrepeat : ofOperators operators = .error e ↔
      ∃ s, firstRepeat [] (spellings operators) = some s ∧ e = .duplicateOperator s := by
    unfold ofOperators
    split
    · next s hs => simp [hs, eq_comm]
    · next hs => simp [hs]
  rw [hrepeat]
  simp only [firstRepeat_eq_some_iff]
  constructor
  · rintro ⟨s, ⟨before, after, hl, hdup, -, hs⟩, rfl⟩
    exact ⟨before, s, after, hl, hdup, hs.resolve_right List.not_mem_nil, rfl⟩
  · rintro ⟨before, s, after, hl, hdup, hs, rfl⟩
    exact ⟨s, ⟨before, after, hl, hdup, fun t _ => List.not_mem_nil, .inl hs⟩, rfl⟩

theorem mem_spellings : spelling ∈ spellings operators ↔ ∃ o ∈ operators, spelling ∈ o.symbols := by
  rw [spellings, List.mem_flatMap]

/-- No two entries, at whatever places, list one spelling. -/
theorem eq_of_mem_symbols (h : (spellings operators).Nodup) {i j : Fin operators.length}
    (hi : spelling ∈ operators[i].symbols) (hj : spelling ∈ operators[j].symbols) : i = j := by
  have hdisjoint := List.pairwise_iff_getElem.mp (List.nodup_flatMap.mp h).2
  rcases lt_trichotomy i j with hlt | he | hlt
  · exact absurd hj (hdisjoint i j i.isLt j.isLt hlt hi)
  · exact he
  · exact absurd hi (hdisjoint j i j.isLt i.isLt hlt hj)

theorem find?_eq_none_iff : table.find? spelling = none ↔ spelling ∉ spellings table.operators := by
  rw [find?, List.find?_eq_none, mem_spellings]
  simp

theorem find?_eq_getElem {i : Fin table.operators.length}
    (h : spelling ∈ table.operators[i].symbols) : table.find? spelling = some table.operators[i] := by
  cases hfind : table.find? spelling with
  | none => exact absurd (mem_spellings.mpr ⟨_, List.getElem_mem _, h⟩) (find?_eq_none_iff.mp hfind)
  | some operator =>
    have hlists : spelling ∈ operator.symbols := by simpa using List.find?_some hfind
    obtain ⟨j, hj, rfl⟩ := List.mem_iff_getElem.mp (List.mem_of_find?_eq_some hfind)
    have he : (⟨j, hj⟩ : Fin table.operators.length) = i := eq_of_mem_symbols table.nodup hlists h
    subst he
    rfl

theorem continues_iff : table.continues prior next = true ↔
    ∃ s ∈ spellings table.operators, prior ++ [next] <+: segments s := by
  rw [continues, List.any_eq_true]
  simp only [List.isPrefixOf_iff_prefix]

theorem continues_of_append {symbol : String} (h : table.continues (prior ++ [symbol]) next = true) :
    table.continues prior symbol = true := by
  obtain ⟨s, hs, hprefix⟩ := continues_iff.mp h
  exact continues_iff.mpr ⟨s, hs, (List.prefix_append _ _).trans hprefix⟩

theorem continues_of_segments {s : String} (hs : s ∈ spellings table.operators)
    {after : List String} (h : segments s = prior ++ next :: after) :
    table.continues prior next = true := by
  refine continues_iff.mpr ⟨s, hs, after, ?_⟩
  rw [h, List.append_assoc, List.singleton_append]

/-- What is let through symbol by symbol can be brought to an end with a spelling of the table. -/
theorem continues_iff_exists_find? : table.continues prior next = true ↔
    ∃ after, (∀ s ∈ prior ++ next :: after, ',' ∉ s.toList) ∧
      (table.find? (",".intercalate (prior ++ next :: after))).isSome = true := by
  have hfind : ∀ s, (table.find? s).isSome = true ↔ s ∈ spellings table.operators := by
    intro s
    rw [← Option.not_isNone, Bool.not_eq_true', ← Bool.not_eq_true, Option.isNone_iff_eq_none,
      find?_eq_none_iff, not_not]
  simp only [hfind]
  constructor
  · intro h
    obtain ⟨s, hs, after, he⟩ := continues_iff.mp h
    rw [List.append_assoc, List.singleton_append, eq_comm, segments_eq_iff] at he
    obtain ⟨-, hcomma, rfl⟩ := he
    exact ⟨after, hcomma, hs⟩
  · rintro ⟨after, hcomma, hs⟩
    exact continues_of_segments hs (segments_eq_iff.mpr ⟨by simp, hcomma, rfl⟩)

/-- What a table answers that is made of the operators. -/
structure Indexes (table : OperatorTable) (operators : List Operator) : Prop where
  /-- A spelling has exactly one entry, which is found by it. -/
  found : ∀ s ∈ spellings operators, ∃ i : Fin operators.length,
    table.find? s = some operators[i] ∧ ∀ j : Fin operators.length, s ∈ operators[j].symbols ↔ j = i
  notFound : ∀ s ∉ spellings operators, table.find? s = none
  continues_iff : ∀ prior next, table.continues prior next = true ↔
    ∃ s ∈ spellings operators, prior ++ [next] <+: segments s
  continues_of_append : ∀ prior symbol next, table.continues (prior ++ [symbol]) next = true →
    table.continues prior symbol = true
  /-- Each symbol of a spelling continues those before it, and the symbols joined are the spelling. -/
  reached : ∀ s ∈ spellings operators, ",".intercalate (segments s) = s ∧
    ∀ before symbol after, segments s = before ++ symbol :: after →
      table.continues before symbol = true
  /-- Whatever continues can be brought to an end with a spelling that is found. -/
  completed : ∀ prior next, table.continues prior next = true ↔
    ∃ after, (∀ s ∈ prior ++ next :: after, ',' ∉ s.toList) ∧
      (table.find? (",".intercalate (prior ++ next :: after))).isSome = true

/-- A table is made of any operators whose spellings are distinct, and then finds exactly those
spellings, whole and symbol by symbol. Otherwise the first spelling that repeats an earlier one is
refused. -/
theorem ofOperators_indexes (operators : List Operator) :
    ((∃ table, ofOperators operators = .ok table) ↔ (spellings operators).Nodup) ∧
      (∀ e, ofOperators operators = .error e ↔
        ∃ before s after, spellings operators = before ++ s :: after ∧
          before.Nodup ∧ s ∈ before ∧ e = .duplicateOperator s) ∧
      ∀ table, ofOperators operators = .ok table → table.Indexes operators := by
  refine ⟨exists_ofOperators_iff, fun e => ofOperators_eq_error_iff, fun table h => ?_⟩
  obtain rfl := ofOperators_eq_ok_iff.mp h
  refine ⟨fun s hs => ?_, fun s hs => find?_eq_none_iff.mpr hs, fun _ _ => continues_iff,
    fun _ _ _ => continues_of_append, fun s hs => ⟨intercalate_segments s, fun _ _ _ he => ?_⟩,
    fun _ _ => continues_iff_exists_find?⟩
  · obtain ⟨operator, hmem, hlists⟩ := mem_spellings.mp hs
    obtain ⟨i, hi, rfl⟩ := List.mem_iff_getElem.mp hmem
    refine ⟨⟨i, hi⟩, find?_eq_getElem hlists, fun j => ⟨fun hj => ?_, ?_⟩⟩
    · exact eq_of_mem_symbols table.nodup hj hlists
    · rintro rfl
      exact hlists
  · exact continues_of_segments hs he

def sharing : OperatorTable where
  operators := [⟨["", ":,:"], .value⟩, ⟨[":,", ","], .choose⟩]
  nodup := by decide

theorem ofOperators_indexes_sharing : ofOperators sharing.operators = .ok sharing ∧
    sharing.continues [":"] "" = true ∧ sharing.continues [""] "" = true ∧
    sharing.find? ",:" = none := by
  have hok : ofOperators sharing.operators = .ok sharing := ofOperators_eq_ok_iff.mpr rfl
  have h := (ofOperators_indexes sharing.operators).2.2 sharing hok
  refine ⟨hok, ?_, ?_, h.notFound ",:" (by decide)⟩
  · exact (h.reached ":," (by decide)).2 [":"] "" [] (by decide)
  · exact (h.reached "," (by decide)).2 [""] "" [] (by decide)

end OperatorTable
end LayeredEnv
