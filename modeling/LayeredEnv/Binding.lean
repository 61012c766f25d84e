namespace LayeredEnv.Binding

variable {β : Type}

theorem lookup_cons_eq_ite (name other : String) (b : β) (l : List (String × β)) :
    ((name, b) :: l).lookup other = if other = name then some b else l.lookup other := by
  rw [List.lookup_cons]
  by_cases h : other = name
  · simp [h]
  · rw [beq_false_of_ne h, if_neg h]

theorem lookup_filter_ne (name other : String) (l : List (String × β)) :
    (l.filter (·.1 != name)).lookup other = if other = name then none else l.lookup other := by
  induction l with
  | nil => simp only [List.filter_nil, List.lookup_nil, ite_self]
  | cons a rest ih =>
    obtain ⟨n, b⟩ := a
    by_cases hn : n = name
    · rw [List.filter_cons_of_neg (by simp [hn]), ih, lookup_cons_eq_ite, hn]
      split <;> rfl
    · rw [List.filter_cons_of_pos (by simp [hn]), lookup_cons_eq_ite, lookup_cons_eq_ite, ih]
      by_cases ho : other = n
      · rw [if_pos ho, if_pos ho, if_neg (ho ▸ hn)]
      · simp only [if_neg ho]

theorem mem_of_lookup {name : String} {b : β} {l : List (String × β)}
    (h : l.lookup name = some b) : (name, b) ∈ l := by
  induction l with
  | nil => cases h
  | cons a rest ih =>
    obtain ⟨n, c⟩ := a
    rw [lookup_cons_eq_ite] at h
    split at h
    · next he => cases h; exact he ▸ List.mem_cons_self
    · exact List.mem_cons_of_mem _ (ih h)

/-- Where each name is bound once, looking it up finds every binding. -/
theorem lookup_eq_some_iff {name : String} {b : β} {l : List (String × β)}
    (hl : (l.map (·.1)).Nodup) : l.lookup name = some b ↔ (name, b) ∈ l := by
  refine ⟨mem_of_lookup, fun h => ?_⟩
  induction l with
  | nil => cases h
  | cons a rest ih =>
    obtain ⟨n, c⟩ := a
    rw [List.map_cons, List.nodup_cons] at hl
    rw [lookup_cons_eq_ite]
    rcases List.mem_cons.mp h with he | h
    · simp_all
    · have hn : name ≠ n := fun he => hl.1 (he ▸ List.mem_map_of_mem (f := (·.1)) h)
      rw [if_neg hn, ih hl.2 h]

theorem exists_lookup_iff {name : String} {l : List (String × β)} :
    (∃ b, l.lookup name = some b) ↔ name ∈ l.map (·.1) := by
  induction l with
  | nil => simp
  | cons a rest ih =>
    obtain ⟨n, c⟩ := a
    rw [List.map_cons, List.mem_cons, ← ih]
    by_cases h : name = n <;> simp [lookup_cons_eq_ite, h]

end LayeredEnv.Binding
