import LayeredEnv.Binding

namespace LayeredEnv

/-- Variables and values, each name once and in ascending order. -/
structure Environment where
  bindings : List (String × String)
  sorted : bindings.Pairwise fun a b => a.1 < b.1

namespace Environment

def empty : Environment := ⟨[], .nil⟩

def get? (environment : Environment) (name : String) : Option String :=
  environment.bindings.lookup name

def names (environment : Environment) : List String := environment.bindings.map (·.1)

def insertBinding (name value : String) : List (String × String) → List (String × String)
  | [] => [(name, value)]
  | (n, v) :: rest =>
    if name < n then (name, value) :: (n, v) :: rest
    else if n < name then (n, v) :: insertBinding name value rest
    else (name, value) :: rest

theorem fst_of_mem_insertBinding {name value : String} {l : List (String × String)}
    {b : String × String} (h : b ∈ insertBinding name value l) : b.1 = name ∨ b ∈ l := by
  induction l with
  | nil => simp_all [insertBinding]
  | cons a rest ih =>
    obtain ⟨n, v⟩ := a
    rw [insertBinding] at h
    split at h
    · simp only [List.mem_cons] at h ⊢
      rcases h with rfl | h | h
      · exact .inl rfl
      · exact .inr (.inl h)
      · exact .inr (.inr h)
    · split at h
      · simp only [List.mem_cons] at h ⊢
        rcases h with h | h
        · exact .inr (.inl h)
        · exact (ih h).imp id .inr
      · simp only [List.mem_cons] at h ⊢
        rcases h with rfl | h
        · exact .inl rfl
        · exact .inr (.inr h)

theorem pairwise_insertBinding {name value : String} {l : List (String × String)}
    (h : l.Pairwise fun a b => a.1 < b.1) :
    (insertBinding name value l).Pairwise fun a b => a.1 < b.1 := by
  induction l with
  | nil => simp [insertBinding]
  | cons a rest ih =>
    obtain ⟨n, v⟩ := a
    rw [List.pairwise_cons] at h
    rw [insertBinding]
    split
    · next hn =>
      refine List.pairwise_cons.mpr ⟨?_, List.pairwise_cons.mpr h⟩
      intro b hb
      rcases List.mem_cons.mp hb with rfl | hb
      · exact hn
      · exact String.lt_trans hn (h.1 b hb)
    · next hn =>
      split
      · next hlt =>
        refine List.pairwise_cons.mpr ⟨?_, ih h.2⟩
        intro b hb
        rcases fst_of_mem_insertBinding hb with he | hb
        · exact he ▸ hlt
        · exact h.1 b hb
      · next hge =>
        have he : name = n := String.le_antisymm hge hn
        exact List.pairwise_cons.mpr ⟨he ▸ h.1, h.2⟩

def insert (environment : Environment) (name value : String) : Environment :=
  ⟨insertBinding name value environment.bindings, pairwise_insertBinding environment.sorted⟩

/-- The bindings in order of their names; of two with one name the later one counts. -/
def ofList (bindings : List (String × String)) : Environment :=
  bindings.foldl (fun environment (name, value) => environment.insert name value) empty

theorem lookup_insertBinding (name value other : String) (l : List (String × String)) :
    (insertBinding name value l).lookup other =
      if other = name then some value else l.lookup other := by
  induction l with
  | nil => simp [insertBinding]
  | cons a rest ih =>
    obtain ⟨n, v⟩ := a
    rw [insertBinding]
    split
    · simp [Binding.lookup_cons_eq_ite]
    · next hn =>
      split
      · next hlt =>
        have hne : n ≠ name := fun he => String.lt_irrefl _ (he ▸ hlt)
        by_cases he : other = n <;> simp [Binding.lookup_cons_eq_ite, he, hne, ih]
      · next hge =>
        have hn' : name = n := String.le_antisymm hge hn
        by_cases he : other = n <;> simp [Binding.lookup_cons_eq_ite, he, hn']

theorem get?_insert (environment : Environment) (name value other : String) :
    (environment.insert name value).get? other =
      if other = name then some value else environment.get? other :=
  lookup_insertBinding name value other _

theorem nodup_names (environment : Environment) : environment.names.Nodup :=
  List.pairwise_map.mpr (environment.sorted.imp fun h => String.ne_of_lt h)

theorem get?_eq_some_iff {environment : Environment} {name value : String} :
    environment.get? name = some value ↔ (name, value) ∈ environment.bindings :=
  Binding.lookup_eq_some_iff environment.nodup_names

theorem mem_names_iff {environment : Environment} {name : String} :
    name ∈ environment.names ↔ ∃ value, environment.get? name = some value :=
  Binding.exists_lookup_iff.symm

theorem get?_foldl_insert (bindings : List (String × String)) (environment : Environment)
    (name : String) :
    (bindings.foldl (fun environment (name, value) => environment.insert name value)
      environment).get? name = (bindings.reverse.lookup name).or (environment.get? name) := by
  induction bindings generalizing environment with
  | nil => rfl
  | cons binding rest ih =>
    obtain ⟨n, v⟩ := binding
    rw [List.foldl_cons, ih, get?_insert, List.reverse_cons, List.lookup_append, Option.or_assoc,
      Binding.lookup_cons_eq_ite]
    split <;> rfl

/-- Of bindings with different names none is lost. -/
theorem get?_ofList {bindings : List (String × String)} (h : (bindings.map (·.1)).Nodup)
    (name : String) : (ofList bindings).get? name = bindings.lookup name := by
  have hr : (bindings.reverse.map (·.1)).Nodup := by
    rw [List.map_reverse]
    exact List.pairwise_reverse.mpr (h.imp Ne.symm)
  have he : (empty.get? name) = none := rfl
  rw [ofList, get?_foldl_insert, he, Option.or_none]
  refine Option.ext fun value => ?_
  rw [Binding.lookup_eq_some_iff hr, Binding.lookup_eq_some_iff h, List.mem_reverse]

end Environment
end LayeredEnv
