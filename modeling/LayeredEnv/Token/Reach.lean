namespace LayeredEnv.Reach

variable {next : Nat → List Nat} {size : Nat}

/-- There is a way from one node to another. All nodes behind the first one are below the bound. -/
inductive Leads (next : Nat → List Nat) (size : Nat) : Nat → Nat → Prop where
  | refl (n : Nat) : Leads next size n n
  | step {n m last : Nat} :
    m ∈ next n → m < size → Leads next size m last → Leads next size n last

def without (left : List Nat) (n : Nat) : List Nat := left.filter (· != n)

theorem mem_without {left : List Nat} {n m : Nat} : m ∈ without left n ↔ m ∈ left ∧ m ≠ n := by
  rw [without, List.mem_filter, bne_iff_ne]

def unmet (next : Nat → List Nat) (left : List Nat) : List Nat → List Nat
  | [] => left
  | n :: todo =>
    if n ∈ left then unmet next (without left n) (next n ++ todo) else unmet next left todo
termination_by todo => (left.length, todo.length)
decreasing_by
  · next h =>
    exact Prod.Lex.left _ _ (List.length_filter_lt_length_iff_exists.mpr ⟨n, h, by simp⟩)
  · exact Prod.Lex.right _ (Nat.lt_succ_self _)

def leads (next : Nat → List Nat) (size start goal : Nat) : Bool :=
  !(unmet next (List.range size) [start]).contains goal

theorem Leads.trans {n m last : Nat} (h : Leads next size n m) (h' : Leads next size m last) :
    Leads next size n last := by
  induction h with
  | refl => exact h'
  | step hm hlt _ ih => exact .step hm hlt (ih h')

/-- A way to which the listed nodes belong elsewhere is a way there too. -/
theorem Leads.mono {next' : Nat → List Nat} {size' n last : Nat} (h : Leads next size n last)
    (hs : ∀ k m, Leads next size n k → m ∈ next k → m < size → m ∈ next' k ∧ m < size') :
    Leads next' size' n last := by
  induction h with
  | refl => exact .refl _
  | @step n m last hm hlt _ ih =>
    obtain ⟨hm', hlt'⟩ := hs n m (.refl n) hm hlt
    exact .step hm' hlt' (ih fun k j hk => hs k j (.step hm hlt hk))

/-- Where only one node lists others than before, ways stay up to there. -/
theorem Leads.up_to {next' : Nat → List Nat} {changed n last : Nat}
    (hs : ∀ k, k ≠ changed → next' k = next k) (h : Leads next size n last) :
    Leads next' size n last ∨ Leads next' size n changed := by
  induction h with
  | refl => exact Or.inl (.refl _)
  | @step n m last hm hlt _ ih =>
    by_cases hn : n = changed
    · exact Or.inr (hn ▸ .refl n)
    · rw [← hs n hn] at hm
      exact ih.imp (.step hm hlt) (.step hm hlt)

theorem unmet_subset (next : Nat → List Nat) (left todo : List Nat) :
    unmet next left todo ⊆ left := by
  fun_induction unmet next left todo with
  | case1 => exact List.Subset.refl _
  | case2 _ _ _ _ ih => exact fun m hm => (mem_without.mp (ih hm)).1
  | case3 _ _ _ _ ih => exact ih

theorem exists_leads_of_met {left todo : List Nat} (hleft : ∀ n ∈ left, n < size) {m : Nat}
    (hm : m ∈ left) (hmet : m ∉ unmet next left todo) :
    ∃ n ∈ todo, n < size ∧ Leads next size n m := by
  fun_induction unmet next left todo with
  | case1 => exact absurd hm hmet
  | case2 left n todo hn ih =>
    by_cases he : m = n
    · subst he
      exact ⟨m, List.mem_cons_self, hleft m hn, .refl m⟩
    · obtain ⟨k, hk, hlt, hway⟩ :=
        ih (fun k hk => hleft k (mem_without.mp hk).1) (mem_without.mpr ⟨hm, he⟩) hmet
      rcases List.mem_append.mp hk with hk | hk
      · exact ⟨n, List.mem_cons_self, hleft n hn, .step hk hlt hway⟩
      · exact ⟨k, List.mem_cons_of_mem _ hk, hlt, hway⟩
  | case3 left n todo hn ih =>
    obtain ⟨k, hk, hway⟩ := ih hleft hm hmet
    exact ⟨k, List.mem_cons_of_mem _ hk, hway⟩

/-- If what the nodes met so far list was met too or is still to do, that is so in the end, when
nothing is left to do. -/
theorem met_closed {left todo : List Nat}
    (h : ∀ n < size, n ∉ left → ∀ m ∈ next n, m ∈ left → m ∈ todo) :
    (∀ n ∈ todo, n ∉ unmet next left todo) ∧
      ∀ n < size, n ∉ unmet next left todo → ∀ m ∈ next n, m ∉ unmet next left todo := by
  fun_induction unmet next left todo with
  | case1 => exact ⟨nofun, fun n hlt hn m hm hleft => nomatch h n hlt hn m hm hleft⟩
  | case2 left n todo hn ih =>
    have hremoved : n ∉ unmet next (without left n) (next n ++ todo) :=
      fun hmem => (mem_without.mp (unmet_subset _ _ _ hmem)).2 rfl
    obtain ⟨htodo, hclosed⟩ := ih <| by
      intro k hlt hk m hm hleft
      obtain ⟨hleft, hne⟩ := mem_without.mp hleft
      by_cases he : k = n
      · exact List.mem_append_left _ (he ▸ hm)
      · have hk' : k ∉ left := fun hmem => hk (mem_without.mpr ⟨hmem, he⟩)
        exact List.mem_append_right _ ((List.mem_cons.mp (h k hlt hk' m hm hleft)).resolve_left hne)
    exact ⟨List.forall_mem_cons.mpr
      ⟨hremoved, fun k hk => htodo k (List.mem_append_right _ hk)⟩, hclosed⟩
  | case3 left n todo hn ih =>
    obtain ⟨htodo, hclosed⟩ := ih <| by
      intro k hlt hk m hm hleft
      rcases List.mem_cons.mp (h k hlt hk m hm hleft) with rfl | hm
      · exact absurd hleft hn
      · exact hm
    have hmet : n ∉ unmet next left todo := fun hmem => hn (unmet_subset _ _ _ hmem)
    exact ⟨List.forall_mem_cons.mpr ⟨hmet, htodo⟩, hclosed⟩

theorem leads_iff {start goal : Nat} (hs : start < size) (hg : goal < size) :
    leads next size start goal = true ↔ Leads next size start goal := by
  rw [leads, Bool.not_eq_true', List.contains_eq_mem, decide_eq_false_iff_not]
  constructor
  · intro hmet
    obtain ⟨n, hn, -, hway⟩ := exists_leads_of_met (fun n hn => List.mem_range.mp hn)
      (List.mem_range.mpr hg) hmet
    exact List.mem_singleton.mp hn ▸ hway
  · intro hway
    have hrange : ∀ n < size, n ∉ List.range size → ∀ m ∈ next n, m ∈ List.range size →
        m ∈ [start] := fun n hlt hn => absurd (List.mem_range.mpr hlt) hn
    obtain ⟨hstart, hclosed⟩ := met_closed hrange
    have hmet := hstart start List.mem_cons_self
    clear hg hstart hrange
    generalize unmet next (List.range size) [start] = rest at hclosed hmet
    induction hway with
    | refl => exact hmet
    | step hm hlt _ ih => exact ih hlt (hclosed _ hs hmet _ hm)

def rank (next : Nat → List Nat) (size n : Nat) : Nat :=
  (List.range size).countP (leads next size n)

/-- What the last node of a way leads to, the first one does. -/
theorem leads_of_way {n m : Nat} (hn : n < size) (hm : m < size) (h : Leads next size n m) :
    ∀ k ∈ List.range size, leads next size m k = true → leads next size n k = true := by
  intro k hk hway
  have hlt := List.mem_range.mp hk
  rw [leads_iff hm hlt] at hway
  exact (leads_iff hn hlt).mpr (h.trans hway)

theorem rank_le {n m : Nat} (hn : n < size) (hm : m < size) (h : Leads next size n m) :
    rank next size m ≤ rank next size n :=
  List.countP_mono_left (leads_of_way hn hm h)

theorem rank_lt {n m : Nat} (hn : n < size) (hm : m < size) (h : Leads next size n m)
    (hback : ¬Leads next size m n) : rank next size m < rank next size n := by
  have hsub := leads_of_way hn hm h
  have hself : leads next size n n = true := (leads_iff hn hn).mpr (.refl n)
  have hnot : ¬leads next size m n = true := by rwa [leads_iff hm hn]
  -- `n` itself is counted once more
  unfold rank
  obtain ⟨front, behind, hsplit⟩ := List.append_of_mem (List.mem_range.mpr hn)
  rw [hsplit] at hsub ⊢
  rw [List.forall_mem_append, List.forall_mem_cons] at hsub
  obtain ⟨hfront, -, hbehind⟩ := hsub
  have hle := List.countP_mono_left hfront
  have hle' := List.countP_mono_left hbehind
  rw [List.countP_append, List.countP_append, List.countP_cons_of_pos hself,
    List.countP_cons_of_neg hnot]
  omega

end LayeredEnv.Reach
