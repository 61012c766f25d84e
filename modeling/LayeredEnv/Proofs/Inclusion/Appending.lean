import LayeredEnv.Proofs.Inclusion.Expansion

namespace LayeredEnv.Include

variable {provider : Provider} {limit : ℕ} {chain : List String} {origin : String} {t : Token}
  {ts us : List Token} {tree other merged : TokenTree} {outcome : Except Error (List Token)}

theorem Stands.exists_append {ids : List ℕ} (h : Stands tree ids (ts ++ us)) :
    ∃ front back, ids = front ++ back ∧ Stands tree front ts ∧ Stands tree back us := by
  obtain ⟨front, back, rfl, hfront, hback⟩ := List.map_eq_append_iff.mp h.tokens_eq
  obtain ⟨hin, hin'⟩ := List.forall_mem_append.mp h.inside
  exact ⟨front, back, rfl, ⟨h.closed, hin, hfront⟩, ⟨h.closed, hin', hback⟩⟩

/-- The node of the last token waits in the rest of the work list. -/
theorem Runs.concat (hk : t.kind ≠ .includeFlag) (h : Runs provider limit chain ts outcome) :
    Runs provider limit chain (ts ++ [t]) (outcome.map (· ++ [t])) := by
  intro tree ids hs done rest
  obtain ⟨front, back, rfl, hfront, hback⟩ := hs.exists_append
  obtain ⟨id, tail, rfl, hid, htail, hkind, -⟩ := hback.exists_cons
  obtain rfl : tail = [] := List.map_eq_nil_iff.mp htail.tokens_eq
  obtain ⟨after, he, hrun⟩ := h hfront done (⟨id, chain⟩ :: rest)
  have hwork : items chain (front ++ [id]) ++ rest = items chain front ++ ⟨id, chain⟩ :: rest := by
    simp [items]
  rw [hwork]
  refine ⟨after, he, ?_⟩
  cases outcome with
  | error error => exact hrun
  | ok expansion =>
    obtain ⟨kept, hkept, hrun⟩ := hrun
    have hid' : Stands after [id] [t] := hid.enlarge he hkept.closed
    have hne : after.kind id ≠ .includeFlag := by
      obtain rfl : after.subtree id = t := (List.cons.inj hid'.tokens_eq).1
      rwa [TokenTree.kind_subtree] at hk
    refine ⟨kept ++ [id], hkept.append hid', ?_⟩
    rw [hrun, splice_of_ne hne, List.reverse_append, List.reverse_singleton]
    rfl

theorem closed_of_included {name : String} (h : included provider limit chain name = .ok other) :
    other.Closed := by
  have hle := length_le_of_included h
  rw [included_of_le hle] at h
  exact closed_of_replacement h

/-- Whatever the sources are, a work list gets to an outcome: what replaces a directive is nested
more deeply, and the depth is bounded. -/
theorem exists_runs (provider : Provider) (limit : ℕ) (chain : List String) (tokens : List Token) :
    ∃ outcome, Runs provider limit chain tokens outcome := by
  induction hn : provider.depth + 1 - chain.length using Nat.strongRecOn
    generalizing chain tokens with
  | _ n ih =>
  induction tokens with
  | nil => exact ⟨.ok [], .nil provider limit chain⟩
  | cons t ts ihrest =>
    obtain ⟨outcome, hruns⟩ := ihrest
    by_cases hk : t.kind = .includeFlag
    · cases hi : included provider limit chain t.value with
      | error error => exact ⟨.error error, .refused hk hi⟩
      | ok other =>
        have hle := length_le_of_included hi
        have hlt : provider.depth + 1 - (chain ++ [t.value]).length < n := by
          rw [List.length_append, List.length_singleton]
          omega
        have hc := closed_of_included hi
        obtain ⟨front, hfront⟩ := ih _ hlt _ other.topTokens rfl
        cases front with
        | error error => exact ⟨.error error, .failed hk hi hc hfront⟩
        | ok front => exact ⟨_, .spliced hk hi hc hfront hruns⟩
    · exact ⟨_, .kept hk hruns⟩

/-- What is merged is what the work list gets to. -/
theorem runs_of_merge (h : merge provider limit origin (.ofTokens ts) = (.ok (), merged)) :
    Runs provider limit [origin] ts (.ok merged.topTokens) ∧
      merged.kind TokenTree.root = .main := by
  obtain ⟨outcome, hruns⟩ := exists_runs provider limit [origin] ts
  have htree := hruns
  rw [← TokenTree.topTokens_ofTokens ts] at htree
  cases outcome with
  | error error =>
    obtain ⟨after, hmerge, -⟩ := merge_of_runs_error (TokenTree.closed_ofTokens ts) htree
    rw [h] at hmerge
    cases hmerge
  | ok expansion =>
    obtain ⟨merged', hmerge, htop, hroot⟩ := merge_of_runs_ok (TokenTree.closed_ofTokens ts) htree
    rw [h] at hmerge
    cases hmerge
    exact ⟨htop ▸ hruns, hroot⟩

/-- A token that is no directive stays behind what the tokens before it come to. -/
theorem merge_concat (hk : t.kind ≠ .includeFlag)
    (h : merge provider limit origin (.ofTokens ts) = (.ok (), merged)) :
    ∃ after, merge provider limit origin (.ofTokens (ts ++ [t])) = (.ok (), after) ∧
      after.topTokens = merged.topTokens ++ [t] := by
  have hconcat := (runs_of_merge h).1.concat hk
  rw [← TokenTree.topTokens_ofTokens (ts ++ [t])] at hconcat
  obtain ⟨after, hafter, htop, -⟩ := merge_of_runs_ok (TokenTree.closed_ofTokens _) hconcat
  exact ⟨after, hafter, htop⟩

end LayeredEnv.Include
