import LayeredEnv.Binding
import LayeredEnv.Proofs.Inclusion.Expansion
import Mathlib.Data.List.Nodup

namespace LayeredEnv

namespace Tokenize

theorem error_of_run {table : OperatorTable} {limit : ℕ} {source : List Char} {idle : ℕ}
    {blocks : Blocks} {rest : List Char} {error : Error}
    (h : run table limit source idle blocks rest = .error error) :
    (∃ line column excerpt, error = .unrecognizedToken line column excerpt) ∨
      ∃ offset steps, error = .stuckTokenizer offset steps := by
  fun_induction run table limit source idle blocks rest with
  | case1 => cases h
  | case2 =>
    cases h
    exact .inr ⟨_, _, rfl⟩
  | case3 idle blocks c cs _ _ ih => exact ih h
  | case4 =>
    cases h
    exact .inl ⟨_, _, _, rfl⟩
  | case5 idle blocks c cs _ next rest _ ih => exact ih h

end Tokenize

inductive Error.OfSource : Error → Prop where
  | notFound (name : String) : OfSource (.sourceNotFound name)
  | unrecognized (line column : ℕ) (excerpt : String) :
    OfSource (.unrecognizedToken line column excerpt)
  | stuck (offset steps : ℕ) : OfSource (.stuckTokenizer offset steps)

theorem Error.OfSource.of_tokenize {text : String} {limit : ℕ} {error : Error}
    (h : tokenize text limit = .error error) : error.OfSource := by
  unfold tokenize Tokenize.tokens at h
  cases hr : Tokenize.run .standard (max limit 1) text.toList 0 {} text.toList with
  | ok blocks =>
    rw [hr] at h
    cases h
  | error refusal =>
    rw [hr] at h
    cases h
    obtain ⟨line, column, excerpt, rfl⟩ | ⟨offset, steps, rfl⟩ := Tokenize.error_of_run hr
    · exact .unrecognized line column excerpt
    · exact .stuck offset steps

theorem Sources.error_of_provide {sources : Sources} {name : String} {error : Error}
    (h : sources.provide name = .error error) : error = .sourceNotFound name := by
  unfold provide at h
  split at h
  · cases h
  · cases h
    rfl

namespace Include

variable {provide : String → Except Error String} {limit : ℕ} {chain names : List String}
  {name : String} {t : Token} {tokens ts expansion : List Token} {tree : TokenTree} {error : Error}
  {outcome : Except Error (List Token)} {sources : Sources}

theorem replacement_eq_ok_iff : replacement provide limit chain name = .ok tree ↔
    name ∉ chain ∧ ∃ text, provide name = .ok text ∧ tokenize text limit = .ok tree := by
  unfold replacement
  by_cases hn : name ∈ chain
  · simp [hn]
  · cases hp : provide name with
    | error error => simp [hn]
    | ok text => simp [hn]

/-- A directive is replaced, or closes a cycle, or its source fails by itself. -/
theorem error_of_replacement (h : replacement sources.provide limit chain name = .error error) :
    (name ∈ chain ∧ error = .cyclicInclude (chain ++ [name])) ∨ error.OfSource := by
  unfold replacement at h
  split at h
  · next hm =>
    cases h
    exact .inl ⟨hm, rfl⟩
  · right
    split at h
    · next refusal hp =>
      cases h
      rw [Sources.error_of_provide hp]
      exact .notFound name
    · exact .of_tokenize h

def remaining (sources : Sources) (chain : List String) : Sources :=
  sources.filter fun source => source.1 ∉ chain

theorem length_remaining_lt {text : String} (hn : name ∉ chain)
    (h : sources.lookup name = some text) :
    (remaining sources (chain ++ [name])).length < (remaining sources chain).length := by
  have hm : (name, text) ∈ remaining sources chain :=
    List.mem_filter.mpr ⟨Binding.mem_of_lookup h, by simpa using hn⟩
  have hsub : remaining sources (chain ++ [name]) =
      (remaining sources chain).filter fun source => source.1 ≠ name := by
    unfold remaining
    rw [List.filter_filter]
    refine List.filter_congr fun source _ => ?_
    simp [and_comm, not_or]
  rw [hsub]
  exact List.length_filter_lt_length_iff_exists.mpr ⟨_, hm, by simp⟩

/-- There are as many sources left as the chain may still become longer. -/
def Room (sources : Sources) (chain : List String) : Prop :=
  chain.length + (remaining sources chain).length ≤ sources.length + 1

theorem room_origin (sources : Sources) (origin : String) : Room sources [origin] := by
  have hle : (remaining sources [origin]).length ≤ sources.length := List.length_filter_le ..
  unfold Room
  rw [List.length_singleton]
  omega

theorem length_remaining_lt_of_replacement
    (h : replacement sources.provide limit chain name = .ok tree) :
    (remaining sources (chain ++ [name])).length < (remaining sources chain).length := by
  obtain ⟨hn, text, hp, -⟩ := replacement_eq_ok_iff.mp h
  exact length_remaining_lt hn (Sources.provide_eq_ok_iff.mp hp)

theorem Room.next (h : Room sources chain)
    (hr : replacement sources.provide limit chain name = .ok tree) :
    Room sources (chain ++ [name]) := by
  have hlt := length_remaining_lt_of_replacement hr
  unfold Room at h ⊢
  rw [List.length_append, List.length_singleton]
  omega

/-- Where there is room, the bound on the depth is not what ends a chain. -/
theorem Room.included_eq (h : Room sources chain) {depth : ℕ} (hd : sources.length ≤ depth) :
    included ⟨sources.provide, depth⟩ limit chain name =
      replacement sources.provide limit chain name := by
  rw [Include.included_eq]
  unfold replacement
  by_cases hn : name ∈ chain
  · rw [if_pos hn, if_pos hn]
  · rw [if_neg hn, if_neg hn]
    dsimp only
    cases hp : sources.provide name with
    | error error => rfl
    | ok text =>
      have hlt : (remaining sources (chain ++ [name])).length < (remaining sources chain).length :=
        length_remaining_lt hn (Sources.provide_eq_ok_iff.mp hp)
      have hle : ¬depth < chain.length := by
        unfold Room at h
        omega
      exact if_neg hle

/-- Tokens always have an outcome, and every work list that allows for as many sources in a row as
there are gets to it. -/
theorem exists_expands (limit : ℕ) (h : Room sources chain) (tokens : List Token) :
    ∃ outcome, Expands sources.provide limit chain tokens outcome ∧
      ∀ depth ≥ sources.length, Runs ⟨sources.provide, depth⟩ limit chain tokens outcome := by
  -- what replaces a directive has fewer sources left; the tokens behind it have the same chain
  induction hn : (remaining sources chain).length using Nat.strongRecOn
    generalizing chain tokens with
  | _ n ih =>
  induction tokens with
  | nil => exact ⟨.ok [], .nil chain, fun depth _ => .nil _ limit chain⟩
  | cons t ts ihrest =>
    obtain ⟨outcome, hexpand, hruns⟩ := ihrest
    by_cases hk : t.kind = .includeFlag
    · cases hr : replacement sources.provide limit chain t.value with
      | error error =>
        refine ⟨.error error, .refused ts hk hr, fun depth hd => .refused hk ?_⟩
        rw [h.included_eq hd, hr]
      | ok tree =>
        have hlt := length_remaining_lt_of_replacement hr
        obtain ⟨front, hfront, hruns'⟩ := ih _ (hn ▸ hlt) (h.next hr) tree.topTokens rfl
        have hi' {depth : ℕ} (hd : depth ≥ sources.length) :
            included ⟨sources.provide, depth⟩ limit chain t.value = .ok tree := by
          rw [h.included_eq hd, hr]
        have hc := closed_of_replacement hr
        cases front with
        | error error =>
          exact ⟨.error error, .failed ts hk hr hfront,
            fun depth hd => .failed hk (hi' hd) hc (hruns' depth hd)⟩
        | ok front =>
          exact ⟨_, .spliced hk hr hfront hexpand,
            fun depth hd => .spliced hk (hi' hd) hc (hruns' depth hd) (hruns depth hd)⟩
    · exact ⟨_, .kept hk hexpand, fun depth hd => .kept hk (hruns depth hd)⟩

def Directs (tokens : List Token) (name : String) : Prop :=
  ∃ t ∈ tokens, t.kind = .includeFlag ∧ t.value = name

/-- A path of inclusion: its first name is that of a directive among the tokens, and each name after
it is that of a directive at the top level of the source named before. -/
inductive Path (provide : String → Except Error String) (limit : ℕ) :
    List Token → List String → Prop where
  | last {tokens : List Token} {name : String} :
    Directs tokens name → Path provide limit tokens [name]
  | step {tokens : List Token} {name text : String} {tree : TokenTree} {names : List String} :
    Directs tokens name → provide name = .ok text → tokenize text limit = .ok tree →
      Path provide limit tree.topTokens names → Path provide limit tokens (name :: names)

/-- The names run through the chain, go on along a path of different sources, and come back to one
that was there. -/
def Closes (provide : String → Except Error String) (limit : ℕ) (chain : List String)
    (tokens : List Token) (names : List String) : Prop :=
  ∃ between last, names = chain ++ between ++ [last] ∧ last ∈ chain ++ between ∧
    (chain ++ between).Nodup ∧ Path provide limit tokens (between ++ [last])

theorem directs_cons (hk : t.kind = .includeFlag) (ts : List Token) : Directs (t :: ts) t.value :=
  ⟨t, List.mem_cons_self, hk, rfl⟩

theorem Directs.cons (h : Directs ts name) (t : Token) : Directs (t :: ts) name := by
  obtain ⟨u, hm, hu⟩ := h
  exact ⟨u, List.mem_cons_of_mem t hm, hu⟩

theorem Path.cons (h : Path provide limit ts names) (t : Token) :
    Path provide limit (t :: ts) names := by
  cases h with
  | last hd => exact .last (hd.cons t)
  | step hd hp ht h => exact .step (hd.cons t) hp ht h

theorem Closes.cons (h : Closes provide limit chain ts names) (t : Token) :
    Closes provide limit chain (t :: ts) names := by
  obtain ⟨between, last, he, hm, hn, hp⟩ := h
  exact ⟨between, last, he, hm, hn, hp.cons t⟩

theorem closes_of_mem (hd : Directs tokens name) (hm : name ∈ chain) (hn : chain.Nodup) :
    Closes provide limit chain tokens (chain ++ [name]) := by
  refine ⟨[], name, ?_, ?_, ?_, .last hd⟩
  · rw [List.append_nil]
  · rwa [List.append_nil]
  · rwa [List.append_nil]

theorem Closes.step (hd : Directs tokens name)
    (hr : replacement provide limit chain name = .ok tree)
    (h : Closes provide limit (chain ++ [name]) tree.topTokens names) :
    Closes provide limit chain tokens names := by
  obtain ⟨between, last, he, hm, hn, hp⟩ := h
  obtain ⟨-, text, htext, htree⟩ := replacement_eq_ok_iff.mp hr
  have hsplit : chain ++ [name] ++ between = chain ++ name :: between := by
    rw [List.append_assoc, List.singleton_append]
  rw [hsplit] at he hm hn
  exact ⟨name :: between, last, he, hm, hn, .step hd htext htree hp⟩

/-- Where a directive is replaced, its source is new to the chain. -/
theorem nodup_of_replacement (hr : replacement provide limit chain name = .ok tree)
    (h : chain.Nodup) : (chain ++ [name]).Nodup := by
  rw [← List.concat_eq_append]
  exact List.Nodup.concat (replacement_eq_ok_iff.mp hr).1 h

/-- Tokens that cannot be expanded lead to a source that fails by itself, or around a cycle, which
is then what is reported. -/
theorem Expands.error_cases (h : Expands sources.provide limit chain tokens outcome)
    (ho : outcome = .error error) (hn : chain.Nodup) :
    error.OfSource ∨
      ∃ names, error = .cyclicInclude names ∧ Closes sources.provide limit chain tokens names := by
  induction h with
  | nil => cases ho
  | kept _ _ ih =>
    obtain hs | ⟨names, he, hc⟩ := ih (map_eq_error ho) hn
    · exact .inl hs
    · exact .inr ⟨names, he, hc.cons _⟩
  | refused ts hk hr =>
    cases ho
    obtain ⟨hm, rfl⟩ | hs := error_of_replacement hr
    · exact .inr ⟨_, rfl, closes_of_mem (directs_cons hk ts) hm hn⟩
    · exact .inl hs
  | failed ts hk hr _ ih =>
    obtain hs | ⟨names, he, hc⟩ := ih ho (nodup_of_replacement hr hn)
    · exact .inl hs
    · exact .inr ⟨names, he, hc.step (directs_cons hk ts) hr⟩
  | spliced _ _ _ _ _ ih =>
    obtain hs | ⟨names, he, hc⟩ := ih (map_eq_error ho) hn
    · exact .inl hs
    · exact .inr ⟨names, he, hc.cons _⟩

/-- In tokens that can be expanded, every directive names a source that can. -/
theorem Expands.of_directs (h : Expands provide limit chain tokens outcome)
    (ho : outcome = .ok expansion) (hd : Directs tokens name) :
    ∃ tree front, replacement provide limit chain name = .ok tree ∧
      Expands provide limit (chain ++ [name]) tree.topTokens (.ok front) := by
  induction h generalizing expansion with
  | nil =>
    obtain ⟨t, hm, -⟩ := hd
    cases hm
  | kept hk _ ih =>
    obtain ⟨rest, hrest, -⟩ := map_eq_ok ho
    obtain ⟨t, hm, ht, hv⟩ := hd
    obtain rfl | hm := List.mem_cons.mp hm
    · exact absurd ht hk
    · exact ih hrest ⟨t, hm, ht, hv⟩
  | refused => cases ho
  | failed => cases ho
  | spliced _ hr hfront _ _ ih =>
    obtain ⟨rest, hrest, -⟩ := map_eq_ok ho
    obtain ⟨t, hm, ht, hv⟩ := hd
    obtain rfl | hm := List.mem_cons.mp hm
    · subst hv
      exact ⟨_, _, hr, hfront⟩
    · exact ih hrest ⟨t, hm, ht, hv⟩

/-- No path from tokens that can be expanded repeats a name. -/
theorem Expands.nodup_of_path (h : Expands provide limit chain tokens (.ok expansion))
    (hp : Path provide limit tokens names) (hn : chain.Nodup) : (chain ++ names).Nodup := by
  induction hp generalizing chain expansion with
  | last hd =>
    obtain ⟨tree, front, hr, -⟩ := h.of_directs rfl hd
    exact nodup_of_replacement hr hn
  | @step tokens name text tree names hd htext htree _ ih =>
    obtain ⟨other, front, hr, hfront⟩ := h.of_directs rfl hd
    obtain ⟨-, text', htext', hother⟩ := replacement_eq_ok_iff.mp hr
    -- the source has one text, so that the path goes on in the tokens that were expanded
    cases htext.symm.trans htext'
    cases htree.symm.trans hother
    have hnodup := ih hfront (nodup_of_replacement hr hn)
    rwa [List.append_assoc, List.singleton_append] at hnodup

/-- Merging sources held in memory always ends: the recursion that expands directives is finite, and
its outcome is the result, whatever the bound on the depth is that leaves room for all sources. A
cycle that is reported starts with the source of the text, follows directives from one source to the
next, and repeats no name but the last; and if nothing is reported, no path of directives repeats a
name. Every text has a closed tree (`TokenTree.closed_of_tokenize`). -/
theorem merge_reports_cycles (sources : Sources) (limit : ℕ) (origin : String) {tree : TokenTree}
    (hc : tree.Closed) :
    (∃ outcome, Expands sources.provide limit [origin] tree.topTokens outcome ∧
      ∀ depth ≥ sources.length,
        (merge ⟨sources.provide, depth⟩ limit origin tree).1 = outcome.map fun _ => ()) ∧
    (∀ chain, (merge sources.provider limit origin tree).1 ≠ .error (.includesTooDeep chain)) ∧
    (∀ chain, (merge sources.provider limit origin tree).1 = .error (.cyclicInclude chain) →
      ∃ between last, chain = origin :: between ++ [last] ∧ last ∈ origin :: between ∧
        (origin :: between).Nodup ∧
        Path sources.provide limit tree.topTokens (between ++ [last])) ∧
    ((merge sources.provider limit origin tree).1 = .ok () →
      ∀ names, Path sources.provide limit tree.topTokens names → (origin :: names).Nodup) := by
  obtain ⟨outcome, hexpand, hruns⟩ :=
    exists_expands limit (room_origin sources origin) tree.topTokens
  have hmerge : ∀ depth ≥ sources.length,
      (merge ⟨sources.provide, depth⟩ limit origin tree).1 = outcome.map fun _ => () :=
    fun depth hd => (merge_of_runs hc hexpand (hruns depth hd)).1
  have hresult := hmerge sources.length (Nat.le_refl _)
  change (merge sources.provider limit origin tree).1 = _ at hresult
  have hnodup : [origin].Nodup := by simp
  refine ⟨⟨outcome, hexpand, hmerge⟩, ?_, ?_, ?_⟩
  · intro chain h
    obtain hs | ⟨names, he, -⟩ := hexpand.error_cases (map_eq_error (hresult.symm.trans h)) hnodup
    · cases hs
    · cases he
  · intro chain h
    obtain hs | ⟨names, he, hcloses⟩ :=
      hexpand.error_cases (map_eq_error (hresult.symm.trans h)) hnodup
    · cases hs
    · cases he
      exact hcloses
  · intro h names hp
    obtain ⟨expansion, rfl, -⟩ := map_eq_ok (hresult.symm.trans h)
    exact hexpand.nodup_of_path hp hnodup

def mutualSources : Sources := [("a", directive "b"), ("b", directive "a")]

def mutualTree : TokenTree := .ofTokens [.leaf .includeFlag "a"]

theorem merge_reports_cycles_mutual :
    mutualTree.Closed ∧
      (merge mutualSources.provider 20 "main" mutualTree).1 =
        .error (.cyclicInclude ["main", "a", "b", "a"]) ∧
      ∃ between last, ["main", "a", "b", "a"] = "main" :: between ++ [last] ∧
        last ∈ "main" :: between ∧ ("main" :: between).Nodup ∧
        Path mutualSources.provide 20 mutualTree.topTokens (between ++ [last]) := by
  have hc : mutualTree.Closed := TokenTree.closed_ofTokens _
  have ha : replacement mutualSources.provide 20 ["main"] "a" =
      .ok (.ofTokens [.leaf .includeFlag "b"]) := by
    rw [replacement_of_notMem (by decide) (Sources.provide_eq_ok_iff.mpr rfl),
      tokenize_directive (by decide) (by decide)]
  have hb : replacement mutualSources.provide 20 ["main", "a"] "b" =
      .ok (.ofTokens [.leaf .includeFlag "a"]) := by
    rw [replacement_of_notMem (by decide) (Sources.provide_eq_ok_iff.mpr rfl),
      tokenize_directive (by decide) (by decide)]
  have hagain : replacement mutualSources.provide 20 ["main", "a", "b"] "a" =
      .error (.cyclicInclude ["main", "a", "b", "a"]) := if_pos (by decide)
  have h : Expands mutualSources.provide 20 ["main"] mutualTree.topTokens
      (.error (.cyclicInclude ["main", "a", "b", "a"])) := by
    rw [mutualTree, TokenTree.topTokens_ofTokens]
    refine .failed (t := .leaf .includeFlag "a") [] rfl ha ?_
    rw [TokenTree.topTokens_ofTokens]
    refine .failed (t := .leaf .includeFlag "b") [] rfl hb ?_
    rw [TokenTree.topTokens_ofTokens]
    exact .refused (t := .leaf .includeFlag "a") [] rfl hagain
  obtain ⟨⟨outcome, hexpand, hmerge⟩, -, hcycle, -⟩ :=
    merge_reports_cycles mutualSources 20 "main" hc
  cases h.unique hexpand
  have hresult := hmerge mutualSources.length (Nat.le_refl _)
  exact ⟨hc, hresult, hcycle _ hresult⟩

end Include
end LayeredEnv
