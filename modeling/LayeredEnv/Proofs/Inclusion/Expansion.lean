import LayeredEnv.Include
import LayeredEnv.Proofs.Store.Graft
import LayeredEnv.Proofs.Tokenizing.Reading

namespace LayeredEnv

theorem TokenTree.closed_of_tokenize {text : String} {limit : ℕ} {tree : TokenTree}
    (h : tokenize text limit = .ok tree) : tree.Closed := by
  obtain ⟨ts, rfl, -⟩ := exists_tokens_of_tokenize h
  exact closed_ofTokens ts

namespace Include

def replacement (provide : String → Except Error String) (limit : ℕ) (chain : List String)
    (name : String) : Except Error TokenTree :=
  if name ∈ chain then .error (.cyclicInclude (chain ++ [name]))
  else match provide name with
    | .error error => .error error
    | .ok text => tokenize text limit

theorem replacement_of_notMem {provide : String → Except Error String} {chain : List String}
    {name text : String} (hn : name ∉ chain) (hp : provide name = .ok text) (limit : ℕ) :
    replacement provide limit chain name = tokenize text limit := by
  rw [replacement, if_neg hn, hp]

/-- The expansion of tokens that come from the sources in `chain`, or the first failure on the way
to it. Nothing bounds how deep it is: where sources include others without end, there is no
outcome. -/
inductive Expands (provide : String → Except Error String) (limit : ℕ) :
    List String → List Token → Except Error (List Token) → Prop where
  | nil (chain : List String) : Expands provide limit chain [] (.ok [])
  | kept {chain : List String} {t : Token} {ts : List Token} {outcome : Except Error (List Token)} :
    t.kind ≠ .includeFlag → Expands provide limit chain ts outcome →
      Expands provide limit chain (t :: ts) (outcome.map (t :: ·))
  | refused {chain : List String} {t : Token} (ts : List Token) {error : Error} :
    t.kind = .includeFlag → replacement provide limit chain t.value = .error error →
      Expands provide limit chain (t :: ts) (.error error)
  | failed {chain : List String} {t : Token} (ts : List Token) {tree : TokenTree} {error : Error} :
    t.kind = .includeFlag → replacement provide limit chain t.value = .ok tree →
      Expands provide limit (chain ++ [t.value]) tree.topTokens (.error error) →
      Expands provide limit chain (t :: ts) (.error error)
  | spliced {chain : List String} {t : Token} {ts : List Token} {tree : TokenTree}
      {front : List Token} {outcome : Except Error (List Token)} :
    t.kind = .includeFlag → replacement provide limit chain t.value = .ok tree →
      Expands provide limit (chain ++ [t.value]) tree.topTokens (.ok front) →
      Expands provide limit chain ts outcome →
      Expands provide limit chain (t :: ts) (outcome.map (front ++ ·))

section Expands

variable {provide : String → Except Error String} {limit : ℕ} {chain : List String}
  {tokens expansion : List Token} {outcome : Except Error (List Token)} {tree : TokenTree}
  {name : String}

theorem closed_of_replacement (h : replacement provide limit chain name = .ok tree) :
    tree.Closed := by
  unfold replacement at h
  split at h
  · cases h
  · split at h
    · cases h
    · exact TokenTree.closed_of_tokenize h

/-- Tokens have at most one outcome. -/
theorem Expands.unique (h : Expands provide limit chain tokens outcome)
    {other : Except Error (List Token)} (h' : Expands provide limit chain tokens other) :
    outcome = other := by
  -- the first token and its replacement decide which rule applies
  induction h generalizing other with
  | nil chain =>
    cases h'
    rfl
  | kept hk _ ih =>
    cases h' with
    | kept _ h' => rw [ih h']
    | refused _ hk' => exact absurd hk' hk
    | failed _ hk' => exact absurd hk' hk
    | spliced hk' => exact absurd hk' hk
  | refused ts hk hr =>
    cases h' with
    | kept hk' => exact absurd hk hk'
    | refused _ _ hr' =>
      cases hr.symm.trans hr'
      rfl
    | failed _ _ hr' => cases hr.symm.trans hr'
    | spliced _ hr' => cases hr.symm.trans hr'
  | failed ts hk hr _ ih =>
    cases h' with
    | kept hk' => exact absurd hk hk'
    | refused _ _ hr' => cases hr.symm.trans hr'
    | failed _ _ hr' h' =>
      cases hr.symm.trans hr'
      exact ih h'
    | spliced _ hr' h' =>
      cases hr.symm.trans hr'
      cases ih h'
  | spliced hk hr _ _ ihfront ih =>
    cases h' with
    | kept hk' => exact absurd hk hk'
    | refused _ _ hr' => cases hr.symm.trans hr'
    | failed _ _ hr' h' =>
      cases hr.symm.trans hr'
      cases ihfront h'
    | spliced _ hr' hfront h' =>
      cases hr.symm.trans hr'
      cases ihfront hfront
      rw [ih h']

theorem Expands.of_leaf {ts front : List Token}
    (hr : replacement provide limit chain name = .ok tree)
    (hfront : Expands provide limit (chain ++ [name]) tree.topTokens (.ok front))
    (h : Expands provide limit chain ts (.ok expansion)) :
    Expands provide limit chain (.leaf .includeFlag name :: ts) (.ok (front ++ expansion)) :=
  .spliced rfl hr hfront h

theorem map_eq_ok {α β : Type} {f : α → β} {x : Except Error α} {b : β} (h : x.map f = .ok b) :
    ∃ a, x = .ok a ∧ f a = b := by
  cases x with
  | error e => cases h
  | ok a =>
    cases h
    exact ⟨a, rfl, rfl⟩

theorem map_eq_error {α β : Type} {f : α → β} {x : Except Error α} {error : Error}
    (h : x.map f = .error error) : x = .error error := by
  cases x with
  | error e =>
    cases h
    rfl
  | ok a => cases h

/-- No directive is left in an expansion. -/
theorem Expands.kind_ne (h : Expands provide limit chain tokens outcome)
    (ho : outcome = .ok expansion) : ∀ t ∈ expansion, t.kind ≠ .includeFlag := by
  induction h generalizing expansion with
  | nil =>
    cases ho
    exact fun t ht => nomatch ht
  | kept hk _ ih =>
    obtain ⟨rest, hrest, rfl⟩ := map_eq_ok ho
    exact List.forall_mem_cons.mpr ⟨hk, ih hrest⟩
  | refused => cases ho
  | failed => cases ho
  | spliced _ _ _ _ ihfront ih =>
    obtain ⟨rest, hrest, rfl⟩ := map_eq_ok ho
    exact List.forall_mem_append.mpr ⟨ihfront rfl, ih hrest⟩

end Expands

/-- The nodes stand for the tokens, in a store that they are part of. -/
structure Stands (tree : TokenTree) (ids : List ℕ) (tokens : List Token) : Prop where
  closed : tree.Closed
  inside : ∀ id ∈ ids, TokenTree.root < id ∧ id < tree.size
  tokens_eq : ids.map tree.subtree = tokens

/-- With nodes for the tokens first in the work list, these are replaced by nodes for the expansion,
or what fails is the same. The store only grows. -/
def Runs (provider : Provider) (limit : ℕ) (chain : List String) (tokens : List Token)
    (outcome : Except Error (List Token)) : Prop :=
  ∀ ⦃tree : TokenTree⦄ ⦃ids : List ℕ⦄, Stands tree ids tokens →
    ∀ (done : List ℕ) (rest : List Item), ∃ after, tree.Enlarges after ∧
      match outcome with
      | .error error =>
        splice provider limit done (items chain ids ++ rest) tree = (.error error, after)
      | .ok expansion => ∃ kept, Stands after kept expansion ∧
        splice provider limit done (items chain ids ++ rest) tree =
          splice provider limit (kept.reverse ++ done) rest after

variable {provider : Provider} {limit : ℕ} {chain : List String} {t : Token} {ts front : List Token}
  {tree other : TokenTree} {outcome : Except Error (List Token)} {error : Error}

theorem Stands.enlarge {ids : List ℕ} (h : Stands tree ids ts) {after : TokenTree}
    (he : tree.Enlarges after) (hc : after.Closed) : Stands after ids ts where
  closed := hc
  inside id hm := ⟨(h.inside id hm).1, Nat.lt_of_lt_of_le (h.inside id hm).2 he.size_le⟩
  tokens_eq := by
    rw [← h.tokens_eq]
    exact List.map_congr_left fun id hm => he.subtree_eq h.closed (h.inside id hm).2

theorem Stands.append {front back : List ℕ} {us : List Token} (h : Stands tree front ts)
    (h' : Stands tree back us) : Stands tree (front ++ back) (ts ++ us) where
  closed := h.closed
  inside := List.forall_mem_append.mpr ⟨h.inside, h'.inside⟩
  tokens_eq := by rw [List.map_append, h.tokens_eq, h'.tokens_eq]

theorem Stands.exists_cons {ids : List ℕ} (h : Stands tree ids (t :: ts)) :
    ∃ id rest, ids = id :: rest ∧ Stands tree [id] [t] ∧ Stands tree rest ts ∧
      tree.kind id = t.kind ∧ tree.value id = t.value := by
  obtain ⟨hc, hi, he⟩ := h
  obtain ⟨id, rest, rfl, ht, hts⟩ := List.map_eq_cons_iff.mp he
  rw [List.forall_mem_cons] at hi
  refine ⟨id, rest, rfl, ⟨hc, by simpa using hi.1, by rw [List.map_singleton, ht]⟩,
    ⟨hc, hi.2, hts⟩, ?_, ?_⟩
  · rw [← ht, TokenTree.kind_subtree]
  · rw [← ht, TokenTree.value_subtree]

theorem Stands.graft {ids : List ℕ} (h : Stands tree ids ts) (ho : other.Closed) :
    Stands (tree.graft other).1 (tree.graft other).2 other.topTokens where
  closed := h.closed.graft ho
  inside := ho.inside_graft tree
  tokens_eq := TokenTree.map_subtree_graft tree other

theorem items_append (chain : List String) (ids : List ℕ) (id : ℕ) (rest : List Item) :
    items chain (id :: ids) ++ rest = ⟨id, chain⟩ :: (items chain ids ++ rest) := rfl

theorem Runs.nil (provider : Provider) (limit : ℕ) (chain : List String) :
    Runs provider limit chain [] (.ok []) := by
  intro tree ids h done rest
  obtain rfl : ids = [] := List.map_eq_nil_iff.mp h.tokens_eq
  exact ⟨tree, .refl tree, [], h, rfl⟩

theorem Runs.kept (hk : t.kind ≠ .includeFlag) (h : Runs provider limit chain ts outcome) :
    Runs provider limit chain (t :: ts) (outcome.map (t :: ·)) := by
  intro tree ids hs done rest
  obtain ⟨id, ids, rfl, hid, hids, hkind, -⟩ := hs.exists_cons
  have hne : tree.kind id ≠ .includeFlag := hkind ▸ hk
  -- the node joins those that are done, and it still stands for its token in the end
  rw [items_append, splice_of_ne hne]
  obtain ⟨after, he, hrun⟩ := h hids (id :: done) rest
  refine ⟨after, he, ?_⟩
  cases outcome with
  | error error => exact hrun
  | ok expansion =>
    obtain ⟨kept, hkept, hrun⟩ := hrun
    refine ⟨id :: kept, (hid.enlarge he hkept.closed).append hkept, ?_⟩
    rw [hrun, List.reverse_cons, List.append_assoc]
    rfl

theorem Runs.refused (hk : t.kind = .includeFlag)
    (hi : included provider limit chain t.value = .error error) :
    Runs provider limit chain (t :: ts) (.error error) := by
  intro tree ids hs done rest
  obtain ⟨id, ids, rfl, -, -, hkind, hvalue⟩ := hs.exists_cons
  refine ⟨tree, .refl tree, ?_⟩
  show splice provider limit done (items chain (id :: ids) ++ rest) tree = _
  rw [items_append, splice_of_includeFlag (hkind.trans hk), hvalue, hi]

/-- A directive is replaced by nodes for the tokens of the source, and these come next. -/
theorem splice_of_included {id : ℕ} {done : List ℕ} {work : List Item} (hk : t.kind = .includeFlag)
    (hi : included provider limit chain t.value = .ok other) (hkind : tree.kind id = t.kind)
    (hvalue : tree.value id = t.value) :
    splice provider limit done (⟨id, chain⟩ :: work) tree =
      splice provider limit done (items (chain ++ [t.value]) (tree.graft other).2 ++ work)
        (tree.graft other).1 := by
  rw [splice_of_includeFlag (hkind.trans hk), hvalue, hi]

theorem Runs.failed (hk : t.kind = .includeFlag)
    (hi : included provider limit chain t.value = .ok other) (ho : other.Closed)
    (h : Runs provider limit (chain ++ [t.value]) other.topTokens (.error error)) :
    Runs provider limit chain (t :: ts) (.error error) := by
  intro tree ids hs done rest
  obtain ⟨id, ids, rfl, -, -, hkind, hvalue⟩ := hs.exists_cons
  rw [items_append, splice_of_included hk hi hkind hvalue]
  obtain ⟨after, he, hrun⟩ := h (hs.graft ho) done (items chain ids ++ rest)
  exact ⟨after, (tree.enlarges_graft other).trans he, hrun⟩

theorem Runs.spliced (hk : t.kind = .includeFlag)
    (hi : included provider limit chain t.value = .ok other) (ho : other.Closed)
    (hfront : Runs provider limit (chain ++ [t.value]) other.topTokens (.ok front))
    (h : Runs provider limit chain ts outcome) :
    Runs provider limit chain (t :: ts) (outcome.map (front ++ ·)) := by
  intro tree ids hs done rest
  obtain ⟨id, ids, rfl, -, hids, hkind, hvalue⟩ := hs.exists_cons
  rw [items_append, splice_of_included hk hi hkind hvalue]
  -- the nodes of the source come first, and those behind the directive wait in the rest
  obtain ⟨middle, he, kept, hkept, hrun⟩ := hfront (hs.graft ho) done (items chain ids ++ rest)
  have hmiddle : tree.Enlarges middle := (tree.enlarges_graft other).trans he
  obtain ⟨after, he', hrun'⟩ :=
    h (hids.enlarge hmiddle hkept.closed) (kept.reverse ++ done) rest
  refine ⟨after, hmiddle.trans he', ?_⟩
  cases outcome with
  | error error => exact hrun.trans hrun'
  | ok expansion =>
    obtain ⟨kept', hkept', hrun'⟩ := hrun'
    refine ⟨kept ++ kept', (hkept.enlarge he' hkept'.closed).append hkept', ?_⟩
    rw [hrun, hrun', List.reverse_append, List.append_assoc]

/-- A directive that is not nested too deeply gives way to its source. -/
theorem included_of_le {name : String} (h : chain.length ≤ provider.depth) :
    included provider limit chain name = replacement provider.provide limit chain name := by
  have hn : ¬provider.depth < chain.length := by omega
  rw [included_eq]
  simp only [if_neg hn]
  rfl

/-- An expansion is reached by every work list that allows for its depth. -/
theorem Expands.runs {provide : String → Except Error String} {tokens : List Token}
    (h : Expands provide limit chain tokens outcome) :
    ∃ enough, ∀ depth ≥ enough, Runs ⟨provide, depth⟩ limit chain tokens outcome := by
  -- a directive has to be within the depth, and so have those that it leads to
  induction h with
  | nil chain => exact ⟨0, fun depth _ => .nil _ limit chain⟩
  | kept hk _ ih =>
    obtain ⟨enough, ih⟩ := ih
    exact ⟨enough, fun depth hd => (ih depth hd).kept hk⟩
  | @refused chain t ts error hk hr =>
    refine ⟨chain.length, fun depth hd => .refused hk ?_⟩
    rw [included_of_le hd, hr]
  | @failed chain t ts tree error hk hr _ ih =>
    obtain ⟨enough, ih⟩ := ih
    refine ⟨max enough chain.length, fun depth hd => ?_⟩
    obtain ⟨hd, hlength⟩ := Nat.max_le.mp hd
    have hi : included ⟨provide, depth⟩ limit chain t.value = .ok tree := by
      rw [included_of_le hlength, hr]
    exact .failed hk hi (closed_of_replacement hr) (ih depth hd)
  | @spliced chain t ts tree front outcome hk hr _ _ ihfront ih =>
    obtain ⟨enough, ihfront⟩ := ihfront
    obtain ⟨enough', ih⟩ := ih
    refine ⟨max (max enough enough') chain.length, fun depth hd => ?_⟩
    obtain ⟨hd, hlength⟩ := Nat.max_le.mp hd
    obtain ⟨hd, hd'⟩ := Nat.max_le.mp hd
    have hi : included ⟨provide, depth⟩ limit chain t.value = .ok tree := by
      rw [included_of_le hlength, hr]
    exact .spliced hk hi (closed_of_replacement hr) (ihfront depth hd) (ih depth hd')

/-- What becomes of a tree: with the expansion at top level it is done, and a failure leaves it as
it was. -/
def Leaves (tree : TokenTree) (outcome : Except Error (List Token)) (after : TokenTree) : Prop :=
  match outcome with
  | .ok expansion => after.topTokens = expansion ∧ ∀ t ∈ after.topTokens, t.kind ≠ .includeFlag
  | .error _ => tree.Enlarges after ∧ after.topTokens = tree.topTokens

theorem stands_topLevel (hc : tree.Closed) : Stands tree tree.topLevel tree.topTokens :=
  ⟨hc, hc.inside TokenTree.root, rfl⟩

/-- A work list that gets to the expansion of a tree's tokens puts it at top level. -/
theorem merge_of_runs_ok {origin : String} {expansion : List Token} (hc : tree.Closed)
    (hr : Runs provider limit [origin] tree.topTokens (.ok expansion)) :
    ∃ merged, merge provider limit origin tree = (.ok (), merged) ∧
      merged.topTokens = expansion ∧ merged.kind TokenTree.root = tree.kind TokenTree.root := by
  obtain ⟨after, he, kept, hkept, hrun⟩ := hr (stands_topLevel hc) [] []
  rw [List.append_nil, splice_nil, List.append_nil, List.reverse_reverse] at hrun
  have hmerge : merge provider limit origin tree = (.ok (), after.setTopLevel kept) := by
    rw [merge_apply, hrun]
  refine ⟨_, hmerge, ?_, ?_⟩
  · rw [TokenTree.topTokens_setTopLevel hkept.closed fun id hm => (hkept.inside id hm).1,
      hkept.tokens_eq]
  · rw [TokenTree.kind_setTopLevel, TokenTree.kind, he.node_eq _ hc.root_lt, TokenTree.kind]

theorem merge_of_runs_error {origin : String} (hc : tree.Closed)
    (hr : Runs provider limit [origin] tree.topTokens (.error error)) :
    ∃ after, merge provider limit origin tree = (.error error, after) ∧ tree.Enlarges after := by
  obtain ⟨after, he, hrun⟩ := hr (stands_topLevel hc) [] []
  rw [List.append_nil] at hrun
  exact ⟨after, by rw [merge_apply, hrun], he⟩

theorem merge_of_runs {origin : String} (hc : tree.Closed)
    (h : Expands provider.provide limit [origin] tree.topTokens outcome)
    (hr : Runs provider limit [origin] tree.topTokens outcome) :
    (merge provider limit origin tree).1 = outcome.map (fun _ => ()) ∧
      Leaves tree outcome (merge provider limit origin tree).2 := by
  cases outcome with
  | error error =>
    obtain ⟨after, hmerge, he⟩ := merge_of_runs_error hc hr
    rw [hmerge]
    exact ⟨rfl, he, he.topTokens_eq hc⟩
  | ok expansion =>
    obtain ⟨merged, hmerge, htop, -⟩ := merge_of_runs_ok hc hr
    rw [hmerge]
    refine ⟨rfl, htop, ?_⟩
    show ∀ t ∈ merged.topTokens, _
    rw [htop]
    exact h.kind_ne rfl

/-- Where the recursion that replaces each directive by the expansion of its source is finite,
merging has its outcome: the same tokens are at top level, none of them a directive, or the same
failure is reported and every token is as it was. A provider only has to allow for the depth of the
recursion. -/
theorem merge_eq_expansion {provide : String → Except Error String} {limit : ℕ} {origin : String}
    {tree : TokenTree} {outcome : Except Error (List Token)} (hc : tree.Closed)
    (h : Expands provide limit [origin] tree.topTokens outcome) :
    (∀ other, Expands provide limit [origin] tree.topTokens other → other = outcome) ∧
    ∃ enough, ∀ depth ≥ enough,
      (merge ⟨provide, depth⟩ limit origin tree).1 = outcome.map (fun _ => ()) ∧
        Leaves tree outcome (merge ⟨provide, depth⟩ limit origin tree).2 := by
  obtain ⟨enough, hruns⟩ := h.runs
  exact ⟨fun other h' => h'.unique h, enough, fun depth hd => merge_of_runs hc h (hruns depth hd)⟩

def directive (name : String) : String := "#/include \"" ++ name ++ "\""

theorem tokenize_directive {name : String} (hne : name.toList ≠ [])
    (hn : name.toList.all Lexeme.isSourceNameChar = true) (limit : ℕ) :
    tokenize (directive name) limit = .ok (.ofTokens [.leaf .includeFlag name]) := by
  have hchars : (directive name).toList = "#/include \"".toList ++ name.toList ++ ['"'] := by
    rw [directive, String.toList_append, String.toList_append]
    rfl
  have hstep : Blocks.step .standard {} (directive name).toList =
      some (Blocks.push {} (.leaf .includeFlag name), []) := by
    have hs := Lexeme.scan_includeFlag hne (List.all_eq_true.mp hn) []
    rw [← hchars] at hs
    rw [Blocks.step]
    show (Lexeme.scan .main _).map _ = _
    rw [hs]
    simp [Blocks.apply, Blocks.push]
  have hclose : (Blocks.push {} (.leaf .includeFlag name)).closeNearest .main =
      Blocks.push {} (.leaf .includeFlag name) := by
    rw [Blocks.closeNearest]
    rfl
  rw [tokenize, Tokenize.tokens, Tokenize.run_of_step (fun hm => by cases hm) hstep, Tokenize.run,
    Except.map, Except.map, Blocks.finish, hclose]
  rfl

def nestedSources : Sources := [("mid", directive "leaf"), ("leaf", "C=3")]

def leafDeclaration : Token := .node .assignment "C" false [.leaf .text "3"]

def nestedTree : TokenTree := .ofTokens [.leaf .includeFlag "mid", .leaf .includeFlag "leaf"]

theorem expands_leaf {ts expansion : List Token} (hn : "leaf" ∉ chain)
    (h : Expands nestedSources.provide 20 chain ts (.ok expansion)) :
    Expands nestedSources.provide 20 chain (.leaf .includeFlag "leaf" :: ts)
      (.ok (leafDeclaration :: expansion)) := by
  have hr : replacement nestedSources.provide 20 chain "leaf" =
      .ok (.ofTokens [leafDeclaration]) := by
    rw [replacement_of_notMem hn (Sources.provide_eq_ok_iff.mpr rfl)]
    cbv
  have hfront : Expands nestedSources.provide 20 (chain ++ ["leaf"])
      (TokenTree.ofTokens [leafDeclaration]).topTokens (.ok [leafDeclaration]) := by
    rw [TokenTree.topTokens_ofTokens]
    exact .kept Kind.noConfusion (.nil _)
  exact .of_leaf hr hfront h

theorem merge_eq_expansion_nested :
    nestedTree.Closed ∧
      Expands nestedSources.provide 20 ["main"] nestedTree.topTokens
        (.ok [leafDeclaration, leafDeclaration]) ∧
      ∃ enough, ∀ depth ≥ enough,
        (merge ⟨nestedSources.provide, depth⟩ 20 "main" nestedTree).2.topTokens =
          [leafDeclaration, leafDeclaration] := by
  have hc : nestedTree.Closed := TokenTree.closed_ofTokens _
  have hmid : replacement nestedSources.provide 20 ["main"] "mid" =
      .ok (.ofTokens [.leaf .includeFlag "leaf"]) := by
    rw [replacement_of_notMem (by decide) (Sources.provide_eq_ok_iff.mpr rfl),
      tokenize_directive (by decide) (by decide)]
  have hfront : Expands nestedSources.provide 20 ["main", "mid"]
      (TokenTree.ofTokens [.leaf .includeFlag "leaf"]).topTokens (.ok [leafDeclaration]) := by
    rw [TokenTree.topTokens_ofTokens]
    exact expands_leaf (by decide) (.nil _)
  have hleaf : Expands nestedSources.provide 20 ["main"] [.leaf .includeFlag "leaf"]
      (.ok [leafDeclaration]) := expands_leaf (by decide) (.nil _)
  have h : Expands nestedSources.provide 20 ["main"] nestedTree.topTokens
      (.ok [leafDeclaration, leafDeclaration]) := by
    rw [nestedTree, TokenTree.topTokens_ofTokens]
    exact .of_leaf hmid hfront hleaf
  obtain ⟨-, enough, hmerge⟩ := merge_eq_expansion hc h
  exact ⟨hc, h, enough, fun depth hd => (hmerge depth hd).2.1⟩

end Include
end LayeredEnv
