import LayeredEnv.Proofs.Inclusion.Expansion
import LayeredEnv.Proofs.Tokenizing.Grammar

namespace LayeredEnv.Include

/-- Not empty, and made of letters, digits and `-`, `_`, `.`, `$` and `%`. -/
def IsSourceName (name : String) : Prop :=
  name ≠ "" ∧ ∀ c ∈ name.toList, Text.isAlphanumeric c = true ∨ c ∈ ['-', '_', '.', '$', '%']

structure Pending where
  work : List Item
  tree : TokenTree

inductive Goes (provider : Provider) (limit : ℕ) : Pending → Pending → Prop where
  | refl (state : Pending) : Goes provider limit state state
  | passed {item : Item} {rest : List Item} {tree : TokenTree} {last : Pending} :
    tree.kind item.id ≠ .includeFlag → Goes provider limit ⟨rest, tree⟩ last →
      Goes provider limit ⟨item :: rest, tree⟩ last
  | entered {item : Item} {rest : List Item} {tree other : TokenTree} {last : Pending} :
    tree.kind item.id = .includeFlag →
      included provider limit item.chain (tree.value item.id) = .ok other →
      Goes provider limit
        ⟨items (item.chain ++ [tree.value item.id]) (tree.graft other).2 ++ rest,
          (tree.graft other).1⟩ last →
      Goes provider limit ⟨item :: rest, tree⟩ last

/-- From a state on, the loop asks the provider for a name: it comes to a directive of that name
which is not inside the source of that name. -/
def AsksFrom (provider : Provider) (limit : ℕ) (state : Pending) (name : String) : Prop :=
  ∃ item rest tree, Goes provider limit state ⟨item :: rest, tree⟩ ∧
    tree.kind item.id = .includeFlag ∧ tree.value item.id = name ∧ name ∉ item.chain

def Asks (provider : Provider) (limit : ℕ) (origin : String) (tree : TokenTree) (name : String) :
    Prop :=
  AsksFrom provider limit ⟨items [origin] tree.topLevel, tree⟩ name

variable {provider : Provider} {limit : ℕ} {item : Item} {rest work : List Item}
  {tree other : TokenTree} {name : String}

theorem AsksFrom.passed (hk : tree.kind item.id ≠ .includeFlag)
    (h : AsksFrom provider limit ⟨rest, tree⟩ name) :
    AsksFrom provider limit ⟨item :: rest, tree⟩ name := by
  obtain ⟨found, after, last, hgoes, hfound⟩ := h
  exact ⟨found, after, last, .passed hk hgoes, hfound⟩

theorem AsksFrom.entered (hk : tree.kind item.id = .includeFlag)
    (hi : included provider limit item.chain (tree.value item.id) = .ok other)
    (h : AsksFrom provider limit
      ⟨items (item.chain ++ [tree.value item.id]) (tree.graft other).2 ++ rest,
        (tree.graft other).1⟩ name) :
    AsksFrom provider limit ⟨item :: rest, tree⟩ name := by
  obtain ⟨found, after, last, hgoes, hfound⟩ := h
  exact ⟨found, after, last, .entered hk hi hgoes, hfound⟩

theorem AsksFrom.head (hk : tree.kind item.id = .includeFlag)
    (hn : tree.value item.id ∉ item.chain) :
    AsksFrom provider limit ⟨item :: rest, tree⟩ (tree.value item.id) :=
  ⟨item, rest, tree, .refl _, hk, rfl, hn⟩

/-- Two providers that say the same of the names asked for lead the loop to the same end. -/
theorem splice_congr {provide : String → Except Error String} (done : List ℕ)
    (h : ∀ name, AsksFrom provider limit ⟨work, tree⟩ name →
      provide name = provider.provide name) :
    splice ⟨provide, provider.depth⟩ limit done work tree =
      splice provider limit done work tree := by
  -- along the order in which the loop ends
  induction hwork : work.map (Item.rank provider) using Falls.wf.induction
    generalizing work tree done with
  | _ ranks ih =>
  subst hwork
  cases work with
  | nil => rw [splice_nil, splice_nil]
  | cons item rest =>
    by_cases hk : tree.kind item.id = .includeFlag
    · have hsame : included ⟨provide, provider.depth⟩ limit item.chain (tree.value item.id) =
          included provider limit item.chain (tree.value item.id) := by
        by_cases hn : tree.value item.id ∈ item.chain
        · rw [included_eq, included_eq, if_pos hn, if_pos hn]
        · have hprovide := h _ (.head hk hn)
          rw [included_eq, included_eq, if_neg hn, if_neg hn]
          dsimp only
          rw [hprovide]
      rw [splice_of_includeFlag hk, splice_of_includeFlag hk, hsame]
      cases hi : included provider limit item.chain (tree.value item.id) with
      | error error => rfl
      | ok other =>
        exact ih _ (falls_included (length_le_of_included hi) _ _ rest) done
          (fun name hasks => h name (hasks.entered hk hi)) rfl
    · rw [splice_of_ne hk, splice_of_ne hk]
      exact ih _ (falls_next rest) _ (fun name hasks => h name (hasks.passed hk)) rfl

/-- What the provider says of names that a merge does not ask for has no bearing on it. -/
theorem merge_congr {provide : String → Except Error String} {origin : String}
    (h : ∀ name, Asks provider limit origin tree name → provide name = provider.provide name) :
    merge ⟨provide, provider.depth⟩ limit origin tree = merge provider limit origin tree := by
  rw [merge_apply, merge_apply, splice_congr [] h]

/-- The nodes that are left to look at are stored, and the directives among them have names that a
directive may have. -/
structure Named (state : Pending) : Prop where
  closed : state.tree.Closed
  stored : ∀ item ∈ state.work, item.id < state.tree.size
  isSourceName : ∀ item ∈ state.work, state.tree.kind item.id = .includeFlag →
    IsSourceName (state.tree.value item.id)

theorem isSourceName_of_tokenize {text : String} (h : tokenize text limit = .ok tree) :
    ∀ t ∈ tree.topTokens, t.kind = .includeFlag → IsSourceName t.value := by
  obtain ⟨ts, rfl, hts⟩ := TokenTree.exists_tokens_of_tokenize h
  rw [TokenTree.topTokens_ofTokens]
  intro t hm hk
  obtain ⟨_, harranged, -⟩ := (Tokenize.shapedAll_of_tokens hts).of_mem hm
  have hwording := harranged.wording
  rw [hk] at hwording
  refine ⟨?_, fun c hc => ?_⟩
  · simpa using hwording.1
  · simpa [Lexeme.isSourceNameChar, or_assoc] using hwording.2 c hc

theorem tokenize_of_included {chain : List String}
    (h : included provider limit chain name = .ok other) :
    ∃ text, tokenize text limit = .ok other := by
  rw [included_eq] at h
  split at h
  · cases h
  · split at h
    · cases h
    · next text _ =>
      split at h
      · cases h
      · exact ⟨text, h⟩

theorem Named.tail (h : Named ⟨item :: rest, tree⟩) : Named ⟨rest, tree⟩ where
  closed := h.closed
  stored item hm := h.stored item (List.mem_cons_of_mem _ hm)
  isSourceName item hm := h.isSourceName item (List.mem_cons_of_mem _ hm)

/-- Nodes that a text brings along are named, as those are that were there. -/
theorem Named.graft {text : String} (h : Named ⟨rest, tree⟩) (ht : tokenize text limit = .ok other)
    (chain : List String) :
    Named ⟨items chain (tree.graft other).2 ++ rest, (tree.graft other).1⟩ := by
  have ho : other.Closed := TokenTree.closed_of_tokenize ht
  have henlarges : tree.Enlarges (tree.graft other).1 := tree.enlarges_graft other
  refine ⟨h.closed.graft ho, ?_, ?_⟩
  · intro item hm
    obtain hm | hm := List.mem_append.mp hm
    · obtain ⟨id, hid, rfl⟩ := List.mem_map.mp hm
      exact (ho.inside_graft tree id hid).2
    · exact Nat.lt_of_lt_of_le (h.stored item hm) henlarges.size_le
  · intro item hm hk
    obtain hm | hm := List.mem_append.mp hm
    · obtain ⟨id, hid, rfl⟩ := List.mem_map.mp hm
      have htop : (tree.graft other).1.subtree id ∈ other.topTokens := by
        rw [← TokenTree.map_subtree_graft tree other]
        exact List.mem_map_of_mem hid
      have hname := isSourceName_of_tokenize ht _ htop
      rw [TokenTree.kind_subtree, TokenTree.value_subtree] at hname
      exact hname hk
    · have hnode := henlarges.node_eq item.id (h.stored item hm)
      have hkind : (tree.graft other).1.kind item.id = tree.kind item.id :=
        congrArg Node.kind hnode
      have hvalue : (tree.graft other).1.value item.id = tree.value item.id :=
        congrArg Node.value hnode
      rw [hkind] at hk
      rw [hvalue]
      exact h.isSourceName item hm hk

theorem Named.goes {state last : Pending} (h : Named state)
    (hgoes : Goes provider limit state last) : Named last := by
  induction hgoes with
  | refl => exact h
  | passed _ _ ih => exact ih h.tail
  | entered _ hi _ ih =>
    obtain ⟨text, ht⟩ := tokenize_of_included hi
    exact ih (h.tail.graft ht _)

/-- Every name that is asked for is made of the characters of a directive's name. -/
theorem isSourceName_of_asks {text origin : String} (h : tokenize text limit = .ok tree)
    (hasks : Asks provider limit origin tree name) : IsSourceName name := by
  have hc : tree.Closed := TokenTree.closed_of_tokenize h
  have hstart : Named ⟨items [origin] tree.topLevel, tree⟩ := by
    refine ⟨hc, ?_, ?_⟩
    · intro item hm
      obtain ⟨id, hid, rfl⟩ := List.mem_map.mp hm
      exact (hc.inside TokenTree.root id hid).2
    · intro item hm hk
      obtain ⟨id, hid, rfl⟩ := List.mem_map.mp hm
      have hname := isSourceName_of_tokenize h (tree.subtree id) (List.mem_map_of_mem hid)
      rw [TokenTree.kind_subtree, TokenTree.value_subtree] at hname
      exact hname hk
  obtain ⟨item, rest, last, hgoes, hk, rfl, -⟩ := hasks
  exact (hstart.goes hgoes).isSourceName item List.mem_cons_self hk

end LayeredEnv.Include
