import LayeredEnv.Operator.Apply
import LayeredEnv.Provider
import LayeredEnv.Token.Tokenize

namespace LayeredEnv.Include

/-- `after` is `before` with smaller numbers, or none, in place of the first one. -/
def Falls (after before : List Nat) : Prop :=
  ∃ n fresh rest, before = n :: rest ∧ after = fresh ++ rest ∧ ∀ m ∈ fresh, m < n

namespace Falls

theorem acc_append {fresh rest : List Nat} (hr : Acc Falls rest)
    (hf : ∀ m ∈ fresh, ∀ rest, Acc Falls rest → Acc Falls (m :: rest)) :
    Acc Falls (fresh ++ rest) := by
  induction fresh with
  | nil => exact hr
  | cons m fresh ih =>
    rw [List.forall_mem_cons] at hf
    exact hf.1 _ (ih hf.2)

theorem acc_cons (n : Nat) : ∀ rest, Acc Falls rest → Acc Falls (n :: rest) := by
  induction n using Nat.strongRecOn with
  | _ n ih =>
  intro rest hr
  constructor
  rintro after ⟨m, fresh, rest', hb, rfl, hlt⟩
  cases hb
  exact acc_append hr fun k hk => ih k (hlt k hk)

theorem wf : WellFounded Falls := by
  constructor
  intro l
  induction l with
  | nil =>
    constructor
    rintro after ⟨n, fresh, rest, hb, -⟩
    cases hb
  | cons n rest ih => exact acc_cons n rest ih

end Falls

/-- A node that is left to look at. `chain` has the names of the sources that it comes from,
outermost first. -/
structure Item where
  id : Nat
  chain : List String

def items (chain : List String) (ids : List Nat) : List Item := ids.map fun id => ⟨id, chain⟩

theorem map_id_items (chain : List String) (ids : List Nat) :
    (items chain ids).map (·.id) = ids := by
  rw [items, List.map_map]
  exact List.map_id ids

/-- The number of sources that may still include each other below an item. -/
def Item.rank (provider : Provider) (item : Item) : Nat := provider.depth + 1 - item.chain.length

/-- The tree that gives its tokens for a directive which names a source. To include a source of the
chain again is refused. -/
def included (provider : Provider) (limit : Nat) (chain : List String) (name : String) :
    Except Error TokenTree := do
  if chain.contains name then throw (.cyclicInclude (chain ++ [name]))
  let text ← provider.provide name
  if provider.depth < chain.length then throw (.includesTooDeep (chain ++ [name]))
  tokenize text limit

theorem included_eq (provider : Provider) (limit : Nat) (chain : List String) (name : String) :
    included provider limit chain name =
      if name ∈ chain then .error (.cyclicInclude (chain ++ [name]))
      else match provider.provide name with
        | .error error => .error error
        | .ok text =>
          if provider.depth < chain.length then .error (.includesTooDeep (chain ++ [name]))
          else tokenize text limit := by
  unfold included
  by_cases hc : name ∈ chain
  · rw [if_pos hc, if_pos (by simpa using hc)]
    rfl
  · rw [if_neg hc, if_neg (by simpa using hc)]
    cases provider.provide name with
    | error error => rfl
    | ok text =>
      show (if provider.depth < chain.length then _ else _) = _
      split <;> rfl

theorem length_le_of_included {provider : Provider} {limit : Nat} {chain : List String}
    {name : String} {tree : TokenTree} (h : included provider limit chain name = .ok tree) :
    chain.length ≤ provider.depth := by
  rw [included_eq] at h
  split at h
  · cases h
  · split at h
    · cases h
    · split at h
      · cases h
      · omega

theorem falls_next {provider : Provider} {item : Item} (rest : List Item) :
    Falls (rest.map (Item.rank provider)) ((item :: rest).map (Item.rank provider)) :=
  ⟨_, [], _, rfl, rfl, by simp⟩

theorem falls_included {provider : Provider} {item : Item}
    (h : item.chain.length ≤ provider.depth) (name : String) (ids : List Nat) (rest : List Item) :
    Falls ((items (item.chain ++ [name]) ids ++ rest).map (Item.rank provider))
      ((item :: rest).map (Item.rank provider)) := by
  refine ⟨_, _, _, rfl, List.map_append, fun m hm => ?_⟩
  simp only [items, List.map_map, List.mem_map, Function.comp_apply, Item.rank,
    List.length_append, List.length_singleton] at hm
  obtain ⟨id, -, rfl⟩ := hm
  unfold Item.rank
  omega

def graft (other : TokenTree) : Eval TokenTree (List Nat) := fun tree =>
  let (tree, ids) := tree.graft other
  (.ok ids, tree)

/-- Goes through the work list, and replaces the directives in it; `done` are the nodes before it,
the last one first. -/
def splice (provider : Provider) (limit : Nat) (done : List Nat) :
    List Item → Eval TokenTree (List Nat)
  | [] => pure done.reverse
  | item :: rest => do
    let tree ← get
    if tree.kind item.id == .includeFlag then
      let name := tree.value item.id
      match _h : included provider limit item.chain name with
      | .error error => throw error
      | .ok other =>
        let ids ← graft other
        -- the list may grow here, but what is new in it is nested more deeply
        splice provider limit done (items (item.chain ++ [name]) ids ++ rest)
    else splice provider limit (item.id :: done) rest
termination_by work => Falls.wf.wrap (work.map (Item.rank provider))
decreasing_by
  · exact falls_included (length_le_of_included _h) _ _ rest
  · exact falls_next rest

section Splice

variable {provider : Provider} {limit : Nat} {item : Item} {tree : TokenTree}

theorem splice_nil (done : List Nat) :
    splice provider limit done [] tree = (.ok done.reverse, tree) := by
  rw [splice]
  rfl

theorem splice_of_ne (h : tree.kind item.id ≠ .includeFlag) (done : List Nat) (rest : List Item) :
    splice provider limit done (item :: rest) tree =
      splice provider limit (item.id :: done) rest tree := by
  rw [splice, Eval.bind_apply]
  show (if tree.kind item.id == .includeFlag then _ else _ : Eval TokenTree (List Nat)) tree = _
  rw [if_neg (by simpa using h)]

theorem splice_of_includeFlag (h : tree.kind item.id = .includeFlag) (done : List Nat)
    (rest : List Item) :
    splice provider limit done (item :: rest) tree =
      match included provider limit item.chain (tree.value item.id) with
      | .error error => (.error error, tree)
      | .ok other =>
        splice provider limit done
          (items (item.chain ++ [tree.value item.id]) (tree.graft other).2 ++ rest)
          (tree.graft other).1 := by
  rw [splice, Eval.bind_apply]
  show (if tree.kind item.id == .includeFlag then _ else _ : Eval TokenTree (List Nat)) tree = _
  rw [if_pos (by simpa using h)]
  cases included provider limit item.chain (tree.value item.id) with
  | error error => rfl
  | ok other => rfl

end Splice

/-- Replaces every top-level directive of the tree that is the state, whose text is that of the
source `origin`. If that fails, the tree is as before but for nodes that nothing links to. -/
def merge (provider : Provider) (limit : Nat) (origin : String) : Eval TokenTree Unit := do
  let ids ← splice provider limit [] (items [origin] (← get).topLevel)
  modify (·.setTopLevel ids)

theorem merge_apply (provider : Provider) (limit : Nat) (origin : String) (tree : TokenTree) :
    merge provider limit origin tree =
      match splice provider limit [] (items [origin] tree.topLevel) tree with
      | (.ok ids, tree) => (.ok (), tree.setTopLevel ids)
      | (.error error, tree) => (.error error, tree) := by
  rw [merge, Eval.bind_apply]
  show (splice provider limit [] (items [origin] tree.topLevel) >>= _) tree = _
  rw [Eval.bind_apply]
  rcases splice provider limit [] (items [origin] tree.topLevel) tree with ⟨_ | ids, after⟩
  · rfl
  · rfl

/-- Where there are no directives, none is replaced. -/
theorem splice_of_forall_ne {provider : Provider} {limit : Nat} {chain : List String}
    {tree : TokenTree} {ids : List Nat} (h : ∀ id ∈ ids, tree.kind id ≠ .includeFlag)
    (done : List Nat) :
    splice provider limit done (items chain ids) tree = (.ok (done.reverse ++ ids), tree) := by
  induction ids generalizing done with
  | nil =>
    show splice provider limit done [] tree = _
    rw [splice_nil, List.append_nil]
  | cons id ids ih =>
    rw [List.forall_mem_cons] at h
    show splice provider limit done (⟨id, chain⟩ :: items chain ids) tree = _
    rw [splice_of_ne h.1, ih h.2, List.reverse_cons, List.append_assoc, List.singleton_append]

theorem merge_of_forall_ne {provider : Provider} {limit : Nat} {origin : String}
    {tree : TokenTree} (h : ∀ id ∈ tree.topLevel, tree.kind id ≠ .includeFlag) :
    merge provider limit origin tree = (.ok (), tree.setTopLevel tree.topLevel) := by
  rw [merge_apply, splice_of_forall_ne h]
  rfl

end LayeredEnv.Include
