import LayeredEnv.Token.Tree

namespace LayeredEnv.TokenTree

structure Closed (tree : TokenTree) : Prop where
  root_lt : root < tree.size
  inside : ∀ id, ∀ child ∈ tree.children id, root < child ∧ child < tree.size

structure Ordered (tree : TokenTree) : Prop where
  root_lt : root < tree.size
  after : ∀ id, ∀ child ∈ tree.children id, id < child ∧ child < tree.size

theorem Ordered.closed {tree : TokenTree} (h : tree.Ordered) : tree.Closed :=
  ⟨h.root_lt, fun id child hm =>
    ⟨Nat.lt_of_le_of_lt (Nat.zero_le id) (h.after id child hm).1, (h.after id child hm).2⟩⟩

/-- A node is stored, and so is all that is listed below it. -/
structure Stored (tree : TokenTree) (id : Nat) : Prop where
  lt_size : id < tree.size
  inside : ∀ k, tree.Leads id k → ∀ child ∈ tree.children k, child < tree.size

theorem Stored.child {tree : TokenTree} {id child : Nat} (h : tree.Stored id)
    (hm : child ∈ tree.children id) : tree.Stored child where
  lt_size := h.inside id (.refl id) child hm
  inside k hway := h.inside k (.step hm (h.inside id (.refl id) child hm) hway)

theorem Closed.stored {tree : TokenTree} (h : tree.Closed) {id : Nat} (hid : id < tree.size) :
    tree.Stored id :=
  ⟨hid, fun k _ child hm => (h.inside k child hm).2⟩

/-- Where the root is nobody's child, no other node leads to it. -/
theorem Closed.not_leads_root {tree : TokenTree} (h : tree.Closed) {id : Nat} (hid : id ≠ root) :
    ¬tree.Leads id root := by
  intro hway
  generalize hlast : root = last at hway
  induction hway with
  | refl => exact hid hlast.symm
  | step hm _ _ ih => exact ih (Nat.ne_of_gt (h.inside _ _ hm).1) hlast

/-- `after` has the nodes of `before`, and perhaps more behind them. -/
structure Enlarges (before after : TokenTree) : Prop where
  size_le : before.size ≤ after.size
  node_eq : ∀ id < before.size, after.node id = before.node id

theorem Enlarges.refl (tree : TokenTree) : Enlarges tree tree :=
  ⟨Nat.le_refl _, fun _ _ => rfl⟩

theorem Enlarges.trans {a b c : TokenTree} (hab : Enlarges a b) (hbc : Enlarges b c) :
    Enlarges a c :=
  ⟨Nat.le_trans hab.size_le hbc.size_le, fun id h =>
    (hbc.node_eq id (Nat.lt_of_lt_of_le h hab.size_le)).trans (hab.node_eq id h)⟩

theorem Enlarges.children_eq {before after : TokenTree} (h : Enlarges before after) {id : Nat}
    (hid : id < before.size) : after.children id = before.children id :=
  congrArg Node.children (h.node_eq id hid)

/-- From a node below which everything was stored, no new ways lead. -/
theorem Enlarges.leads_iff {before after : TokenTree} (h : Enlarges before after) {id last : Nat}
    (hs : before.Stored id) : after.Leads id last ↔ before.Leads id last := by
  constructor
  · intro hway
    induction hway with
    | refl => exact .refl _
    | step hm _ _ ih =>
      rw [h.children_eq hs.lt_size] at hm
      exact .step hm (hs.child hm).lt_size (ih (hs.child hm))
  · intro hway
    refine hway.mono fun k m _ hm hlt => ⟨?_, Nat.lt_of_lt_of_le hlt h.size_le⟩
    rwa [h.children_eq (lt_of_mem_children hm)]

theorem Enlarges.forward_eq {before after : TokenTree} (h : Enlarges before after) {id : Nat}
    (hs : before.Stored id) : after.forward id = before.forward id := by
  refine forward_congr (h.children_eq hs.lt_size) fun child hm => ?_
  have hlt := (hs.child hm).lt_size
  exact ⟨⟨fun _ => hlt, fun _ => Nat.lt_of_lt_of_le hlt h.size_le⟩,
    fun _ => h.leads_iff (hs.child hm)⟩

theorem Stored.of_mem_walk {tree : TokenTree} {id : Nat} (h : tree.Stored id) :
    ∀ k ∈ tree.walk id, tree.Stored k :=
  forall_mem_walk (fun _ hs _ hm => hs.child (mem_forward.mp hm).1) h

/-- The tokens of the nodes that were there stay the same. -/
theorem Enlarges.subtree_of_stored {before after : TokenTree} (h : Enlarges before after) {id : Nat}
    (hs : before.Stored id) : after.subtree id = before.subtree id := by
  refine subtree_congr fun k hk => ?_
  have hk := hs.of_mem_walk k hk
  exact ⟨h.node_eq k hk.lt_size, h.forward_eq hk⟩

theorem Enlarges.subtree_eq {before after : TokenTree} (h : Enlarges before after)
    (hc : before.Closed) {id : Nat} (hid : id < before.size) :
    after.subtree id = before.subtree id :=
  h.subtree_of_stored (hc.stored hid)

theorem Enlarges.topTokens_eq {before after : TokenTree} (h : Enlarges before after)
    (hc : before.Closed) : after.topTokens = before.topTokens := by
  rw [topTokens, topTokens, topLevel, topLevel, h.children_eq hc.root_lt]
  exact List.map_congr_left fun id hm => h.subtree_eq hc (hc.inside root id hm).2

@[simp] theorem size_graft (tree other : TokenTree) :
    (tree.graft other).1.size = tree.size + other.size := by
  simp [graft, size]

theorem node_graft (tree other : TokenTree) (id : Nat) :
    (tree.graft other).1.node id =
      if id < tree.size then tree.node id
      else Node.shift tree.size (other.node (id - tree.size)) := by
  unfold node graft size
  rw [Array.getElem?_append]
  split
  · rfl
  · rw [Array.getElem?_map]
    cases other.nodes[id - tree.nodes.size]? <;> rfl

theorem enlarges_graft (tree other : TokenTree) : Enlarges tree (tree.graft other).1 :=
  ⟨by simp, fun id h => by rw [node_graft, if_pos h]⟩

theorem node_graft_add (tree other : TokenTree) (id : Nat) :
    (tree.graft other).1.node (id + tree.size) = Node.shift tree.size (other.node id) := by
  rw [node_graft, if_neg (by omega), Nat.add_sub_cancel]

theorem children_graft_add (tree other : TokenTree) (id : Nat) :
    (tree.graft other).1.children (id + tree.size) =
      (other.children id).map (· + tree.size) := by
  rw [children, node_graft_add]
  rfl

theorem leads_graft_add_iff (tree other : TokenTree) (id last : Nat) :
    (tree.graft other).1.Leads (id + tree.size) (last + tree.size) ↔ other.Leads id last := by
  constructor
  · intro hway
    generalize hid : id + tree.size = first at hway
    generalize hlast : last + tree.size = goal at hway
    induction hway generalizing id with
    | refl =>
      obtain rfl : id = last := by omega
      exact .refl id
    | step hm hlt _ ih =>
      subst hid
      rw [children_graft_add] at hm
      obtain ⟨child, hchild, rfl⟩ := List.mem_map.mp hm
      rw [size_graft] at hlt
      exact .step hchild (by omega) (ih child rfl hlast)
  · intro hway
    induction hway with
    | refl => exact .refl _
    | step hm hlt _ ih =>
      refine .step ?_ ?_ ih
      · rw [children_graft_add]
        exact List.mem_map_of_mem hm
      · rw [size_graft]
        omega

theorem forward_graft_add (tree other : TokenTree) (id : Nat) :
    (tree.graft other).1.forward (id + tree.size) =
      (other.forward id).map (· + tree.size) := by
  refine forward_map (· + tree.size) (children_graft_add tree other id) fun child _ => ?_
  rw [size_graft]
  exact ⟨by omega, by omega, fun _ => leads_graft_add_iff tree other child id⟩

/-- A grafted node stands for the same token. -/
theorem subtree_graft_add (tree other : TokenTree) (id : Nat) :
    (tree.graft other).1.subtree (id + tree.size) = other.subtree id := by
  induction id using forward_induction other with
  | node id ih =>
  rw [subtree_eq, subtree_eq, forward_graft_add, node_graft_add, Node.shift, List.map_map]
  congr 1
  exact List.map_congr_left ih

theorem map_subtree_graft (tree other : TokenTree) :
    (tree.graft other).2.map (tree.graft other).1.subtree = other.topTokens := by
  show (other.topLevel.map (· + tree.size)).map _ = _
  rw [List.map_map]
  exact List.map_congr_left fun id _ => subtree_graft_add tree other id

theorem mem_children_graft {tree other : TokenTree} {id child : Nat}
    (h : child ∈ (tree.graft other).1.children id) :
    child ∈ tree.children id ∨
      ∃ k c, c ∈ other.children k ∧ id = k + tree.size ∧ child = c + tree.size := by
  rw [children, node_graft] at h
  split at h
  · exact Or.inl h
  · obtain ⟨c, hc, rfl⟩ := List.mem_map.mp h
    exact Or.inr ⟨id - tree.size, c, hc, by omega, rfl⟩

theorem Closed.graft {tree other : TokenTree} (h : tree.Closed) (ho : other.Closed) :
    (tree.graft other).1.Closed where
  root_lt := by
    have := h.root_lt
    rw [size_graft]
    omega
  inside id child hm := by
    rw [size_graft]
    rcases mem_children_graft hm with hm | ⟨k, c, hc, rfl, rfl⟩
    · have := h.inside id child hm
      omega
    · have := ho.inside k c hc
      omega

theorem Ordered.graft {tree other : TokenTree} (h : tree.Ordered) (ho : other.Ordered) :
    (tree.graft other).1.Ordered where
  root_lt := (h.closed.graft ho.closed).root_lt
  after id child hm := by
    rw [size_graft]
    rcases mem_children_graft hm with hm | ⟨k, c, hc, rfl, rfl⟩
    · have := h.after id child hm
      omega
    · have := ho.after k c hc
      omega

theorem Closed.inside_graft (tree : TokenTree) {other : TokenTree} (ho : other.Closed) :
    ∀ id ∈ (tree.graft other).2, root < id ∧ id < (tree.graft other).1.size := by
  intro id hm
  obtain ⟨c, hc, rfl⟩ := List.mem_map.mp hm
  have := ho.inside root c hc
  rw [size_graft]
  omega

/-- The tokens of nodes below the root are those that it gets when it has the nodes for children. -/
theorem topTokens_setTopLevel {tree : TokenTree} (h : tree.Closed) {ids : List Nat}
    (hids : ∀ id ∈ ids, root < id) : (tree.setTopLevel ids).topTokens = ids.map tree.subtree := by
  rw [topTokens, topLevel_setTopLevel h.root_lt]
  refine List.map_congr_left fun id hm => ?_
  have hne : id ≠ root := Nat.ne_of_gt (hids id hm)
  exact subtree_setTopLevel hne fun hway => absurd hway (h.not_leads_root hne)

mutual

theorem after_nodesOf : ∀ (t : Token) (start i : Nat) (node : Node),
    (nodesOf start t)[i]? = some node →
    ∀ child ∈ node.children, start + i < child ∧ child < start + t.size
  | .node kind value isLength children, start, i, node, hi, child, hc => by
    rw [Token.size]
    cases i with
    | zero =>
      cases hi
      have := mem_numbers hc
      omega
    | succ i =>
      have := after_nodesOfAll children (start + 1) i node hi child hc
      omega

theorem after_nodesOfAll : ∀ (ts : List Token) (start i : Nat) (node : Node),
    (nodesOfAll start ts)[i]? = some node →
    ∀ child ∈ node.children, start + i < child ∧ child < start + Token.sizeAll ts
  | t :: ts, start, i, node, hi, child, hc => by
    rw [nodesOfAll, List.getElem?_append, length_nodesOf] at hi
    rw [Token.sizeAll]
    split at hi
    · have := after_nodesOf t start i node hi child hc
      omega
    · have := after_nodesOfAll ts (start + t.size) (i - t.size) node hi child hc
      omega

end

theorem size_ofTokens (tokens : List Token) :
    (ofTokens tokens).size = (Token.root tokens).size := by
  rw [ofTokens, size, List.size_toArray, length_nodesOf]

theorem ordered_ofTokens (tokens : List Token) : (ofTokens tokens).Ordered where
  root_lt := by
    rw [size_ofTokens]
    exact Nat.succ_pos _
  after id child hm := by
    rw [size_ofTokens]
    unfold children node ofTokens at hm
    rw [List.getElem?_toArray] at hm
    cases hnode : (nodesOf 0 (.root tokens))[id]? with
    | none =>
      rw [hnode] at hm
      cases hm
    | some node =>
      rw [hnode] at hm
      have := after_nodesOf (.root tokens) 0 id node hnode child hm
      omega

theorem closed_ofTokens (tokens : List Token) : (ofTokens tokens).Closed :=
  (ordered_ofTokens tokens).closed

end LayeredEnv.TokenTree
