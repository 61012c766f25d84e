import LayeredEnv.Proofs.Inclusion.Asked
import LayeredEnv.Proofs.Override.Flatten
import Mathlib.Data.List.Nodup

namespace LayeredEnv.TokenTree

variable {tree other before after : TokenTree} {ids front behind : List ℕ} {id : ℕ}

theorem walk_congr (h : ∀ k ∈ tree.walk id, other.forward k = tree.forward k) :
    other.walk id = tree.walk id := by
  induction id using forward_induction tree with
  | node id ih =>
  rw [walk_eq, List.forall_mem_cons] at h
  rw [walk_eq, walk_eq, h.1]
  congr 1
  exact List.flatMap_congr fun child hm =>
    ih child hm fun k hk => h.2 k (List.mem_flatMap_of_mem hm hk)

theorem Enlarges.walk_eq (h : Enlarges before after) (hs : before.Stored id) :
    after.walk id = before.walk id :=
  walk_congr fun k hk => h.forward_eq (hs.of_mem_walk k hk)

theorem walk_graft_add (tree other : TokenTree) (id : ℕ) :
    (tree.graft other).1.walk (id + tree.size) = (other.walk id).map (· + tree.size) := by
  induction id using forward_induction other with
  | node id ih =>
  rw [walk_eq, walk_eq other, forward_graft_add, List.map_cons, List.flatMap_map, List.map_flatMap]
  congr 1
  exact List.flatMap_congr ih

theorem Ordered.forward_eq (h : tree.Ordered) (id : ℕ) : tree.forward id = tree.children id :=
  forward_eq_of_after (h.after id)

theorem Ordered.mem_walk (h : tree.Ordered) (hid : id < tree.size) :
    ∀ k ∈ tree.walk id, id ≤ k ∧ k < tree.size := by
  refine forall_mem_walk (fun k hk child hm => ?_) ⟨Nat.le_refl id, hid⟩
  rw [h.forward_eq] at hm
  obtain ⟨hlt, hsize⟩ := h.after k child hm
  exact ⟨Nat.le_trans hk.1 (Nat.le_of_lt hlt), hsize⟩

/-- The node that one comes to if one takes, time after time, the child at the next position. -/
def follow (tree : TokenTree) (id : ℕ) : List ℕ → Option ℕ
  | [] => some id
  | i :: path => (tree.children id)[i]?.bind fun child => tree.follow child path

theorem follow_cons_eq_some {i last : ℕ} {path : List ℕ}
    (h : tree.follow id (i :: path) = some last) :
    ∃ child, (tree.children id)[i]? = some child ∧ tree.follow child path = some last := by
  rw [follow, Option.bind_eq_some_iff] at h
  exact h

/-- Each step down goes behind the node. -/
theorem Ordered.add_length_le (h : tree.Ordered) {path : List ℕ} {last : ℕ}
    (hpath : tree.follow id path = some last) : id + path.length ≤ last := by
  induction path generalizing id with
  | nil =>
    cases hpath
    exact Nat.le_refl _
  | cons i path ih =>
    obtain ⟨child, hchild, hrest⟩ := follow_cons_eq_some hpath
    have hlt := (h.after id child (List.mem_of_getElem? hchild)).1
    have := ih hrest
    rw [List.length_cons]
    omega

theorem Ordered.mem_walk_of_follow (h : tree.Ordered) {path : List ℕ} {last : ℕ}
    (hpath : tree.follow id path = some last) : last ∈ tree.walk id := by
  induction path generalizing id with
  | nil =>
    cases hpath
    rw [walk_eq]
    exact List.mem_cons_self
  | cons i path ih =>
    obtain ⟨child, hchild, hrest⟩ := follow_cons_eq_some hpath
    rw [walk_eq, h.forward_eq]
    exact List.mem_cons_of_mem _
      (List.mem_flatMap_of_mem (List.mem_of_getElem? hchild) (ih hrest))

/-- Below different children of a node one comes to different nodes. -/
theorem Ordered.not_lt_of_follow (h : tree.Ordered)
    (hapart : (tree.children id).Pairwise (Function.onFun List.Disjoint tree.walk))
    {i j last child child' : ℕ} {p q : List ℕ} (hchild : (tree.children id)[i]? = some child)
    (hchild' : (tree.children id)[j]? = some child') (hp : tree.follow child p = some last)
    (hq : tree.follow child' q = some last) : ¬i < j := by
  intro hlt
  obtain ⟨hi, rfl⟩ := List.getElem?_eq_some_iff.mp hchild
  obtain ⟨hj, rfl⟩ := List.getElem?_eq_some_iff.mp hchild'
  exact List.pairwise_iff_getElem.mp hapart i j hi hj hlt (h.mem_walk_of_follow hp)
    (h.mem_walk_of_follow hq)

/-- Where a walk comes to no node twice, no two ways lead to one node. -/
theorem Ordered.follow_inj (h : tree.Ordered) (hnodup : (tree.walk id).Nodup) {p q : List ℕ}
    {last : ℕ} (hp : tree.follow id p = some last) (hq : tree.follow id q = some last) : p = q := by
  induction p generalizing id q with
  | nil =>
    cases hp
    have := h.add_length_le hq
    exact (List.eq_nil_of_length_eq_zero (by omega)).symm
  | cons i p ih =>
    cases q with
    | nil =>
      cases hq
      have := h.add_length_le hp
      rw [List.length_cons] at this
      omega
    | cons j q =>
      obtain ⟨child, hchild, hp⟩ := follow_cons_eq_some hp
      obtain ⟨child', hchild', hq⟩ := follow_cons_eq_some hq
      rw [walk_eq, h.forward_eq, List.nodup_cons, List.nodup_flatMap] at hnodup
      obtain ⟨-, hbelow, hapart⟩ := hnodup
      -- both ways begin with the same child
      obtain rfl : i = j := Nat.le_antisymm
        (Nat.le_of_not_lt (h.not_lt_of_follow hapart hchild' hchild hq hp))
        (Nat.le_of_not_lt (h.not_lt_of_follow hapart hchild hchild' hp hq))
      rw [hchild] at hchild'
      cases hchild'
      rw [ih (hbelow child (List.mem_of_getElem? hchild)) hp hq]

mutual

/-- A stored token is walked through in the order in which its nodes are stored. -/
theorem Holds.walk_eq : ∀ {start : ℕ} (t : Token), tree.Holds start (nodesOf start t) →
    tree.walk start = List.range' start t.size
  | start, .node kind value isLength children, h => by
    rw [TokenTree.walk_eq, h.forward_eq, flatMap_walk children h.below, Token.size,
      List.range'_succ]

theorem Holds.flatMap_walk : ∀ {start : ℕ} (ts : List Token),
    tree.Holds start (nodesOfAll start ts) →
    (numbers start ts).flatMap tree.walk = List.range' start (Token.sizeAll ts)
  | _, [], _ => rfl
  | start, t :: ts, h => by
    rw [numbers, List.flatMap_cons, walk_eq t h.left, flatMap_walk ts h.tail, Token.sizeAll,
      List.range'_append_1]

end

/-- Below the nodes, which are none of them the root, one comes to no node twice. -/
structure Linked (tree : TokenTree) (ids : List ℕ) : Prop where
  inside : ∀ id ∈ ids, root < id ∧ id < tree.size
  nodup : (ids.flatMap tree.walk).Nodup

theorem Linked.sublist {kept : List ℕ} (h : tree.Linked ids) (hs : kept.Sublist ids) :
    tree.Linked kept :=
  ⟨fun id hm => h.inside id (hs.subset hm), h.nodup.sublist (hs.flatMap tree.walk)⟩

theorem Enlarges.flatMap_walk (h : Enlarges before after) (hb : before.Ordered)
    (hids : ∀ id ∈ ids, id < before.size) : ids.flatMap after.walk = ids.flatMap before.walk :=
  List.flatMap_congr fun id hm => h.walk_eq (hb.closed.stored (hids id hm))

theorem Linked.of_enlarges (h : before.Linked ids) (hb : before.Ordered)
    (he : Enlarges before after) : after.Linked ids where
  inside id hm := ⟨(h.inside id hm).1, Nat.lt_of_lt_of_le (h.inside id hm).2 he.size_le⟩
  nodup := by
    rw [he.flatMap_walk hb fun id hm => (h.inside id hm).2]
    exact h.nodup

/-- The nodes of a grafted tree stand behind all others, so that they are come to anew. -/
theorem Linked.graft (ht : tree.Ordered) (ho : other.Ordered) (h : tree.Linked (front ++ behind))
    (hother : other.Linked other.topLevel) :
    (tree.graft other).1.Linked (front ++ (tree.graft other).2 ++ behind) := by
  have hkept := h.of_enlarges ht (tree.enlarges_graft other)
  have hnew : (tree.graft other).2.flatMap (tree.graft other).1.walk =
      (other.topLevel.flatMap other.walk).map (· + tree.size) := by
    rw [TokenTree.graft, List.flatMap_map, List.map_flatMap]
    exact List.flatMap_congr fun id _ => walk_graft_add tree other id
  -- the new nodes first: they are told apart from the others by their numbers
  have hperm : (front ++ (tree.graft other).2 ++ behind).Perm
      ((tree.graft other).2 ++ (front ++ behind)) := by
    rw [List.append_assoc]
    exact List.perm_append_comm_assoc ..
  refine ⟨fun id hm => ?_, (hperm.flatMap_right _).nodup_iff.mpr ?_⟩
  · rcases List.mem_append.mp (hperm.mem_iff.mp hm) with hm | hm
    · exact ho.closed.inside_graft tree id hm
    · exact hkept.inside id hm
  · rw [List.flatMap_append, hnew, (tree.enlarges_graft other).flatMap_walk ht
      fun id hm => (h.inside id hm).2]
    refine List.nodup_append'.mpr ⟨hother.nodup.map (add_left_injective _), h.nodup, ?_⟩
    intro k hk hk'
    obtain ⟨j, -, rfl⟩ := List.mem_map.mp hk
    obtain ⟨id, hm, hwalk⟩ := List.mem_flatMap.mp hk'
    exact Nat.not_lt.mpr (Nat.le_add_left _ j) (ht.mem_walk (h.inside id hm).2 _ hwalk).2

theorem Ordered.setTopLevel (h : tree.Ordered) (hids : ∀ id ∈ ids, root < id ∧ id < tree.size) :
    (tree.setTopLevel ids).Ordered where
  root_lt := by
    rw [size_setTopLevel]
    exact h.root_lt
  after id child hm := by
    rw [size_setTopLevel]
    by_cases hid : id = root
    · subst hid
      rw [← topLevel, topLevel_setTopLevel h.root_lt] at hm
      exact hids child hm
    · rw [children_setTopLevel tree ids hid] at hm
      exact h.after id child hm

theorem Ordered.walk_setTopLevel (h : tree.Ordered)
    (hids : ∀ id ∈ ids, root < id ∧ id < tree.size) (hid : root < id ∧ id < tree.size) :
    (tree.setTopLevel ids).walk id = tree.walk id := by
  refine walk_congr fun k hk => ?_
  have hne : k ≠ root := Nat.ne_of_gt (Nat.lt_of_lt_of_le hid.1 (h.mem_walk hid.2 k hk).1)
  rw [(h.setTopLevel hids).forward_eq, h.forward_eq, children_setTopLevel tree ids hne]

/-- A store that is a tree, as far as the root leads. A node can have two parents all the same: the
root of a grafted tree still lists what the root that it was grafted under has got. -/
structure Tidy (tree : TokenTree) : Prop where
  ordered : tree.Ordered
  linked : tree.Linked tree.topLevel

theorem Tidy.setTopLevel (h : tree.Ordered) (hids : tree.Linked ids) :
    (tree.setTopLevel ids).Tidy := by
  refine ⟨h.setTopLevel hids.inside, ?_⟩
  rw [topLevel_setTopLevel h.root_lt]
  refine ⟨fun id hm => ?_, ?_⟩
  · rw [size_setTopLevel]
    exact hids.inside id hm
  · have hwalk : ids.flatMap (tree.setTopLevel ids).walk = ids.flatMap tree.walk :=
      List.flatMap_congr fun id hm => h.walk_setTopLevel hids.inside (hids.inside id hm)
    rw [hwalk]
    exact hids.nodup

theorem Tidy.nodup_walk (h : tree.Tidy) : (tree.walk root).Nodup := by
  rw [walk_eq, h.ordered.forward_eq, List.nodup_cons]
  refine ⟨fun hm => ?_, h.linked.nodup⟩
  obtain ⟨id, hid, hk⟩ := List.mem_flatMap.mp hm
  obtain ⟨hlt, hsize⟩ := h.linked.inside id hid
  exact Nat.not_le_of_gt hlt (h.ordered.mem_walk hsize root hk).1

/-- Flattening only unlinks. -/
theorem Tidy.flattenOverrides (h : tree.Tidy) : tree.flattenOverrides.Tidy :=
  .setTopLevel h.ordered (h.linked.sublist (Override.survivors_sublist _ _))

theorem Tidy.splice (ht : tree.Tidy) (ho : other.Tidy) (h : tree.topLevel = front ++ id :: behind) :
    ((tree.graft other).1.setTopLevel (front ++ (tree.graft other).2 ++ behind)).Tidy := by
  have hlinked : tree.Linked (front ++ behind) := by
    refine ht.linked.sublist ?_
    rw [h]
    exact (List.sublist_cons_self id behind).append_left front
  exact .setTopLevel (ht.ordered.graft ho.ordered) (hlinked.graft ht.ordered ho.ordered ho.linked)

theorem tidy_ofTokens (tokens : List Token) : (ofTokens tokens).Tidy where
  ordered := ordered_ofTokens tokens
  linked := by
    have h := holds_ofTokens tokens
    have htop : (ofTokens tokens).topLevel = numbers (root + 1) tokens :=
      congrArg Node.children h.node_eq
    refine ⟨fun id hm => (ordered_ofTokens tokens).closed.inside root id hm, ?_⟩
    rw [htop, h.below.flatMap_walk]
    exact List.nodup_range'

theorem tidy_of_tokenize {text : String} {limit : ℕ} (h : tokenize text limit = .ok tree) :
    tree.Tidy := by
  obtain ⟨ts, rfl, -⟩ := exists_tokens_of_tokenize h
  exact tidy_ofTokens ts

theorem tidy_of_tokenizeValue {text : String} {limit : ℕ}
    (h : tokenizeValue text limit = .ok (tree, id)) : tree.Tidy := by
  simp only [tokenizeValue] at h
  generalize Tokenize.tokens limit text.toList _ _ = outcome at h
  cases outcome with
  | error error => cases h
  | ok ts =>
    cases h
    exact tidy_ofTokens ts

/-- The loop of a merge keeps the nodes apart that are done or left to look at. -/
theorem linked_splice {provider : Provider} {limit : ℕ} {work : List Include.Item} {done : List ℕ}
    {outcome : Except Error (List ℕ)} (hb : before.Ordered)
    (hids : before.Linked (done.reverse ++ work.map (·.id)))
    (h : Include.splice provider limit done work before = (outcome, after)) :
    after.Ordered ∧ Enlarges before after ∧ ∀ ids, outcome = .ok ids → after.Linked ids := by
  -- along the order in which the loop ends
  induction hwork : work.map (Include.Item.rank provider) using Include.Falls.wf.induction
    generalizing work before done with
  | _ ranks ih =>
  subst hwork
  cases work with
  | nil =>
    rw [Include.splice_nil] at h
    cases h
    rw [List.map_nil, List.append_nil] at hids
    exact ⟨hb, .refl _, fun ids hok => Except.ok.inj hok ▸ hids⟩
  | cons item rest =>
    by_cases hk : before.kind item.id = .includeFlag
    · rw [Include.splice_of_includeFlag hk] at h
      cases hi : Include.included provider limit item.chain (before.value item.id) with
      | error error =>
        rw [hi] at h
        cases h
        exact ⟨hb, .refl _, nofun⟩
      | ok other =>
        rw [hi] at h
        obtain ⟨text, ht⟩ := Include.tokenize_of_included hi
        have hother := tidy_of_tokenize ht
        have hlinked := (hids.sublist
          ((List.sublist_cons_self item.id _).append_left done.reverse)).graft hb hother.ordered
          hother.linked
        obtain ⟨hordered, he, hids⟩ := ih _
          (Include.falls_included (Include.length_le_of_included hi) _ _ rest)
          (hb.graft hother.ordered) (by simpa [Include.map_id_items] using hlinked) h rfl
        exact ⟨hordered, (before.enlarges_graft other).trans he, hids⟩
    · rw [Include.splice_of_ne hk] at h
      exact ih _ (Include.falls_next rest) hb (by simpa using hids) h rfl

/-- Includes that are merged, or fail to be on the way, leave a tree. -/
theorem Tidy.merge (h : tree.Tidy) (provider : Provider) (limit : ℕ) (origin : String) :
    (Include.merge provider limit origin tree).2.Tidy := by
  have hids : tree.Linked ([].reverse ++ (Include.items [origin] tree.topLevel).map (·.id)) := by
    rw [Include.map_id_items]
    exact h.linked
  rw [Include.merge_apply]
  cases hs : Include.splice provider limit [] (Include.items [origin] tree.topLevel) tree with
  | mk outcome after =>
    obtain ⟨hordered, he, hafter⟩ := linked_splice h.ordered hids hs
    cases outcome with
    | error error =>
      refine ⟨hordered, ?_⟩
      rw [topLevel, he.children_eq h.ordered.root_lt]
      exact h.linked.of_enlarges h.ordered he
    | ok ids => exact .setTopLevel hordered (hafter ids rfl)

/-- The trees that there are: what the tokenizer makes of texts, and what becomes of it when a
top-level token gives way to those of another tree, and when includes are merged and overrides
flattened, in any order. -/
inductive Arises : TokenTree → Prop where
  | tokenize {text : String} {limit : ℕ} {tree : TokenTree} :
    LayeredEnv.tokenize text limit = .ok tree → Arises tree
  | tokenizeValue {text : String} {limit id : ℕ} {tree : TokenTree} :
    LayeredEnv.tokenizeValue text limit = .ok (tree, id) → Arises tree
  | splice {host guest : TokenTree} {front behind : List ℕ} {id : ℕ} : Arises host → Arises guest →
    host.topLevel = front ++ id :: behind →
    Arises ((host.graft guest).1.setTopLevel (front ++ (host.graft guest).2 ++ behind))
  | merge {tree : TokenTree} (provider : Provider) (limit : ℕ) (origin : String) : Arises tree →
    Arises (Include.merge provider limit origin tree).2
  | flatten {tree : TokenTree} : Arises tree → Arises tree.flattenOverrides

theorem Arises.tidy (h : tree.Arises) : tree.Tidy := by
  induction h with
  | tokenize h => exact tidy_of_tokenize h
  | tokenizeValue h => exact tidy_of_tokenizeValue h
  | splice _ _ htop hhost hguest => exact hhost.splice hguest htop
  | merge provider limit origin _ ih => exact ih.merge provider limit origin
  | flatten _ ih => exact ih.flattenOverrides

/-- Every tree that arises is one: children stand behind their parents, and no two ways from the
root lead to one token. The ways down end, and all that is on them belongs to the tokens. Grafting
changes no token of a tree whatever, and brings those of the other along, in order. -/
theorem arises_stays_tree :
    (∀ tree : TokenTree, tree.Arises →
      (∀ id, ∀ child ∈ tree.children id, id < child ∧ child < tree.size) ∧
      (∀ p q id, tree.follow root p = some id → tree.follow root q = some id → p = q) ∧
      (∀ path id, tree.follow root path = some id → path.length < tree.size) ∧
      ∀ id, tree.subtree id = .node (tree.node id).kind (tree.node id).value
        (tree.node id).isLength ((tree.children id).map tree.subtree)) ∧
    ∀ host guest : TokenTree,
      (∀ id < host.size, (host.graft guest).1.node id = host.node id) ∧
      List.Forall₂ (fun new id => (host.graft guest).1.equivalent new guest id = true)
        (host.graft guest).2 guest.topLevel := by
  refine ⟨fun tree h => ?_, fun host guest => ⟨(host.enlarges_graft guest).node_eq, ?_⟩⟩
  · obtain ⟨hordered, hlinked⟩ := h.tidy
    refine ⟨hordered.after, ?_, ?_, ?_⟩
    · exact fun p q id => hordered.follow_inj h.tidy.nodup_walk
    · intro path id hpath
      have hlen := hordered.add_length_le hpath
      have hlt := (hordered.mem_walk hordered.root_lt id (hordered.mem_walk_of_follow hpath)).2
      omega
    · intro id
      rw [subtree_eq, hordered.forward_eq]
  · rw [graft, List.forall₂_map_left_iff, List.forall₂_same]
    intro id _
    rw [equivalent, Token.same_eq_true_iff]
    exact subtree_graft_add host guest id

def outerText : TokenTree := .ofTokens [.node .assignment "A" false [.leaf .text "1"],
  .leaf .includeFlag "leaf", .node .assignment "A" false [.leaf .text "2"]]

def innerText : TokenTree := .ofTokens [.node .assignment "B" false [.leaf .text "3"]]

def nestedText : TokenTree :=
  ((outerText.graft innerText).1.setTopLevel
    ([1] ++ (outerText.graft innerText).2 ++ [4])).flattenOverrides

/-- The assignment of `B` has two parents, to one of which no way leads. -/
theorem arises_stays_tree_nestedText :
    nestedText.Arises ∧ nestedText.children 6 = [7] ∧ nestedText.topLevel = [7, 4] ∧
      ∀ path, nestedText.follow root path = some 7 → path = [0] := by
  have houter : LayeredEnv.tokenize "A=1\n#/include leaf\nA=2\n" = .ok outerText :=
    tokenize_of_tokens (by decide +kernel)
  have hinner : LayeredEnv.tokenize "B=3" = .ok innerText :=
    tokenize_of_tokens (by decide +kernel)
  have htop : outerText.topLevel = [1] ++ 3 :: [4] := rfl
  have harises : nestedText.Arises :=
    .flatten (.splice (.tokenize houter) (.tokenize hinner) htop)
  have hway : nestedText.follow root [0] = some 7 := by decide +kernel
  refine ⟨harises, by decide +kernel, by decide +kernel, fun path hpath => ?_⟩
  exact (arises_stays_tree.1 nestedText harises).2.1 path [0] 7 hpath hway

end LayeredEnv.TokenTree
