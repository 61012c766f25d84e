import LayeredEnv.Token.Basic
import LayeredEnv.Token.Reach

namespace LayeredEnv

structure Node where
  kind : Kind
  value : String
  isLength : Bool := false
  children : List Nat := []
  deriving DecidableEq, Repr

/-- A store of nodes. Node 0 is the root; a node that no other lists is not part of the tree. -/
structure TokenTree where
  nodes : Array Node

namespace TokenTree

def root : Nat := 0

def empty : TokenTree := ⟨#[⟨.main, "", false, []⟩]⟩

def size (tree : TokenTree) : Nat := tree.nodes.size

def node (tree : TokenTree) (id : Nat) : Node := (tree.nodes[id]?).getD ⟨.main, "", false, []⟩

def kind (tree : TokenTree) (id : Nat) : Kind := (tree.node id).kind

def value (tree : TokenTree) (id : Nat) : String := (tree.node id).value

def children (tree : TokenTree) (id : Nat) : List Nat := (tree.node id).children

def topLevel (tree : TokenTree) : List Nat := tree.children root

theorem lt_of_mem_children {tree : TokenTree} {id child : Nat} (h : child ∈ tree.children id) :
    id < tree.size := by
  refine Nat.lt_of_not_le fun hle => ?_
  have hnone : tree.nodes[id]? = none := Array.getElem?_eq_none hle
  rw [children, node, hnone] at h
  cases h

abbrev Leads (tree : TokenTree) (id other : Nat) : Prop :=
  Reach.Leads tree.children tree.size id other

theorem lt_size_of_leads {tree : TokenTree} {id last child : Nat} (h : tree.Leads id last)
    (hm : child ∈ tree.children last) : id < tree.size := by
  cases h with
  | refl => exact lt_of_mem_children hm
  | step hm' _ _ => exact lt_of_mem_children hm'

/-- The children from which no way leads back, if they do not stand after their parent in the store
anyway. In a tree without cycles these are all children. -/
def forward (tree : TokenTree) (id : Nat) : List Nat :=
  (tree.children id).filter fun child =>
    child < tree.size && (id < child || !Reach.leads tree.children tree.size child id)

theorem mem_forward {tree : TokenTree} {id child : Nat} : child ∈ tree.forward id ↔
    child ∈ tree.children id ∧ child < tree.size ∧ (id < child ∨ ¬tree.Leads child id) := by
  rw [forward, List.mem_filter, Bool.and_eq_true, Bool.or_eq_true, decide_eq_true_eq,
    decide_eq_true_eq, Bool.not_eq_true', ← Bool.not_eq_true]
  refine and_congr_right fun hm => and_congr_right fun hlt => or_congr_right (not_congr ?_)
  exact Reach.leads_iff hlt (lt_of_mem_children hm)

theorem forward_eq_children {tree : TokenTree} {id : Nat}
    (h : ∀ child ∈ tree.children id, child ∈ tree.forward id) :
    tree.forward id = tree.children id :=
  List.filter_eq_self.mpr fun child hm => (List.mem_filter.mp (h child hm)).2

/-- Children that stand after their parent in the store are kept. -/
theorem forward_eq_of_after {tree : TokenTree} {id : Nat}
    (h : ∀ child ∈ tree.children id, id < child ∧ child < tree.size) :
    tree.forward id = tree.children id :=
  forward_eq_children fun child hm => mem_forward.mpr ⟨hm, (h child hm).2, .inl (h child hm).1⟩

/-- What leads back to a node is told from the ways alone, however the nodes are numbered. -/
theorem forward_map {tree other : TokenTree} {id : Nat} (f : Nat → Nat)
    (hchildren : other.children (f id) = (tree.children id).map f)
    (h : ∀ child ∈ tree.children id, (f child < other.size ↔ child < tree.size) ∧
      (f id < f child ↔ id < child) ∧
      (child < tree.size → (other.Leads (f child) (f id) ↔ tree.Leads child id))) :
    other.forward (f id) = (tree.forward id).map f := by
  rw [forward, forward, hchildren, List.filter_map]
  congr 1
  refine List.filter_congr fun child hm => ?_
  obtain ⟨hsize, hafter, hleads⟩ := h child hm
  rw [Function.comp_apply]
  by_cases hlt : child < tree.size
  · have hlt' := hsize.mpr hlt
    have hid := lt_of_mem_children hm
    have hid' : f id < other.size :=
      lt_of_mem_children (hchildren ▸ List.mem_map_of_mem (f := f) hm)
    have hsame : Reach.leads other.children other.size (f child) (f id) =
        Reach.leads tree.children tree.size child id := by
      rw [Bool.eq_iff_iff, Reach.leads_iff hlt' hid', Reach.leads_iff hlt hid]
      exact hleads hlt
    rw [hsame, decide_eq_true hlt', decide_eq_true hlt, decide_eq_decide.mpr hafter]
  · rw [decide_eq_false hlt, decide_eq_false fun hc => hlt (hsize.mp hc), Bool.false_and,
      Bool.false_and]

theorem forward_congr {tree other : TokenTree} {id : Nat}
    (hchildren : other.children id = tree.children id)
    (h : ∀ child ∈ tree.children id, (child < other.size ↔ child < tree.size) ∧
      (child < tree.size → (other.Leads child id ↔ tree.Leads child id))) :
    other.forward id = tree.forward id := by
  have hmap : other.forward id = (tree.forward id).map fun child => child :=
    forward_map (fun child => child) (by rw [hchildren, List.map_id']) fun child hm =>
      ⟨(h child hm).1, Iff.rfl, (h child hm).2⟩
  rwa [List.map_id'] at hmap

/-- What gets less on every way down: the number of nodes that a node leads to, and of two that lead
to each other the distance to the end of the store. -/
def descent (tree : TokenTree) (id : Nat) : Nat × Nat :=
  (Reach.rank tree.children tree.size id, tree.size - id)

theorem descent_lt {tree : TokenTree} {id child : Nat} (h : child ∈ tree.forward id) :
    Prod.Lex (· < ·) (· < ·) (tree.descent child) (tree.descent id) := by
  obtain ⟨hm, hlt, hforward⟩ := mem_forward.mp h
  have hid := lt_of_mem_children hm
  have hway : tree.Leads id child := .step hm hlt (.refl child)
  rcases hforward with hafter | hback
  · exact Prod.Lex.right' _ (Reach.rank_le hid hlt hway) (Nat.sub_lt_sub_left hid hafter)
  · exact Prod.Lex.left _ _ (Reach.rank_lt hid hlt hway hback)

/-- Induction downwards: what holds of a node if it holds of the children below it. -/
@[elab_as_elim]
theorem forward_induction (tree : TokenTree) {motive : Nat → Prop}
    (node : ∀ id, (∀ child ∈ tree.forward id, motive child) → motive id) (id : Nat) :
    motive id :=
  node id fun child _ => forward_induction tree node child
termination_by tree.descent id
decreasing_by exact descent_lt ‹_›

def subtree (tree : TokenTree) (id : Nat) : Token :=
  .node (tree.node id).kind (tree.node id).value (tree.node id).isLength
    ((tree.forward id).attach.map fun ⟨child, _⟩ => tree.subtree child)
termination_by tree.descent id
decreasing_by exact descent_lt ‹_›

theorem subtree_eq (tree : TokenTree) (id : Nat) :
    tree.subtree id = .node (tree.node id).kind (tree.node id).value (tree.node id).isLength
      ((tree.forward id).map tree.subtree) := by
  rw [subtree, List.attach_map_val (f := tree.subtree)]

@[simp] theorem kind_subtree (tree : TokenTree) (id : Nat) :
    (tree.subtree id).kind = tree.kind id := by
  rw [subtree]
  rfl

@[simp] theorem value_subtree (tree : TokenTree) (id : Nat) :
    (tree.subtree id).value = tree.value id := by
  rw [subtree]
  rfl

def walk (tree : TokenTree) (id : Nat) : List Nat :=
  id :: (tree.forward id).attach.flatMap fun ⟨child, _⟩ => tree.walk child
termination_by tree.descent id
decreasing_by exact descent_lt ‹_›

theorem walk_eq (tree : TokenTree) (id : Nat) :
    tree.walk id = id :: (tree.forward id).flatMap tree.walk := by
  rw [walk, List.flatMap_def, List.flatMap_def, List.attach_map_val (f := tree.walk)]

/-- What every step down keeps holds of all nodes that one comes to. -/
theorem forall_mem_walk {tree : TokenTree} {P : Nat → Prop}
    (hstep : ∀ k, P k → ∀ child ∈ tree.forward k, P child) {id : Nat} (h : P id) :
    ∀ k ∈ tree.walk id, P k := by
  induction id using forward_induction tree with
  | node id ih =>
  intro k hk
  rw [walk_eq, List.mem_cons, List.mem_flatMap] at hk
  rcases hk with rfl | ⟨child, hm, hk⟩
  · exact h
  · exact ih child hm (hstep id h child hm) k hk

/-- A token depends only on the nodes that one comes to below its own. -/
theorem subtree_congr {tree other : TokenTree} {id : Nat}
    (h : ∀ k ∈ tree.walk id, other.node k = tree.node k ∧ other.forward k = tree.forward k) :
    other.subtree id = tree.subtree id := by
  induction id using forward_induction tree with
  | node id ih =>
  rw [walk_eq, List.forall_mem_cons] at h
  obtain ⟨⟨hnode, hforward⟩, hbelow⟩ := h
  rw [subtree_eq, subtree_eq, hnode, hforward]
  congr 1
  exact List.map_congr_left fun child hm =>
    ih child hm fun k hk => hbelow k (List.mem_flatMap_of_mem hm hk)

def token (tree : TokenTree) : Token := tree.subtree root

def topTokens (tree : TokenTree) : List Token := tree.topLevel.map tree.subtree

def update (tree : TokenTree) (id : Nat) (f : Node → Node) : TokenTree := ⟨tree.nodes.modify id f⟩

def setTopLevel (tree : TokenTree) (children : List Nat) : TokenTree :=
  tree.update root fun node => { node with children }

theorem node_update (tree : TokenTree) (id other : Nat) (f : Node → Node) :
    (tree.update id f).node other =
      if other = id ∧ id < tree.size then f (tree.node other) else tree.node other := by
  unfold node update size
  rw [Array.getElem?_modify]
  by_cases h : id = other
  · subst h
    by_cases hs : id < tree.nodes.size
    · simp [hs]
    · simp [hs]
  · rw [if_neg h, if_neg fun hc => h hc.1.symm]

theorem node_setTopLevel (tree : TokenTree) (children : List Nat) (id : Nat) :
    (tree.setTopLevel children).node id =
      if id = root ∧ root < tree.size then { tree.node id with children } else tree.node id :=
  node_update tree root id _

@[simp] theorem kind_setTopLevel (tree : TokenTree) (children : List Nat) (id : Nat) :
    (tree.setTopLevel children).kind id = tree.kind id := by
  rw [kind, kind, node_setTopLevel]
  split <;> rfl

@[simp] theorem value_setTopLevel (tree : TokenTree) (children : List Nat) (id : Nat) :
    (tree.setTopLevel children).value id = tree.value id := by
  rw [value, value, node_setTopLevel]
  split <;> rfl

@[simp] theorem size_setTopLevel (tree : TokenTree) (children : List Nat) :
    (tree.setTopLevel children).size = tree.size := Array.size_modify

theorem topLevel_setTopLevel {tree : TokenTree} (h : root < tree.size) (children : List Nat) :
    (tree.setTopLevel children).topLevel = children := by
  rw [topLevel, TokenTree.children, node_setTopLevel, if_pos ⟨rfl, h⟩]

theorem topLevel_of_size_eq_zero {tree : TokenTree} (h : tree.size = 0) : tree.topLevel = [] := by
  have hs : tree.nodes.size ≤ root := Nat.le_of_eq h
  unfold topLevel children node
  rw [Array.getElem?_eq_none hs]
  rfl

theorem setTopLevel_setTopLevel (tree : TokenTree) (before after : List Nat) :
    (tree.setTopLevel before).setTopLevel after = tree.setTopLevel after := by
  unfold setTopLevel update
  congr 1
  refine Array.ext_getElem? fun i => ?_
  simp only [Array.getElem?_modify]
  split <;> simp [Function.comp_def]

theorem children_setTopLevel (tree : TokenTree) (children : List Nat) {id : Nat} (h : id ≠ root) :
    (tree.setTopLevel children).children id = tree.children id := by
  rw [TokenTree.children, node_setTopLevel, if_neg fun hc => h hc.1]
  rfl

section SetTopLevel

variable {tree : TokenTree} {children : List Nat} {id last : Nat}

theorem children_setTopLevel_subset (hsub : children ⊆ tree.topLevel) (id : Nat) :
    (tree.setTopLevel children).children id ⊆ tree.children id := by
  intro child hm
  by_cases hid : id = root
  · subst hid
    have hroot : root < tree.size := by
      rw [← size_setTopLevel tree children]
      exact lt_of_mem_children hm
    rw [← topLevel, topLevel_setTopLevel hroot] at hm
    exact hsub hm
  · rwa [children_setTopLevel tree children hid] at hm

/-- While the root gets no other children than before, there are no new ways. -/
theorem leads_of_leads_setTopLevel (hsub : tree.Leads id root → children ⊆ tree.topLevel)
    (h : (tree.setTopLevel children).Leads id last) : tree.Leads id last := by
  have hsame : ∀ k, k ≠ root → tree.children k = (tree.setTopLevel children).children k :=
    fun k hk => (children_setTopLevel tree children hk).symm
  rw [Leads, size_setTopLevel] at h
  rcases h.up_to hsame with hway | hup
  · exact hway
  · exact h.mono fun k m _ hm hlt => ⟨children_setTopLevel_subset (hsub hup) k hm, hlt⟩

/-- Ways that lead by the root go on from there if it has a child from which they do. -/
theorem leads_setTopLevel {child : Nat}
    (hroot : tree.Leads id root → child ∈ children ∧ root < tree.size ∧ child < tree.size)
    (hchild : (tree.setTopLevel children).Leads child last) (h : tree.Leads id last) :
    (tree.setTopLevel children).Leads id last := by
  have hsame : ∀ k, k ≠ root → (tree.setTopLevel children).children k = tree.children k :=
    fun k => children_setTopLevel tree children
  rw [Leads, size_setTopLevel] at hchild ⊢
  rcases h.up_to hsame with hway | hup
  · exact hway
  have hup' : tree.Leads id root :=
    (hup.up_to fun k hk => (hsame k hk).symm).elim (fun hway => hway) fun hway => hway
  obtain ⟨hm, hlt, hlt'⟩ := hroot hup'
  refine hup.trans (.step ?_ hlt' hchild)
  rwa [← topLevel, topLevel_setTopLevel hlt]

theorem forward_setTopLevel (hback : tree.Leads id root → children ⊆ tree.topLevel ∧ id ∈ children)
    (hne : last ≠ root) (hnew : (tree.setTopLevel children).Leads id last)
    (hold : tree.Leads id last) :
    (tree.setTopLevel children).forward last = tree.forward last := by
  refine forward_congr (children_setTopLevel tree children hne) fun child hm => ?_
  rw [size_setTopLevel]
  have hid : id < tree.size := lt_size_of_leads hold hm
  -- a way back up may lead by the root, and then by `id` again
  refine ⟨Iff.rfl, fun hlt => ?_⟩
  have hdown {other : Nat} (hway : tree.Leads child other) : tree.Leads id other :=
    hold.trans (.step hm hlt hway)
  exact ⟨leads_of_leads_setTopLevel fun hway => (hback (hdown hway)).1,
    leads_setTopLevel (fun hway =>
      ⟨(hback (hdown hway)).2, Nat.lt_of_le_of_lt (Nat.zero_le id) hid, hid⟩) hnew⟩

/-- Only the root is changed. A node may lead back to it if it is one of several children that are
left. -/
theorem subtree_setTopLevel (h : id ≠ root)
    (hback : tree.Leads id root → children ⊆ tree.topLevel ∧ id ∈ children) :
    (tree.setTopLevel children).subtree id = tree.subtree id := by
  -- below `id`, nodes lead to each other as before, by way of the root too
  have hbelow : ∀ k ∈ tree.walk id,
      k ≠ root ∧ (tree.setTopLevel children).Leads id k ∧ tree.Leads id k := by
    refine forall_mem_walk ?_ ⟨h, .refl id, .refl id⟩
    rintro k ⟨hk, hnew, hold⟩ child hc
    obtain ⟨hm, hlt, hdown⟩ := mem_forward.mp hc
    have hway : tree.Leads id child := hold.trans (.step hm hlt (.refl child))
    refine ⟨?_, hnew.trans (.step ?_ ?_ (.refl child)), hway⟩
    · rintro rfl
      obtain ⟨hsub, hmem⟩ := hback hway
      refine hdown.elim (Nat.not_lt_zero k) fun hnot => hnot ?_
      exact .step (hsub hmem) (lt_size_of_leads hold hm) hold
    · rwa [children_setTopLevel tree children hk]
    · rwa [size_setTopLevel]
  refine subtree_congr fun k hk => ?_
  obtain ⟨hne, hnew, hold⟩ := hbelow k hk
  exact ⟨by rw [node_setTopLevel, if_neg fun hc => hne hc.1],
    forward_setTopLevel hback hne hnew hold⟩

end SetTopLevel

def setValue (tree : TokenTree) (id : Nat) (value : String) : TokenTree :=
  tree.update id fun node => { node with value }

/-- Stores a node without linking it; its number is the size of the tree before. -/
def alloc (tree : TokenTree) (node : Node) : TokenTree := ⟨tree.nodes.push node⟩

def append (tree : TokenTree) (parent : Nat) (node : Node) : TokenTree :=
  (tree.alloc node).update parent fun parent =>
    { parent with children := parent.children ++ [tree.size] }

def Node.shift (offset : Nat) (node : Node) : Node :=
  { node with children := node.children.map (· + offset) }

/-- Moves all nodes of `other` into the tree and returns the new numbers of its top-level nodes.
Nothing links to them yet. -/
def graft (tree other : TokenTree) : TokenTree × List Nat :=
  (⟨tree.nodes ++ other.nodes.map (Node.shift tree.size)⟩, other.topLevel.map (· + tree.size))

def equivalent (tree : TokenTree) (id : Nat) (other : TokenTree) (otherId : Nat) : Bool :=
  (tree.subtree id).same (other.subtree otherId)

def dump (tree : TokenTree) : String := tree.token.dump

/-- The numbers that tokens get if each is stored before its children, from `start` on. -/
def numbers (start : Nat) : List Token → List Nat
  | [] => []
  | t :: ts => start :: numbers (start + t.size) ts

mutual

def nodesOf (start : Nat) : Token → List Node
  | .node kind value isLength children =>
    ⟨kind, value, isLength, numbers (start + 1) children⟩ :: nodesOfAll (start + 1) children

def nodesOfAll (start : Nat) : List Token → List Node
  | [] => []
  | t :: ts => nodesOf start t ++ nodesOfAll (start + t.size) ts

end

def ofTokens (tokens : List Token) : TokenTree := ⟨(nodesOf 0 (.root tokens)).toArray⟩

mutual

theorem length_nodesOf (start : Nat) : ∀ t : Token, (nodesOf start t).length = t.size
  | .node _ _ _ children => by
    rw [nodesOf, List.length_cons, length_nodesOfAll, Token.size]

theorem length_nodesOfAll (start : Nat) : ∀ ts : List Token,
    (nodesOfAll start ts).length = Token.sizeAll ts
  | [] => rfl
  | t :: ts => by
    rw [nodesOfAll, List.length_append, length_nodesOf, length_nodesOfAll, Token.sizeAll]

end

theorem mem_numbers {start child : Nat} {ts : List Token} (h : child ∈ numbers start ts) :
    start ≤ child ∧ child < start + Token.sizeAll ts := by
  induction ts generalizing start with
  | nil => cases h
  | cons t ts ih =>
    have hpos : 0 < t.size := by
      cases t
      exact Nat.succ_pos _
    rw [numbers, List.mem_cons] at h
    rw [Token.sizeAll]
    rcases h with rfl | h
    · omega
    · have := ih h
      omega

def Holds (tree : TokenTree) (start : Nat) (nodes : List Node) : Prop :=
  ∀ i node, nodes[i]? = some node → tree.nodes[start + i]? = some node

namespace Holds

variable {tree : TokenTree} {start : Nat} {before after nodes : List Node}

theorem left (h : tree.Holds start (before ++ after)) : tree.Holds start before := by
  intro i node hi
  refine h i node ?_
  rwa [List.getElem?_append_left (List.getElem?_eq_some_iff.mp hi).1]

theorem right (h : tree.Holds start (before ++ after)) :
    tree.Holds (start + before.length) after := by
  intro i node hi
  rw [Nat.add_assoc]
  refine h _ node ?_
  rwa [List.getElem?_append_right (Nat.le_add_right _ _), Nat.add_sub_cancel_left]

theorem lt_size (h : tree.Holds start nodes) {id : Nat} (hle : start ≤ id)
    (hlt : id < start + nodes.length) : id < tree.size := by
  have hi : id - start < nodes.length := by omega
  have hid := h (id - start) _ (List.getElem?_eq_getElem hi)
  rw [Nat.add_sub_cancel' hle] at hid
  exact (Array.getElem?_eq_some_iff.mp hid).1

variable {kind : Kind} {value : String} {isLength : Bool} {children : List Token}

theorem node_eq (h : tree.Holds start (nodesOf start (.node kind value isLength children))) :
    tree.node start = ⟨kind, value, isLength, numbers (start + 1) children⟩ := by
  have hstart : tree.nodes[start]? = some ⟨kind, value, isLength, numbers (start + 1) children⟩ :=
    h 0 _ rfl
  rw [node, hstart]
  rfl

theorem below (h : tree.Holds start (nodesOf start (.node kind value isLength children))) :
    tree.Holds (start + 1) (nodesOfAll (start + 1) children) := by
  have hcons : tree.Holds start ([⟨kind, value, isLength, numbers (start + 1) children⟩] ++
      nodesOfAll (start + 1) children) := h
  exact right hcons

theorem forward_eq (h : tree.Holds start (nodesOf start (.node kind value isLength children))) :
    tree.forward start = numbers (start + 1) children := by
  have hchildren : tree.children start = numbers (start + 1) children := by
    rw [TokenTree.children, h.node_eq]
  rw [← hchildren]
  refine forward_eq_of_after fun child hm => ?_
  obtain ⟨hle, hlt⟩ := mem_numbers (hchildren ▸ hm)
  exact ⟨hle, h.below.lt_size hle (by rwa [length_nodesOfAll])⟩

theorem tail {t : Token} {ts : List Token} (h : tree.Holds start (nodesOfAll start (t :: ts))) :
    tree.Holds (start + t.size) (nodesOfAll (start + t.size) ts) := by
  have hright := right h
  rwa [length_nodesOf] at hright

mutual

/-- A stored token is the one that its number stands for. -/
theorem subtree_eq {tree : TokenTree} : ∀ {start : Nat} (t : Token),
    tree.Holds start (nodesOf start t) → tree.subtree start = t
  | start, .node kind value isLength children, h => by
    rw [TokenTree.subtree_eq, h.forward_eq, h.node_eq, map_subtree children h.below]

theorem map_subtree {tree : TokenTree} : ∀ {start : Nat} (ts : List Token),
    tree.Holds start (nodesOfAll start ts) → (numbers start ts).map tree.subtree = ts
  | _, [], _ => rfl
  | start, t :: ts, h => by
    rw [numbers, List.map_cons, subtree_eq t (left h), map_subtree ts h.tail]

end

end Holds

theorem holds_ofTokens (tokens : List Token) :
    (ofTokens tokens).Holds root (nodesOf root (.root tokens)) := by
  intro i node hi
  rwa [root, Nat.zero_add, ofTokens, List.getElem?_toArray]

theorem token_ofTokens (tokens : List Token) : (ofTokens tokens).token = .root tokens :=
  (holds_ofTokens tokens).subtree_eq

theorem topTokens_ofTokens (tokens : List Token) : (ofTokens tokens).topTokens = tokens :=
  (holds_ofTokens tokens).below.map_subtree

end TokenTree
end LayeredEnv
