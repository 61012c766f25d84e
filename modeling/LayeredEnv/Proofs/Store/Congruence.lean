import LayeredEnv.Proofs.Evaluation.Untaken
import LayeredEnv.Proofs.Store.Walk
import LayeredEnv.Token.Render

namespace LayeredEnv.TokenTree

variable {tree a b : TokenTree} {id i j : ℕ}

/-- From a node down everything is stored, and no way leads back up. -/
structure Acyclic (tree : TokenTree) (id : ℕ) : Prop extends tree.Stored id where
  no_return : ∀ k, tree.Leads id k → ∀ child ∈ tree.children k, ¬tree.Leads child k

namespace Acyclic

theorem child (h : tree.Acyclic id) {child : ℕ} (hm : child ∈ tree.children id) :
    tree.Acyclic child where
  toStored := h.toStored.child hm
  no_return k hway := h.no_return k (.step hm (h.inside id (.refl id) child hm) hway)

/-- It is enough that some number gets smaller on every step down. -/
theorem of_rank (below : ℕ → Prop) (rank : ℕ → ℕ) (hid : below id)
    (h : ∀ k, below k → k < tree.size ∧ ∀ child ∈ tree.children k, below child ∧
      rank child < rank k) : tree.Acyclic id := by
  have hdown : ∀ {k last}, below k → tree.Leads k last → below last ∧ rank last ≤ rank k := by
    intro k last hk hway
    induction hway with
    | refl => exact ⟨hk, Nat.le_refl _⟩
    | step hm _ _ ih =>
      obtain ⟨hchild, hlt⟩ := (h _ hk).2 _ hm
      obtain ⟨hlast, hle⟩ := ih hchild
      exact ⟨hlast, Nat.le_trans hle (Nat.le_of_lt hlt)⟩
  -- a way from a child back to its parent would lead to a larger number
  refine ⟨⟨(h id hid).1, fun k hway child hm => ?_⟩, fun k hway child hm hback => ?_⟩
  · exact (h child ((h k (hdown hid hway).1).2 child hm).1).1
  · obtain ⟨hchild, hlt⟩ := (h k (hdown hid hway).1).2 child hm
    exact Nat.not_le_of_gt hlt (hdown hchild hback).2

theorem forward_eq (h : tree.Acyclic id) : tree.forward id = tree.children id :=
  forward_eq_children fun child hm =>
    mem_forward.mpr ⟨hm, (h.child hm).lt_size, .inr (h.no_return id (.refl id) child hm)⟩

/-- The token of a node is over those of all children. -/
theorem subtree_eq (h : tree.Acyclic id) :
    tree.subtree id = .node (tree.node id).kind (tree.node id).value (tree.node id).isLength
      ((tree.children id).map tree.subtree) := by
  rw [TokenTree.subtree_eq, h.forward_eq]

end Acyclic

theorem Ordered.acyclic (h : tree.Ordered) (hid : id < tree.size) : tree.Acyclic id := by
  refine .of_rank (· < tree.size) (tree.size - ·) hid fun k hk => ⟨hk, fun child hm => ?_⟩
  obtain ⟨hlt, hsize⟩ := h.after k child hm
  exact ⟨hsize, Nat.sub_lt_sub_left hk hlt⟩

/-- What the tokenizer, grafting, merging and flattening make has no cycle. -/
theorem Arises.acyclic (h : tree.Arises) : tree.Acyclic root :=
  h.tidy.ordered.acyclic h.tidy.ordered.root_lt

theorem equivalent_iff : a.equivalent i b j = true ↔ a.subtree i = b.subtree j :=
  Token.same_eq_true_iff _ _

theorem equivalent_comm (a b : TokenTree) (i j : ℕ) :
    a.equivalent i b j = b.equivalent j a i := by
  rw [Bool.eq_iff_iff, equivalent_iff, equivalent_iff]
  exact eq_comm

theorem Acyclic.equivalent_iff (ha : a.Acyclic i) (hb : b.Acyclic j) :
    a.equivalent i b j = true ↔ a.kind i = b.kind j ∧ a.value i = b.value j ∧
      (a.node i).isLength = (b.node j).isLength ∧
      List.Forall₂ (fun x y => a.equivalent x b y = true) (a.children i) (b.children j) := by
  simp only [TokenTree.equivalent_iff, ha.subtree_eq, hb.subtree_eq, Token.node.injEq]
  rw [← List.forall₂_eq_eq_eq, List.forall₂_map_left_iff, List.forall₂_map_right_iff]
  rfl

/-- From equivalent nodes the same ways lead to equivalent nodes. -/
theorem exists_follow_of_equivalent (ha : a.Acyclic i) (hb : b.Acyclic j)
    (h : a.equivalent i b j = true) {path : List ℕ} {last : ℕ}
    (hpath : a.follow i path = some last) :
    ∃ last', b.follow j path = some last' ∧ a.equivalent last b last' = true := by
  induction path generalizing i j with
  | nil =>
    cases hpath
    exact ⟨j, rfl, h⟩
  | cons position path ih =>
    obtain ⟨child, hchild, hrest⟩ := follow_cons_eq_some hpath
    obtain ⟨-, -, -, hchildren⟩ := (ha.equivalent_iff hb).mp h
    obtain ⟨hlt, rfl⟩ := List.getElem?_eq_some_iff.mp hchild
    have hlt' : position < (b.children j).length := hchildren.length_eq ▸ hlt
    obtain ⟨last', hlast', hequivalent⟩ :=
      ih (ha.child (List.getElem_mem hlt)) (hb.child (List.getElem_mem hlt'))
        (hchildren.get hlt hlt') hrest
    refine ⟨last', ?_, hequivalent⟩
    rw [follow, List.getElem?_eq_getElem hlt']
    exact hlast'

theorem Acyclic.setTopLevel {ids : List ℕ} (h : tree.Acyclic id) (hsub : ids ⊆ tree.topLevel) :
    (tree.setTopLevel ids).Acyclic id := by
  have hleads : ∀ {k last}, (tree.setTopLevel ids).Leads k last → tree.Leads k last :=
    leads_of_leads_setTopLevel fun _ => hsub
  refine ⟨⟨?_, fun k hway child hm => ?_⟩, fun k hway child hm hback => ?_⟩
  · rw [size_setTopLevel]
    exact h.lt_size
  · rw [size_setTopLevel]
    exact h.inside k (hleads hway) child (children_setTopLevel_subset hsub k hm)
  · exact h.no_return k (hleads hway) child (children_setTopLevel_subset hsub k hm) (hleads hback)

theorem Acyclic.flattenOverrides (h : tree.Acyclic id) : tree.flattenOverrides.Acyclic id :=
  h.setTopLevel (Override.survivors_sublist _ _).subset

theorem Acyclic.topTokens_flattenOverrides (h : tree.Acyclic root) :
    tree.flattenOverrides.topTokens = Override.survivors Token.label tree.topTokens := by
  rw [topTokens, topLevel_flattenOverrides, topTokens, Override.survivors_map, label_subtree]
  refine List.map_congr_left fun id hm => subtree_flattenOverrides ?_ hm
  rintro rfl
  exact h.no_return root (.refl root) root ((Override.survivors_sublist _ _).subset hm) (.refl root)

theorem Acyclic.token_eq (h : tree.Acyclic root) :
    tree.token = .node (tree.node root).kind (tree.node root).value (tree.node root).isLength
      tree.topTokens :=
  h.subtree_eq

theorem Acyclic.token_flattenOverrides (h : tree.Acyclic root) :
    tree.flattenOverrides.token =
      .node (tree.node root).kind (tree.node root).value (tree.node root).isLength
        (Override.survivors Token.label tree.topTokens) := by
  have hnode : tree.flattenOverrides.node root =
      { tree.node root with children := tree.flattenOverrides.topLevel } := by
    rw [topLevel_flattenOverrides, TokenTree.flattenOverrides, node_setTopLevel,
      if_pos ⟨rfl, h.lt_size⟩]
    rfl
  rw [h.flattenOverrides.token_eq, h.topTokens_flattenOverrides, hnode]

/-- The nodes have the same value whatever is looked up, with the same effect on what answers, and
ask for the same names in the same order. -/
structure ResolveAlike (a : TokenTree) (i : ℕ) (b : TokenTree) (j : ℕ) : Prop where
  outcome : ∀ (table : OperatorTable) (σ : Type) (lookup : Lookup σ) (state : σ),
    (a.subtree i).resolve table lookup state = (b.subtree j).resolve table lookup state
  requests : ∀ (table : OperatorTable) (σ : Type) (lookup : Lookup σ) (state : σ × List String),
    (a.subtree i).resolve table (Token.recording lookup) state =
      (b.subtree j).resolve table (Token.recording lookup) state

theorem resolveAlike_of_equivalent (h : a.equivalent i b j = true) : ResolveAlike a i b j := by
  rw [equivalent_iff] at h
  exact ⟨fun table σ lookup state => by rw [h], fun table σ lookup state => by rw [h]⟩

theorem rel_follow (ha : a.Acyclic i) (hb : b.Acyclic j) (h : a.equivalent i b j = true)
    (path : List ℕ) :
    Option.Rel (fun x y => ResolveAlike a x b y) (a.follow i path) (b.follow j path) := by
  cases hpath : a.follow i path with
  | some last =>
    obtain ⟨last', hlast', hequivalent⟩ := exists_follow_of_equivalent ha hb h hpath
    rw [hlast']
    exact .some (resolveAlike_of_equivalent hequivalent)
  | none =>
    cases hpath' : b.follow j path with
    | none => exact .none
    | some last =>
      obtain ⟨last', hlast', -⟩ := exists_follow_of_equivalent hb ha (equivalent_comm a b i j ▸ h)
        hpath'
      rw [hpath] at hlast'
      cases hlast'

/-- To be equivalent is an equivalence across stores; without cycles it comes down to kinds, values,
marks and children, however the nodes are numbered and whatever else the stores have. Nothing that
is done with trees tells equivalent ones apart. -/
theorem equivalent_congruence :
    (∀ (a : TokenTree) i, a.equivalent i a i = true) ∧
    (∀ (a b : TokenTree) i j, a.equivalent i b j = b.equivalent j a i) ∧
    (∀ (a b c : TokenTree) i j k, a.equivalent i b j = true → b.equivalent j c k = true →
      a.equivalent i c k = true) ∧
    (∀ (a b : TokenTree) i j, a.Acyclic i → b.Acyclic j →
      (a.equivalent i b j = true ↔ a.kind i = b.kind j ∧ a.value i = b.value j ∧
        (a.node i).isLength = (b.node j).isLength ∧
        List.Forall₂ (fun x y => a.equivalent x b y = true) (a.children i) (b.children j))) ∧
    ∀ a b : TokenTree, a.Acyclic root → b.Acyclic root → a.equivalent root b root = true →
      a.render = b.render ∧ a.dump = b.dump ∧
      a.flattenOverrides.equivalent root b.flattenOverrides root = true ∧
      (∀ path, Option.Rel (fun i j => ResolveAlike a i b j)
        (a.follow root path) (b.follow root path)) ∧
      ∀ table, Assembly.assemble table a.flattenOverrides.declarations =
        Assembly.assemble table b.flattenOverrides.declarations := by
  refine ⟨fun a i => equivalent_iff.mpr rfl, equivalent_comm, ?_,
    fun a b i j => Acyclic.equivalent_iff, fun a b ha hb h => ?_⟩
  · intro a b c i j k hab hbc
    rw [equivalent_iff] at hab hbc ⊢
    exact hab.trans hbc
  have htoken : a.token = b.token := equivalent_iff.mp h
  obtain ⟨hkind, hvalue, hlength, htop⟩ := Token.node.inj (ha.token_eq ▸ hb.token_eq ▸ htoken)
  have hflat : a.flattenOverrides.token = b.flattenOverrides.token := by
    rw [ha.token_flattenOverrides, hb.token_flattenOverrides, hkind, hvalue, hlength, htop]
  have hassigned : a.flattenOverrides.declarations = b.flattenOverrides.declarations := by
    rw [declarations, declarations, ha.topTokens_flattenOverrides, hb.topTokens_flattenOverrides,
      htop]
  exact ⟨by rw [render, render, htop], by rw [dump, dump, htoken], equivalent_iff.mpr hflat,
    rel_follow ha hb h, fun table => by rw [hassigned]⟩

def numberedForth : TokenTree := .ofTokens [.node .assignment "A" false [.leaf .text "1"],
  .node .assignment "A" false [.leaf .interpolation "B"],
  .node .assignment "B" false [.leaf .text "x"]]

/-- `A=1`, `A=$B` and `B=x`, each node behind what is below it, and a node that is its own child. -/
def numberedBack : TokenTree where
  nodes := #[⟨.main, "", false, [6, 4, 2]⟩, ⟨.text, "x", false, []⟩,
    ⟨.assignment, "B", false, [1]⟩, ⟨.interpolation, "B", false, []⟩,
    ⟨.assignment, "A", false, [3]⟩, ⟨.text, "1", false, []⟩, ⟨.assignment, "A", false, [5]⟩,
    ⟨.comment, "", false, [7, 0]⟩]

theorem acyclic_numberedBack : numberedBack.Acyclic root := by
  refine .of_rank (· < 7) (fun id => if id = root then 7 else id) (by decide) ?_
  decide +kernel

theorem equivalent_congruence_numberedBack :
    numberedForth.Acyclic root ∧ numberedBack.Acyclic root ∧
      numberedForth.equivalent root numberedBack root = true ∧
      numberedForth.render = numberedBack.render ∧
      (Assembly.assemble .standard numberedBack.flattenOverrides.declarations).map (·.bindings) =
        .ok [("A", "x"), ("B", "x")] := by
  have hforth : numberedForth.Acyclic root :=
    (ordered_ofTokens _).acyclic (ordered_ofTokens _).root_lt
  have h : numberedForth.equivalent root numberedBack root = true := by cbv
  have hassemble :
      (Assembly.assemble .standard numberedForth.flattenOverrides.declarations).map (·.bindings) =
        .ok [("A", "x"), ("B", "x")] := by cbv
  obtain ⟨hrender, -, -, -, hsame⟩ := equivalent_congruence.2.2.2.2 numberedForth numberedBack
    hforth acyclic_numberedBack h
  exact ⟨hforth, acyclic_numberedBack, h, hrender, hsame .standard ▸ hassemble⟩

end LayeredEnv.TokenTree
