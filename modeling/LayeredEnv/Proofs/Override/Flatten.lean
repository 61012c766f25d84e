import LayeredEnv.Proofs.Assembly.Solution
import LayeredEnv.Proofs.Override.Winner

namespace LayeredEnv

namespace Override

/-- The token at `i` is no assignment, or it wins. -/
def Kept (labels : Labels) (i : ℕ) : Prop :=
  ∃ kind value, labels[i]? = some (kind, value) ∧ (kind = .assignment → Wins labels value i)

variable {α : Type} {label : α → Kind × String}

def survives (label : α → Kind × String) (tokens : List α) (entry : α × ℕ) : Bool :=
  (label entry.1).1 != .assignment ||
    (winners {} none 0 (tokens.map label)).positions.lookup (label entry.1).2 == some entry.2

theorem survivors_eq (label : α → Kind × String) (tokens : List α) :
    survivors label tokens = (tokens.zipIdx.filter (survives label tokens)).map (·.1) := rfl

def positions (label : α → Kind × String) (tokens : List α) : List ℕ :=
  (tokens.zipIdx.filter (survives label tokens)).map (·.2)

theorem survives_iff {tokens : List α} {token : α} {i : ℕ} (h : tokens[i]? = some token) :
    survives label tokens (token, i) = true ↔ Kept (tokens.map label) i := by
  have ht : (tokens.map label)[i]? = some ((label token).1, (label token).2) := by
    rw [List.getElem?_map, h]
    rfl
  rw [survives, Bool.or_eq_true, bne_iff_ne, beq_iff_eq, lookup_winners_iff]
  constructor
  · rintro hk
    refine ⟨_, _, ht, fun ha => hk.resolve_left fun hn => hn ha⟩
  · rintro ⟨kind, value, hv, hw⟩
    rw [ht, Option.some.injEq, Prod.mk.injEq] at hv
    obtain ⟨rfl, rfl⟩ := hv
    exact or_iff_not_imp_left.mpr fun hn => hw (not_not.mp hn)

theorem mem_positions_iff {tokens : List α} {i : ℕ} :
    i ∈ positions label tokens ↔ Kept (tokens.map label) i := by
  unfold positions
  rw [List.mem_map]
  constructor
  · rintro ⟨⟨token, j⟩, hm, rfl⟩
    obtain ⟨hz, hs⟩ := List.mem_filter.mp hm
    exact (survives_iff (List.mem_zipIdx_iff_getElem?.mp hz)).mp hs
  · intro hk
    have hlt : i < tokens.length := by
      obtain ⟨_, _, h, -⟩ := hk
      simpa using (List.getElem?_eq_some_iff.mp h).1
    have ht := List.getElem?_eq_getElem hlt
    exact ⟨(tokens[i], i),
      List.mem_filter.mpr ⟨List.mem_zipIdx_iff_getElem?.mpr ht, (survives_iff ht).mpr hk⟩, rfl⟩

theorem pairwise_positions (label : α → Kind × String) (tokens : List α) :
    (positions label tokens).Pairwise (· < ·) := by
  have h : (tokens.zipIdx.map (·.2)).Pairwise (· < ·) := by
    rw [List.zipIdx_map_snd]
    exact List.pairwise_lt_range'
  exact h.sublist (List.filter_sublist.map _)

theorem survivors_eq_filterMap (label : α → Kind × String) (tokens : List α) :
    survivors label tokens = (positions label tokens).filterMap (tokens[·]?) := by
  have he : ∀ entry ∈ tokens.zipIdx.filter (survives label tokens),
      tokens[entry.2]? = some entry.1 :=
    fun entry hm => List.mem_zipIdx_iff_getElem?.mp (List.mem_of_mem_filter hm)
  calc survivors label tokens
      = (tokens.zipIdx.filter (survives label tokens)).filterMap (fun entry => some entry.1) :=
        (congrFun List.filterMap_eq_map' _).symm
    _ = (tokens.zipIdx.filter (survives label tokens)).filterMap (fun entry => tokens[entry.2]?) :=
        (List.filterMap_congr he).symm
    _ = (positions label tokens).filterMap (tokens[·]?) := by
        rw [positions, List.filterMap_map]
        rfl

theorem survivors_sublist (label : α → Kind × String) (tokens : List α) :
    (survivors label tokens).Sublist tokens := by
  have h : (tokens.zipIdx.filter (survives label tokens)).Sublist tokens.zipIdx :=
    List.filter_sublist
  have hm := h.map (·.1)
  rwa [List.zipIdx_map_fst] at hm

def Separate (label : α → Kind × String) (t u : α) : Prop :=
  ∀ name, label t = (.assignment, name) → label u ≠ (.assignment, name)

theorem Kept.wins {labels : Labels} {name : String} {i : ℕ} (h : Kept labels i)
    (ha : Assigns labels name i) : Wins labels name i := by
  obtain ⟨kind, value, hv, hw⟩ := h
  rw [ha] at hv
  cases hv
  exact hw rfl

theorem assigns_map_iff {tokens : List α} {name : String} {i : ℕ} :
    Assigns (tokens.map label) name i ↔
      ∃ token, tokens[i]? = some token ∧ label token = (.assignment, name) := by
  unfold Assigns
  rw [List.getElem?_map, Option.map_eq_some_iff]

/-- Of the assignments of a name only one survives. -/
theorem pairwise_survivors (label : α → Kind × String) (tokens : List α) :
    (survivors label tokens).Pairwise (Separate label) := by
  rw [survivors_eq_filterMap]
  have hp := List.Pairwise.and_mem.mp (pairwise_positions label tokens)
  apply hp.filterMap _
  rintro i j ⟨hi, hj, hlt⟩ t ht u hu name htn hun
  -- two survivors of one name would both win it
  have hwi := (mem_positions_iff.mp hi).wins (assigns_map_iff.mpr ⟨t, ht, htn⟩)
  have hwj := (mem_positions_iff.mp hj).wins (assigns_map_iff.mpr ⟨u, hu, hun⟩)
  exact absurd (hwi.unique hwj) hlt.ne

theorem Separate.eq_of_assigns {tokens : List α} (h : tokens.Pairwise (Separate label))
    {name : String} {i j : ℕ} (hi : Assigns (tokens.map label) name i)
    (hj : Assigns (tokens.map label) name j) : i = j := by
  rw [List.pairwise_iff_getElem] at h
  obtain ⟨t, ht, htn⟩ := assigns_map_iff.mp hi
  obtain ⟨u, hu, hun⟩ := assigns_map_iff.mp hj
  obtain ⟨hil, rfl⟩ := List.getElem?_eq_some_iff.mp ht
  obtain ⟨hjl, rfl⟩ := List.getElem?_eq_some_iff.mp hu
  rcases lt_trichotomy i j with hlt | rfl | hlt
  · exact absurd hun (h i j hil hjl hlt name htn)
  · rfl
  · exact absurd htn (h j i hjl hil hlt name hun)

theorem survivors_eq_self {tokens : List α} (h : tokens.Pairwise (Separate label)) :
    survivors label tokens = tokens := by
  have hf : tokens.zipIdx.filter (survives label tokens) = tokens.zipIdx := by
    refine List.filter_eq_self.mpr fun ⟨token, i⟩ hm => ?_
    have ht := List.mem_zipIdx_iff_getElem?.mp hm
    refine (survives_iff ht).mpr ⟨(label token).1, (label token).2, ?_, fun hk => ?_⟩
    · rw [List.getElem?_map, ht]
      rfl
    · have ha : Assigns (tokens.map label) (label token).2 i :=
        assigns_map_iff.mpr ⟨token, ht, Prod.ext hk rfl⟩
      obtain ⟨j, hj⟩ := exists_wins ha
      rwa [Separate.eq_of_assigns h ha hj.assigns]
  rw [survivors_eq, hf, List.zipIdx_map_fst]

theorem survivors_survivors (label : α → Kind × String) (tokens : List α) :
    survivors label (survivors label tokens) = survivors label tokens :=
  survivors_eq_self (pairwise_survivors label tokens)

theorem survivors_map {β : Type} (f : β → α) (tokens : List β) :
    survivors label (tokens.map f) = (survivors (label ∘ f) tokens).map f := by
  have hs : survives label (tokens.map f) ∘ Prod.map f id = survives (label ∘ f) tokens := by
    funext entry
    simp only [Function.comp_apply, survives, List.map_map, Prod.map_fst, Prod.map_snd, id_eq]
  rw [survivors_eq, survivors_eq, List.zipIdx_map, List.filter_map, hs, List.map_map, List.map_map]
  rfl

theorem positions_map {β : Type} (f : β → α) (tokens : List β) :
    positions label (tokens.map f) = positions (label ∘ f) tokens := by
  have hs : survives label (tokens.map f) ∘ Prod.map f id = survives (label ∘ f) tokens := by
    funext entry
    simp only [Function.comp_apply, survives, List.map_map, Prod.map_fst, Prod.map_snd, id_eq]
  rw [positions, positions, List.zipIdx_map, List.filter_map, hs, List.map_map]
  rfl

/-- Which positions survive depends on kinds and values alone. -/
theorem positions_eq_of_labels {left right : List α} (h : left.map label = right.map label) :
    positions label left = positions label right := by
  have hid : ∀ tokens : List α, positions id (tokens.map label) = positions label tokens :=
    fun tokens => positions_map label tokens
  rw [← hid, ← hid, h]

theorem survivors_eq_of_kept {left right : List α} (hl : left.map label = right.map label)
    (hk : ∀ i, Kept (left.map label) i → right[i]? = left[i]?) :
    survivors label right = survivors label left := by
  rw [survivors_eq_filterMap, survivors_eq_filterMap, ← positions_eq_of_labels hl]
  exact List.filterMap_congr fun i hi => hk i (mem_positions_iff.mp hi)

end Override

def Token.label (t : Token) : Kind × String := (t.kind, t.value)

namespace Declarations

/-- Only assignments declare. -/
theorem ofTokens_filter (tokens : List Token) :
    ofTokens (tokens.filter fun token => token.kind == .assignment) = ofTokens tokens := by
  unfold ofTokens
  rw [List.foldl_filter]
  congr 1
  funext declarations token
  split <;> rfl

end Declarations

namespace Override

def Won (tokens : List Token) (name : String) (t : Token) : Prop :=
  ∃ i, Wins (tokens.map Token.label) name i ∧ tokens[i]? = some t

variable {tokens : List Token} {name : String} {t u : Token}

theorem Won.label_eq (h : Won tokens name t) : t.label = (.assignment, name) := by
  obtain ⟨i, hw, ht⟩ := h
  obtain ⟨u, hu, hl⟩ := assigns_map_iff.mp hw.assigns
  rw [ht] at hu
  cases hu
  exact hl

theorem Won.unique (h : Won tokens name t) (h' : Won tokens name u) : t = u := by
  obtain ⟨i, hw, ht⟩ := h
  obtain ⟨j, hw', hu⟩ := h'
  cases hw.unique hw'
  exact Option.some.inj (ht.symm.trans hu)

/-- An assignment that survives has won. -/
theorem won_iff_mem_survivors : Won tokens name t ↔
    t ∈ survivors Token.label tokens ∧ t.label = (.assignment, name) := by
  rw [survivors_eq_filterMap, List.mem_filterMap]
  constructor
  · intro h
    have hl := h.label_eq
    obtain ⟨i, hw, ht⟩ := h
    have hk : Kept (tokens.map Token.label) i := ⟨_, _, hw.assigns, fun _ => hw⟩
    exact ⟨⟨i, mem_positions_iff.mpr hk, ht⟩, hl⟩
  · rintro ⟨⟨i, hi, ht⟩, hl⟩
    exact ⟨i, (mem_positions_iff.mp hi).wins (assigns_map_iff.mpr ⟨t, ht, hl⟩), ht⟩

/-- The survivors declare a name by the assignment that wins it. -/
theorem lookup_survivors_iff :
    (Declarations.ofTokens (survivors Token.label tokens)).lookup name = some t ↔
      Won tokens name t := by
  have hmem (u : Token) :
      u ∈ (survivors Token.label tokens).filter (fun token =>
        token.kind == .assignment && token.value == name) ↔ Won tokens name u := by
    rw [List.mem_filter, won_iff_mem_survivors, Bool.and_eq_true, beq_iff_eq, beq_iff_eq,
      Token.label, Prod.mk.injEq]
  rw [Declarations.lookup_ofTokens]
  constructor
  · intro h
    exact (hmem t).mp (List.mem_of_getLast? h)
  · intro h
    have hne := List.ne_nil_of_mem ((hmem t).mpr h)
    rw [List.getLast?_eq_some_getLast hne]
    exact congrArg some (((hmem _).mp (List.getLast_mem hne)).unique h)

/-- A token behind the others leaves the winner what it is if it does so with the position. -/
theorem won_concat_congr
    (h : ∀ i, Wins ((tokens ++ [u]).map Token.label) name i ↔
      Wins (tokens.map Token.label) name i) :
    Won (tokens ++ [u]) name t ↔ Won tokens name t := by
  unfold Won
  simp only [h]
  refine exists_congr fun i => and_congr_right fun hw => ?_
  have hlt := hw.assigns.lt
  rw [List.length_map] at hlt
  rw [List.getElem?_append_left hlt]

theorem won_concat_of_ne (h : u.label ≠ (.assignment, name)) :
    Won (tokens ++ [u]) name t ↔ Won tokens name t := by
  apply won_concat_congr
  intro i
  rw [List.map_append]
  exact wins_concat_of_ne h i

theorem won_concat_of_preserved (h : ∃ i, Preserved (tokens.map Token.label) name i) :
    Won (tokens ++ [u]) name t ↔ Won tokens name t := by
  apply won_concat_congr
  intro i
  rw [List.map_append]
  exact wins_concat_of_preserved h i

/-- While no assignment of a name is preserved, the latest one wins. -/
theorem won_concat_last (h : ∀ i, ¬Preserved (tokens.map Token.label) name i)
    (hu : u.label = (.assignment, name)) : Won (tokens ++ [u]) name t ↔ t = u := by
  have hw : ∀ i, Wins ((tokens ++ [u]).map Token.label) name i ↔ i = tokens.length := by
    intro i
    rw [List.map_append, List.map_singleton, hu, ← List.length_map (f := Token.label)]
    by_cases hl : (tokens.map Token.label).getLast?.map (·.1) = some .preserveFlag
    · exact wins_concat_preserved h hl i
    · exact wins_concat_last h hl i
  unfold Won
  simp only [hw, exists_eq_left, List.getElem?_concat_length, Option.some.injEq]
  exact eq_comm

end Override

namespace TokenTree

open Override

def label (tree : TokenTree) (id : ℕ) : Kind × String := (tree.kind id, tree.value id)

theorem label_subtree (tree : TokenTree) : Token.label ∘ tree.subtree = tree.label := by
  funext id
  simp [Token.label, label]

theorem label_flattenOverrides (tree : TokenTree) : tree.flattenOverrides.label = tree.label := by
  funext id
  simp [label, flattenOverrides]

theorem topLevel_flattenOverrides (tree : TokenTree) :
    tree.flattenOverrides.topLevel = survivors tree.label tree.topLevel := by
  rcases Nat.eq_zero_or_pos tree.size with h | h
  · have h' : tree.flattenOverrides.size = 0 := by rw [flattenOverrides, size_setTopLevel, h]
    rw [topLevel_of_size_eq_zero h, topLevel_of_size_eq_zero h']
    rfl
  · exact topLevel_setTopLevel h _

theorem flattenOverrides_flattenOverrides (tree : TokenTree) :
    tree.flattenOverrides.flattenOverrides = tree.flattenOverrides := by
  have hs : survivors tree.flattenOverrides.label tree.flattenOverrides.topLevel =
      survivors tree.label tree.topLevel := by
    rw [label_flattenOverrides, topLevel_flattenOverrides, survivors_survivors]
  calc tree.flattenOverrides.flattenOverrides
      = tree.flattenOverrides.setTopLevel
          (survivors tree.flattenOverrides.label tree.flattenOverrides.topLevel) := rfl
    _ = tree.flattenOverrides.setTopLevel (survivors tree.label tree.topLevel) := by rw [hs]
    _ = tree.flattenOverrides := setTopLevel_setTopLevel tree _ _

/-- What stands below a survivor is not changed. -/
theorem subtree_flattenOverrides {tree : TokenTree} {id : ℕ} (h : id ≠ root)
    (hid : id ∈ survivors tree.label tree.topLevel) :
    tree.flattenOverrides.subtree id = tree.subtree id :=
  subtree_setTopLevel h fun _ => ⟨(survivors_sublist _ _).subset, hid⟩

/-- The declarations of a flattened tree are the assignments that survive, with all that is below
them. -/
theorem declarations_flattenOverrides {tree : TokenTree} (h : tree.kind root = .main) :
    tree.flattenOverrides.declarations =
      .ofTokens (survivors Token.label tree.topTokens) := by
  rw [declarations, topTokens, topLevel_flattenOverrides, topTokens, survivors_map, label_subtree,
    ← Declarations.ofTokens_filter, ← Declarations.ofTokens_filter (List.map tree.subtree _)]
  congr 1
  rw [List.filter_map, List.filter_map]
  have hkind : tree.flattenOverrides.kind = tree.kind := by
    funext id
    exact kind_setTopLevel ..
  simp only [Function.comp_def, kind_subtree, hkind]
  refine List.map_congr_left fun id hid => ?_
  obtain ⟨hm, hk⟩ := List.mem_filter.mp hid
  refine subtree_flattenOverrides ?_ hm
  rintro rfl
  rw [h] at hk
  cases hk

/-- The top level of `other` is that of `tree`, but for what is below assignments that lose. -/
structure SameButLosers (tree other : TokenTree) : Prop where
  labels : tree.topTokens.map Token.label = other.topTokens.map Token.label
  kept : ∀ i, Kept (tree.topTokens.map Token.label) i → other.topTokens[i]? = tree.topTokens[i]?

theorem SameButLosers.declarations_eq {tree other : TokenTree} (h : tree.SameButLosers other)
    (ht : tree.kind root = .main) (ho : other.kind root = .main) :
    other.flattenOverrides.declarations = tree.flattenOverrides.declarations := by
  rw [declarations_flattenOverrides ht, declarations_flattenOverrides ho,
    survivors_eq_of_kept h.labels h.kept]

/-- Flattening leaves, in their order, all tokens but the assignments that lose. Of the assignments
of a name exactly one wins. A second pass changes nothing, and what is below a losing assignment
does not matter to the environment. -/
theorem flattenOverrides_keeps_winners (tree : TokenTree) :
    (∃ kept : List ℕ, kept.Pairwise (· < ·) ∧
      (∀ i, i ∈ kept ↔ Kept (tree.topLevel.map tree.label) i) ∧
      tree.flattenOverrides.topLevel = kept.filterMap (tree.topLevel[·]?)) ∧
    tree.flattenOverrides.topLevel.Sublist tree.topLevel ∧
    (∀ name, (∃ i, Assigns (tree.topLevel.map tree.label) name i) →
      ∃! i, Wins (tree.topLevel.map tree.label) name i) ∧
    tree.flattenOverrides.flattenOverrides = tree.flattenOverrides ∧
    ∀ (table : OperatorTable) (other : TokenTree), tree.kind root = .main →
      other.kind root = .main → tree.SameButLosers other →
      Assembly.assemble table other.flattenOverrides.declarations =
        Assembly.assemble table tree.flattenOverrides.declarations := by
  refine ⟨⟨positions tree.label tree.topLevel, pairwise_positions _ _,
    fun _ => mem_positions_iff, ?_⟩, ?_, ?_, flattenOverrides_flattenOverrides tree, ?_⟩
  · rw [topLevel_flattenOverrides, survivors_eq_filterMap]
  · rw [topLevel_flattenOverrides]
    exact survivors_sublist _ _
  · rintro name ⟨i, hi⟩
    obtain ⟨j, hj⟩ := exists_wins hi
    exact ⟨j, hj, fun k hk => hk.unique hj⟩
  · intro table other ht ho h
    rw [h.declarations_eq ht ho]

/-- `X=first`, a preserved `X=kept` and `X=last`. -/
def preservedInside : TokenTree := .ofTokens
  [.node .assignment "X" false [.leaf .text "first"], .leaf .preserveFlag "",
    .node .assignment "X" false [.leaf .text "kept"],
    .node .assignment "X" false [.leaf .text "last"]]

def brokenLoser : TokenTree := .ofTokens
  [.node .assignment "X" false
      [.node .interpolation "Y" false [.node .expression "|" false [.leaf .text "z"]]],
    .leaf .preserveFlag "", .node .assignment "X" false [.leaf .text "kept"],
    .node .assignment "X" false [.leaf .text "last"]]

theorem flattenOverrides_keeps_winners_brokenLoser :
    preservedInside.SameButLosers brokenLoser ∧
      Assembly.assemble .standard brokenLoser.flattenOverrides.declarations =
        Assembly.assemble .standard preservedInside.flattenOverrides.declarations := by
  have h : preservedInside.SameButLosers brokenLoser := by
    refine ⟨by cbv, fun i hi => ?_⟩
    have hm : i ∈ positions Token.label preservedInside.topTokens := mem_positions_iff.mpr hi
    have hp : positions Token.label preservedInside.topTokens = [1, 2] := by cbv
    rw [hp, List.mem_cons, List.mem_singleton] at hm
    rcases hm with rfl | rfl <;> cbv
  exact ⟨h, (flattenOverrides_keeps_winners preservedInside).2.2.2.2 .standard brokenLoser
    (by cbv) (by cbv) h⟩

end TokenTree
end LayeredEnv
