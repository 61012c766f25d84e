import LayeredEnv.Evaluation
import LayeredEnv.Proofs.Rendering.Reread

namespace LayeredEnv

open Render

namespace Token

variable {σ : Type} {table : OperatorTable} {lookup : Lookup σ}

theorem kind_quoteReturns_eq_expression_iff (parent : Kind) (t : Token) :
    (t.quoteReturns parent).kind = .expression ↔ t.kind = .expression := by
  obtain ⟨kind, value, isLength, children⟩ := t
  rw [quoteReturns]
  split
  · next h =>
    rw [h.1]
    exact ⟨Kind.noConfusion, Kind.noConfusion⟩
  · exact Iff.rfl

/-- Quotes do not change the spelling of an operator. -/
theorem spelling_quoteReturns (parent : Kind) (ts : List Token) :
    spelling (ts.map (quoteReturns parent)) = spelling ts := by
  have hfilter : ((ts.map (quoteReturns parent)).filter fun t => t.kind == .expression).map value =
      (ts.filter fun t => t.kind == .expression).map value := by
    induction ts with
    | nil => rfl
    | cons t ts ih =>
      have hk := kind_quoteReturns_eq_expression_iff parent t
      by_cases h : t.kind = .expression
      · have hv : (t.quoteReturns parent).value = t.value := by
          rw [quoteReturns_of_kind (by rw [h]; exact Kind.noConfusion)]
          rfl
        rw [List.map_cons, List.filter_cons_of_pos (by simpa using hk.mpr h),
          List.filter_cons_of_pos (by simpa using h), List.map_cons, List.map_cons, hv, ih]
      · rw [List.map_cons, List.filter_cons_of_neg (by simpa using fun he => h (hk.mp he)),
          List.filter_cons_of_neg (by simpa using h), ih]
  unfold spelling
  rw [hfilter]

mutual

/-- Quotes around literal text do not change a token's value or the lookups on the way to it. -/
theorem resolve_quoteReturns (parent : Kind) : ∀ t : Token,
    (t.quoteReturns parent).resolve table lookup = t.resolve table lookup
  | .node kind value isLength children => by
    rw [quoteReturns]
    split
    · next h =>
      obtain ⟨rfl, -⟩ := h
      simp [resolve, concat]
    · rw [quoteReturnsAll_eq_map]
      cases kind with
      | assignment | expression | quoted => rw [resolve, resolve, concat_quoteReturns]
      | interpolation => rw [resolve, resolve, spelling_quoteReturns, arguments_quoteReturns]
      | _ => rfl

theorem concat_quoteReturns (parent : Kind) : ∀ ts : List Token,
    concat table lookup (ts.map (quoteReturns parent)) = concat table lookup ts
  | [] => rfl
  | t :: ts => by
    rw [List.map_cons, concat, concat, resolve_quoteReturns, concat_quoteReturns]

theorem arguments_quoteReturns (parent : Kind) : ∀ ts : List Token,
    arguments table lookup (ts.map (quoteReturns parent)) = arguments table lookup ts
  | [] => rfl
  | .node kind value isLength children :: ts => by
    have hargument := resolve_quoteReturns parent (.node kind value isLength children)
    have hk := kind_quoteReturns_eq_expression_iff parent (.node kind value isLength children)
    rw [List.map_cons]
    generalize (node kind value isLength children).quoteReturns parent = quoted at hargument hk
    obtain ⟨kind', value', isLength', children'⟩ := quoted
    have hkind : kind' = .expression ↔ kind = .expression := hk
    rw [arguments, arguments, arguments_quoteReturns, hargument]
    by_cases h : kind = .expression
    · rw [if_pos (beq_iff_eq.mpr (hkind.mpr h)), if_pos (beq_iff_eq.mpr h)]
    · rw [if_neg fun he => h (hkind.mp (beq_iff_eq.mp he)), if_neg fun he => h (beq_iff_eq.mp he)]

end

mutual

/-- Nor do they change the canonical text, where literal text is not in quotes already. -/
theorem token_quoteReturns (parent : Kind) (place : Render.Place) (first last : Bool)
    (h : parent = .assignment ∨ parent = .expression → place ≠ .quoted) : ∀ t : Token,
    token place first last (t.quoteReturns parent) = token place first last t
  | .node kind value isLength children => by
    rw [quoteReturns]
    split
    · next hc =>
      obtain ⟨rfl, hp, hr⟩ := hc
      rw [token_quoted _ _ _ rfl, token_text _ _ _ rfl]
      show '"' :: tokens .quoted true true [_] ++ ['"'] = literal place first last value.toList
      rw [literal_of_mem (h hp) hr, tokens, tokens, token_text _ _ _ rfl, List.append_nil]
      rfl
    · rw [quoteReturnsAll_eq_map]
      cases kind with
      | quoted =>
        rw [token, token, tokens_quoteReturns .quoted .quoted true true (by simp)]
      | interpolation =>
        rw [token, token,
          tokens_quoteReturns .interpolation .expression false false (by simp)]
      | expression =>
        rw [token, token, tokens_quoteReturns .expression .expression true true (by simp)]
      | _ => rfl

theorem tokens_quoteReturns (parent : Kind) (place : Render.Place) (edges first : Bool)
    (h : parent = .assignment ∨ parent = .expression → place ≠ .quoted) : ∀ ts : List Token,
    tokens place edges first (ts.map (quoteReturns parent)) = tokens place edges first ts
  | [] => rfl
  | t :: ts => by
    rw [List.map_cons, tokens, tokens, List.isEmpty_map, token_quoteReturns parent place _ _ h,
      tokens_quoteReturns parent place edges false h]

end

theorem line_quoteReturns (t : Token) : line (t.quoteReturns .main) = line t := by
  have htoken := token_quoteReturns .main .value false false (fun _ => Render.Place.noConfusion) t
  obtain ⟨kind, value, isLength, children⟩ := t
  have hsame : (Token.node kind value isLength children).quoteReturns .main =
      .node kind value isLength (children.map (quoteReturns kind)) := by
    rw [quoteReturns, if_neg (by simp), quoteReturnsAll_eq_map]
  rw [hsame] at htoken ⊢
  cases kind with
  | assignment =>
    show _ ++ '=' :: tokens .value true true _ ++ ['\n'] = _
    rw [Token.children,
      tokens_quoteReturns .assignment .value true true fun _ => Render.Place.noConfusion]
    rfl
  | includeFlag | preserveFlag | comment => rfl
  | main | interpolation | expression | quoted | text => exact congrArg (· ++ ['\n']) htoken

theorem lines_quoteReturns (ts : List Token) : lines (ts.map (quoteReturns .main)) = lines ts := by
  unfold lines
  rw [List.flatMap_map]
  simp only [line_quoteReturns]

/-- No literal text stands at top level or in a reference, and none before a comment. -/
def WellPlaced : Placed := fun parent earlier t =>
  (t.kind = .text → parent ≠ .main ∧ parent ≠ .interpolation) ∧
    (t.kind = .comment → ∀ s ∈ earlier.head?, s.kind ≠ .text)

theorem WellPlaced.legible {parent : Kind} {earlier : List Token} {t : Token}
    (h : WellPlaced parent earlier t) : Legible parent earlier t where
  top hk hp := absurd hp (h.1 hk).1
  reference hk hp := absurd hp (h.1 hk).2
  comment hk _ s before he hs := absurd hs (h.2 hk s (by rw [he]; rfl))

end Token

namespace TokenTree

open Token

/-- The canonical text of a legible tree is read as the tree, with quotes around text with carriage
returns. -/
theorem tokenize_render {ts : List Token} (hs : ShapedAll .standard .main ts)
    (hl : EverywhereAll Legible .main [] ts) {limit : ℕ} (h : 2 ≤ limit) :
    tokenize (TokenTree.render (.ofTokens ts)) limit =
      .ok (.ofTokens (ts.map (quoteReturns .main))) := by
  have hr : EverywhereAll (Readable .standard) .main [] ts :=
    hs.and (fun _ _ _ ha hb => ⟨ha, hb⟩) hl
  have ht := tokens_lines hr h
  rw [tokenize, TokenTree.render, topTokens_ofTokens, String.toList_ofList, ht]
  rfl

/-- Rendering keeps the meaning of a well-placed tree. Its text is accepted; the tree that is read
differs by the quotes around text with carriage returns alone; it has the same canonical text; and
from whatever source of values, which may keep a record of its use, its tokens have the same
values. -/
theorem render_preserves_meaning {text : String} {limit : ℕ} {tree : TokenTree}
    (h : tokenize text limit = .ok tree) (hw : tree.token.Everywhere WellPlaced) {again : ℕ}
    (hl : 2 ≤ again) :
    ∃ reread, tokenize tree.render again = .ok reread ∧
      reread.token = tree.token.quoteReturns .main ∧ reread.render = tree.render ∧
      ∀ (σ : Type) (table : OperatorTable) (lookup : Lookup σ),
        reread.topTokens.map (·.resolve table lookup) =
          tree.topTokens.map (·.resolve table lookup) := by
  obtain ⟨ts, rfl, ht⟩ := exists_tokens_of_tokenize h
  have hs := Tokenize.shapedAll_of_tokens ht
  rw [token_ofTokens] at hw
  have hlegible : EverywhereAll Legible .main [] ts :=
    EverywhereAll.imp (fun _ _ _ => WellPlaced.legible) hw
  -- what changes are quotes around text with carriage returns, which rendering sets anyway
  refine ⟨_, tokenize_render hs hlegible hl, ?_, ?_, ?_⟩
  · rw [token_ofTokens, token_ofTokens, quoteReturns_of_kind Kind.noConfusion]
    rfl
  · rw [TokenTree.render, TokenTree.render, topTokens_ofTokens, topTokens_ofTokens,
      lines_quoteReturns]
  · intro σ table lookup
    rw [topTokens_ofTokens, topTokens_ofTokens, List.map_map]
    apply List.map_congr_left
    intro t _
    exact resolve_quoteReturns .main t

/-- An unquoted value with a carriage return gets its quotes when it is rendered. -/
theorem render_preserves_meaning_returnInValue :
    let tree : TokenTree := .ofTokens [.node .assignment "A" false [.leaf .text "x\ry"]]
    tokenize "A=x\\\ry" = .ok tree ∧ tree.token.Everywhere WellPlaced ∧
      ∃ reread, tokenize tree.render 2 = .ok reread ∧
        reread.token = tree.token.quoteReturns .main ∧ reread.render = tree.render ∧
        ∀ (σ : Type) (table : OperatorTable) (lookup : Lookup σ),
          reread.topTokens.map (·.resolve table lookup) =
            tree.topTokens.map (·.resolve table lookup) := by
  intro tree
  have hread : tokenize "A=x\\\ry" = .ok tree := by cbv
  have hplaced : tree.token.Everywhere WellPlaced := by
    rw [token_ofTokens]
    simp [Token.root, Token.Everywhere, Token.EverywhereAll, WellPlaced, Token.leaf, Token.kind]
  exact ⟨hread, hplaced, render_preserves_meaning hread hplaced (Nat.le_refl 2)⟩

end TokenTree
end LayeredEnv
