import LayeredEnv.Assembly
import LayeredEnv.Proofs.Evaluation.Simulation
import LayeredEnv.Proofs.Tokenizing.Shape
import Mathlib

namespace LayeredEnv

namespace OperatorTable

/-- The spellings of the standard table by their symbols. -/
theorem segments_standard : (spellings standard.operators).map segments =
    [[""], [":-"], ["||"], ["-"], ["??"], [":+"], ["&&"], ["+"], ["?", ":"], [":"], [":", ":"],
      ["#"], ["##"], ["%"], ["%%"], ["/", "/"], ["//", "/"]] := by
  decide

/-- The spellings of more than one symbol: a symbol that comes second continues one of these. -/
theorem continues_standard {first : String} {rest : List String} {next : String}
    (h : standard.continues (first :: rest) next = true) :
    rest = [] ∧ (first, next) ∈ [("?", ":"), (":", ":"), ("/", "/"), ("//", "/")] := by
  have hlong : ∀ symbols ∈ (spellings standard.operators).map segments, 2 ≤ symbols.length →
      symbols ∈ [["?", ":"], [":", ":"], ["/", "/"], ["//", "/"]] := by
    rw [segments_standard]
    decide
  obtain ⟨spelling, hs, hprefix⟩ := List.any_eq_true.mp h
  rw [List.isPrefixOf_iff_prefix] at hprefix
  have hlength := hprefix.length_le
  rw [List.length_append, List.length_cons, List.length_singleton] at hlength
  have hm := hlong _ (List.mem_map_of_mem hs) (by omega)
  have htwo : ∀ symbols ∈ [["?", ":"], [":", ":"], ["/", "/"], ["//", "/"]],
      symbols.length = 2 := by decide
  -- the prefix has two symbols at least, and so it is the whole
  have he := hprefix.eq_of_length_le (by
    rw [htwo _ hm, List.length_append, List.length_cons, List.length_singleton]
    omega)
  rw [← he] at hm
  have hlast := htwo _ hm
  rw [List.length_append, List.length_cons, List.length_singleton] at hlast
  obtain rfl : rest = [] := List.length_eq_zero_iff.mp (by omega)
  refine ⟨rfl, ?_⟩
  simpa using hm

/-- Every spelling of an operator has as many symbols as the operator has arguments. -/
theorem arity_of_find {spelling : String} {operator : Operator}
    (h : standard.find? spelling = some operator) :
    operator.arity = if spelling = "" then 0 else (segments spelling).length := by
  have hall : ∀ operator ∈ standard.operators, ∀ spelling ∈ operator.symbols,
      operator.arity = if spelling = "" then 0 else (segments spelling).length := by decide
  have hs := List.find?_some h
  exact hall operator (List.mem_of_find?_eq_some h) spelling (List.contains_iff_mem.mp hs)

/-- A symbol behind others continues them to a spelling. -/
theorem continues_of_pick {table : OperatorTable} {prior : List String} {first : Char}
    {second : Option Char} {symbol : List Char} (hp : prior ≠ [])
    (h : table.pick prior first second = some symbol) :
    table.continues prior (.ofList symbol) = true := by
  unfold pick at h
  dsimp only at h
  split at h
  · next found hf =>
    cases h
    have hs := List.find?_some hf
    exact hs
  · rw [if_neg (by simpa using hp)] at h
    cases h

end OperatorTable

/-- A spelling of one symbol, which has one or two operator characters. -/
def IsSymbol (spelling : String) : Prop :=
  (∀ c ∈ spelling.toList, Lexeme.isOperatorChar c = true) ∧
    (spelling.toList.length = 1 ∨ spelling.toList.length = 2)

theorem IsSymbol.ne_empty {spelling : String} (h : IsSymbol spelling) : spelling ≠ "" := by
  rintro rfl
  exact absurd h.2 (by decide)

/-- There is no comma in a symbol. -/
theorem IsSymbol.segments_eq {spelling : String} (h : IsSymbol spelling) :
    segments spelling = [spelling] := by
  have hsplit : ∀ cs : List Char, (∀ c ∈ cs, Lexeme.isOperatorChar c = true) →
      Text.splitOn ',' cs = [cs] := by
    intro cs hcs
    induction cs with
    | nil => rfl
    | cons c cs ih =>
      obtain ⟨hc, hcs⟩ := List.forall_mem_cons.mp hcs
      have hcomma : (c == ',') = false := by
        rw [beq_eq_false_iff_ne]
        rintro rfl
        exact absurd hc (by decide)
      rw [Text.splitOn, hcomma, ih hcs]
      rfl
  rw [segments, hsplit _ h.1, List.map_singleton, String.ofList_toList]

namespace Token

inductive Has : Token → Token → Prop where
  | self (t : Token) : Has t t
  | child {t child u : Token} : child ∈ t.children → Has child u → Has t u

/-- The children of a token of some kind are as the grammar has them. -/
structure Regular (kind : Kind) (children : List Token) : Prop where
  contents : ∀ t ∈ children, t.kind ∈ kind.contents
  filled : ∀ t ∈ children, t.kind = .text → t.value ≠ ""
  apart : children.IsChain fun t u => ¬(t.kind = .text ∧ u.kind = .text)
  /-- Nothing stands behind the comment of a value. -/
  comment : kind = .assignment → ∀ before t after, children = before ++ t :: after →
    t.kind = .comment → after = []
  /-- A reference has literal text at most once, before its operators. -/
  reference : kind = .interpolation → ∃ texts expressions, children = texts ++ expressions ∧
    texts.length ≤ 1 ∧ (∀ t ∈ texts, t.kind = .text) ∧
    (∀ t ∈ expressions, t.kind = .expression ∧ IsSymbol t.value) ∧ expressions.length ≤ 2 ∧
    (expressions.length = 2 → spelling children ∈ ["?,:", ":,:", "/,/", "//,/"])

variable {p : Placed} {parent : Kind} {earlier ts : List Token} {t u : Token}

theorem EverywhereAll.split (h : EverywhereAll p parent earlier ts) {before after : List Token}
    (he : ts = before ++ t :: after) :
    p parent (before.reverse ++ earlier) t ∧ t.Everywhere p := by
  induction before generalizing earlier ts with
  | nil =>
    subst he
    exact ⟨h.1, h.2.1⟩
  | cons b before ih =>
    subst he
    rw [List.reverse_cons, List.append_assoc]
    exact ih h.2.2 rfl

theorem EverywhereAll.of_mem (h : EverywhereAll p parent earlier ts) (hm : t ∈ ts) :
    ∃ earlier, p parent earlier t ∧ t.Everywhere p := by
  obtain ⟨before, after, he⟩ := List.append_of_mem hm
  exact ⟨_, h.split he⟩

theorem Everywhere.all (h : t.Everywhere p) : EverywhereAll p t.kind [] t.children := by
  cases t
  exact h

theorem Everywhere.of_has (h : t.Everywhere p) (hu : t.Has u) : u.Everywhere p := by
  induction hu with
  | self => exact h
  | child hm _ ih =>
    obtain ⟨_, -, hc⟩ := h.all.of_mem hm
    exact ih hc

variable {kind : Kind} {children : List Token}

theorem EverywhereAll.apart {table : OperatorTable}
    (h : EverywhereAll (Arranged table) parent earlier ts) :
    ts.IsChain fun t u => ¬(t.kind = .text ∧ u.kind = .text) := by
  induction ts generalizing earlier with
  | nil => exact List.isChain_nil
  | cons t ts ih =>
    cases ts with
    | nil => exact List.isChain_singleton t
    | cons u ts => exact List.isChain_cons_cons.mpr ⟨h.2.2.1.apart t rfl, ih h.2.2⟩

/-- Behind a first token there are only expressions in a reference. -/
theorem ShapedAll.expressions {table : OperatorTable}
    (h : ShapedAll table .interpolation (t :: ts)) : ∀ e ∈ ts, e.kind = .expression := by
  intro e hm
  obtain ⟨before, after, rfl⟩ := List.append_of_mem hm
  have he : t :: (before ++ e :: after) = (t :: before) ++ e :: after := rfl
  exact (h.split he).1.first rfl (by simp)

theorem filter_expressions {texts expressions : List Token} (ht : ∀ t ∈ texts, t.kind = .text)
    (he : ∀ e ∈ expressions, e.kind = .expression) :
    (texts ++ expressions).filter (fun t => t.kind == .expression) = expressions := by
  rw [List.filter_append, List.filter_eq_nil_iff.mpr fun t hm => by rw [ht t hm]; decide,
    List.filter_eq_self.mpr fun e hm => by rw [he e hm]; rfl, List.nil_append]

/-- An operator of a reference is a symbol, and it continues those before it. -/
theorem ShapedAll.symbol {table : OperatorTable} {texts before after : List Token} {e : Token}
    (h : ShapedAll table .interpolation (texts ++ (before ++ e :: after)))
    (ht : ∀ t ∈ texts, t.kind = .text) (hb : ∀ t ∈ before, t.kind = .expression)
    (he : e.kind = .expression) :
    IsSymbol e.value ∧ (before ≠ [] → table.continues (before.map value) e.value = true) := by
  have hplace := (h.split (List.append_assoc texts before (e :: after)).symm).1
  obtain ⟨first, second, hpick⟩ := (hplace.cut he).picked
  have hword := hplace.wording
  rw [he] at hword
  have hprior : symbols ((texts ++ before).reverse ++ []) = before.map value := by
    rw [symbols, List.append_nil, List.filter_reverse, List.map_reverse, List.reverse_reverse,
      filter_expressions ht hb]
  rw [hprior] at hpick
  refine ⟨⟨hword.2, ?_⟩, fun hne => ?_⟩
  · rcases OperatorTable.pick_cases hpick with hs | ⟨c, -, hs⟩ <;> rw [hs]
    · exact Or.inl rfl
    · exact Or.inr rfl
  · have hc := OperatorTable.continues_of_pick (by simpa using hne) hpick
    rwa [String.ofList_toList] at hc

/-- Literal text at most once, then operators, of which no more are there than a spelling has. -/
theorem ShapedAll.reference (h : ShapedAll .standard .interpolation children) :
    ∃ texts expressions, children = texts ++ expressions ∧
      texts.length ≤ 1 ∧ (∀ t ∈ texts, t.kind = .text) ∧
      (∀ t ∈ expressions, t.kind = .expression ∧ IsSymbol t.value) ∧ expressions.length ≤ 2 ∧
      (expressions.length = 2 → spelling children ∈ ["?,:", ":,:", "/,/", "//,/"]) := by
  obtain ⟨texts, expressions, rfl, hone, ht, he⟩ : ∃ texts expressions,
      children = texts ++ expressions ∧ texts.length ≤ 1 ∧ (∀ t ∈ texts, t.kind = .text) ∧
      ∀ e ∈ expressions, e.kind = .expression := by
    cases children with
    | nil => exact ⟨[], [], rfl, Nat.zero_le 1, nofun, nofun⟩
    | cons t ts =>
      have hts := h.expressions
      have hk := h.1.mem
      simp only [Kind.contents, List.mem_cons, List.not_mem_nil, or_false] at hk
      rcases hk with hk | hk
      · exact ⟨[t], ts, rfl, Nat.le_refl 1, by simpa using hk, hts⟩
      · exact ⟨[], t :: ts, rfl, Nat.zero_le 1, nofun, List.forall_mem_cons.mpr ⟨hk, hts⟩⟩
  refine ⟨texts, expressions, rfl, hone, ht, fun e hm => ?_, ?_, fun htwo => ?_⟩
  · obtain ⟨before, after, rfl⟩ := List.append_of_mem hm
    exact ⟨he e hm, (h.symbol ht (fun t hb => he t (List.mem_append_left _ hb)) (he e hm)).1⟩
  · match expressions, h with
    | [], _ => exact Nat.zero_le 2
    | [_], _ => exact Nat.le_succ 1
    | [_, _], _ => exact Nat.le_refl 2
    | a :: b :: c :: rest, h =>
      -- no spelling has a third symbol
      have hs : ShapedAll .standard .interpolation (texts ++ ([a, b] ++ c :: rest)) := h
      have hc := (hs.symbol ht (fun t hb => he t (List.mem_append_left _ hb))
        (he c (by simp))).2 (List.cons_ne_nil _ _)
      exact absurd (OperatorTable.continues_standard hc).1 (List.cons_ne_nil _ _)
  · obtain ⟨a, b, rfl⟩ := List.length_eq_two.mp htwo
    have hs : ShapedAll .standard .interpolation (texts ++ ([a] ++ b :: [])) := h
    have hb := (hs.symbol ht (fun t hb => he t (List.mem_append_left _ hb))
      (he b (by simp))).2 (List.cons_ne_nil _ _)
    have hpair := (OperatorTable.continues_standard hb).2
    rw [spelling, filter_expressions ht he]
    simp only [List.mem_cons, List.not_mem_nil, or_false, Prod.mk.injEq] at hpair
    rcases hpair with ⟨ha, hb⟩ | ⟨ha, hb⟩ | ⟨ha, hb⟩ | ⟨ha, hb⟩ <;>
      simp only [List.map_cons, List.map_nil, ha, hb] <;> decide

theorem ShapedAll.regular (h : ShapedAll .standard kind children) : Regular kind children where
  contents t hm := by
    obtain ⟨_, ha, -⟩ := h.of_mem hm
    exact ha.mem
  filled t hm hk := by
    obtain ⟨_, ha, -⟩ := h.of_mem hm
    have hw := ha.wording
    rw [hk] at hw
    intro he
    exact hw.1 (by rw [he]; rfl)
  apart := h.apart
  comment hkind before t after he hk := by
    cases after with
    | nil => rfl
    | cons u after =>
      have hsplit : children = (before ++ [t]) ++ u :: after := by simp [he]
      exact absurd hk ((h.split hsplit).1.last hkind t (by simp))
  reference hkind := by
    subst hkind
    exact h.reference

/-- A reference has no operator, or one symbol, or two that make a spelling. -/
theorem Regular.spelling_cases (h : Regular .interpolation children) :
    ((children.filter fun t => t.kind == .expression).length = 0 ∧ spelling children = "") ∨
      ((children.filter fun t => t.kind == .expression).length = 1 ∧
        IsSymbol (spelling children)) ∨
      ((children.filter fun t => t.kind == .expression).length = 2 ∧
        spelling children ∈ ["?,:", ":,:", "/,/", "//,/"]) := by
  obtain ⟨texts, expressions, rfl, -, ht, he, htwo, hs⟩ := h.reference rfl
  have hf := filter_expressions ht fun e hm => (he e hm).1
  rw [spelling, hf] at hs ⊢
  match expressions, he, htwo, hs with
  | [], _, _, _ => exact Or.inl ⟨rfl, rfl⟩
  | [e], he, _, _ =>
    refine Or.inr (Or.inl ⟨rfl, ?_⟩)
    rw [List.map_singleton, String.intercalate_singleton]
    exact (he e List.mem_cons_self).2
  | [_, _], _, _, hs => exact Or.inr (Or.inr ⟨rfl, hs rfl⟩)

theorem length_arguments {σ : Type} (table : OperatorTable) (lookup : Lookup σ)
    (ts : List Token) :
    (arguments table lookup ts).length = (ts.filter fun t => t.kind == .expression).length := by
  induction ts with
  | nil => rfl
  | cons t ts ih =>
    obtain ⟨kind, value, isLength, children⟩ := t
    rw [arguments, List.filter_cons, Token.kind]
    split
    · rw [List.length_cons, List.length_cons, ih]
    · exact ih

/-- An operator that is found has all its arguments, and no more. -/
theorem Regular.length_arguments {σ : Type} (h : Regular .interpolation children)
    (lookup : Lookup σ) {operator : Operator}
    (ho : OperatorTable.standard.find? (spelling children) = some operator) :
    (arguments .standard lookup children).length = operator.arity := by
  rw [Token.length_arguments, OperatorTable.arity_of_find ho]
  rcases h.spelling_cases with ⟨hl, hs⟩ | ⟨hl, hs⟩ | ⟨hl, hs⟩
  · rw [hl, hs, if_pos rfl]
  · rw [hl, hs.segments_eq, if_neg hs.ne_empty]
    rfl
  · have htwo : ∀ spelling ∈ ["?,:", ":,:", "/,/", "//,/"],
        (if spelling = "" then 0 else (segments spelling).length) = 2 := by decide
    rw [hl, htwo _ hs]

/-- A spelling that no operator has is a single symbol. -/
theorem Regular.isSymbol_of_find (h : Regular .interpolation children)
    (ho : OperatorTable.standard.find? (spelling children) = none) :
    IsSymbol (spelling children) := by
  rcases h.spelling_cases with ⟨-, hs⟩ | ⟨-, hs⟩ | ⟨-, hs⟩
  · rw [hs] at ho
    exact absurd ho (by decide)
  · exact hs
  · have hall : ∀ spelling ∈ ["?,:", ":,:", "/,/", "//,/"],
        OperatorTable.standard.find? spelling ≠ none := by decide
    exact absurd ho (hall _ hs)

end Token

/-- Where the computation fails, the error has the property. -/
def Raises {σ α : Type} (p : Error → Prop) (x : Eval σ α) : Prop :=
  ∀ state error, (x state).1 = .error error → p error

def Error.NamesSymbol (error : Error) : Prop :=
  ∀ name spelling, error = .unknownOperator name spelling → IsSymbol spelling

namespace Raises

variable {σ α β : Type} {p : Error → Prop}

theorem pure (a : α) : Raises p (pure a : Eval σ α) := fun _ _ h => nomatch h

theorem bind {x : Eval σ α} {f : α → Eval σ β} (hx : Raises p x) (hf : ∀ a, Raises p (f a)) :
    Raises p (x >>= f) := by
  intro state error h
  rw [Eval.bind_apply] at h
  rcases hr : x state with ⟨e | a, after⟩
  · rw [hr] at h
    cases h
    exact hx state error (by rw [hr])
  · rw [hr] at h
    exact hf a after error h

/-- An operator fails where an argument fails, or at a pattern. -/
theorem apply (hp : ∀ pattern, p (.invalidPattern pattern)) {arguments : Arguments σ}
    (h : ∀ x ∈ arguments, Raises p x) (rule : Rule) (value : Value) :
    Raises p (rule.apply value arguments) := by
  have hs : @Sequencing σ σ fun x _ => Raises p x :=
    ⟨pure, fun {_ _ _ _ _ _} => bind, fun pattern _ _ he => by cases he; exact hp pattern⟩
  exact hs.apply (List.forall₂_same.mpr h) rule value

end Raises

namespace Token

variable {σ : Type} {lookup : Lookup σ}

mutual

theorem raises_resolve (hl : ∀ name, Raises Error.NamesSymbol (lookup name)) :
    ∀ {t : Token}, t.Shaped .standard → Raises Error.NamesSymbol (t.resolve .standard lookup)
  | .node kind value isLength children, h => by
    have hc : EverywhereAll (Arranged .standard) kind [] children := h
    unfold Token.resolve
    cases kind with
    | text => exact .pure _
    | assignment | expression | quoted =>
      simp only [← bind_pure_comp]
      exact (raises_concat hl hc).bind fun _ => .pure _
    | interpolation =>
      simp only [reference]
      split
      · next hf =>
        -- a reference reports its own spelling
        rintro state error he name spelling rfl
        cases he
        exact (ShapedAll.regular hc).isSymbol_of_find hf
      · refine (hl value).bind fun v => ?_
        exact (Raises.apply (fun _ _ _ h => nomatch h) (raises_arguments hl hc) _ v).bind
          fun _ => .pure _
    | main | comment | includeFlag | preserveFlag => exact .pure _

theorem raises_concat (hl : ∀ name, Raises Error.NamesSymbol (lookup name)) :
    ∀ {parent : Kind} {earlier ts : List Token},
      EverywhereAll (Arranged .standard) parent earlier ts →
        Raises Error.NamesSymbol (concat .standard lookup ts)
  | _, _, [], _ => .pure _
  | _, _, _ :: _, ⟨_, ht, hts⟩ =>
    (raises_resolve hl ht).bind fun _ => (raises_concat hl hts).bind fun _ => .pure _

theorem raises_arguments (hl : ∀ name, Raises Error.NamesSymbol (lookup name)) :
    ∀ {parent : Kind} {earlier ts : List Token},
      EverywhereAll (Arranged .standard) parent earlier ts →
        ∀ x ∈ arguments .standard lookup ts, Raises Error.NamesSymbol x
  | _, _, [], _ => nofun
  | _, _, .node kind value isLength children :: ts, ⟨_, ht, hts⟩ => by
    unfold Token.arguments
    split
    · exact List.forall_mem_cons.mpr ⟨raises_resolve hl ht, raises_arguments hl hts⟩
    · exact raises_arguments hl hts

end

end Token

namespace Assembly

variable {available : Declarations}

theorem raises_resolve (h : ∀ name token, available.lookup name = some token →
    token.Shaped .standard) (name : String) :
    Raises Error.NamesSymbol (resolve .standard available name) := by
  induction hn : available.length using Nat.strong_induction_on generalizing available name with
  | _ length ih =>
  intro cache error he
  rw [resolve_apply] at he
  split at he
  · cases he
  · cases he
    exact fun _ _ hu => nomatch hu
  · have hc : Raises Error.NamesSymbol (compute .standard available name) := by
      unfold compute
      cases ht : available.lookup name with
      | none => exact .pure _
      | some token =>
        -- the token is evaluated with one declaration less
        refine Token.raises_resolve (fun other => ?_) (h name token ht)
        refine ih _ (hn ▸ Declarations.length_without_lt ht) (fun m t hm => ?_) other rfl
        rw [Declarations.lookup_without] at hm
        split at hm
        · cases hm
        · exact h m t hm
    unfold VariableCache.settle at he
    rcases hr : compute .standard available name (cache.start name) with ⟨e | value, after⟩
    · simp only [hr] at he
      cases he
      exact hc _ error (congrArg Prod.fst hr)
    · simp only [hr] at he
      cases he

theorem raises_resolveAll (h : ∀ name token, available.lookup name = some token →
    token.Shaped .standard) (names : List String) :
    Raises Error.NamesSymbol (resolveAll .standard available names) := by
  induction names with
  | nil => exact .pure ()
  | cons name names ih => exact (raises_resolve h name).bind fun _ => ih

theorem namesSymbol_of_assemble (h : ∀ name token, available.lookup name = some token →
    token.Shaped .standard) {error : Error}
    (he : assemble .standard available = .error error) : error.NamesSymbol := by
  unfold assemble at he
  rcases hr : resolveAll .standard available available.names {} with ⟨e | _, cache⟩
  · simp only [hr] at he
    cases he
    exact raises_resolveAll h available.names {} error (congrArg Prod.fst hr)
  · simp only [hr] at he
    cases he

end Assembly

/-- What an accepted text declares is shaped. -/
theorem Tokenize.shaped_of_lookup {limit : Nat} {source cursor : List Char} {ts : List Token}
    (h : tokens limit source {} cursor = .ok ts) (name : String) (t : Token)
    (ht : (Declarations.ofTokens ts).lookup name = some t) : t.Shaped .standard := by
  rw [Declarations.lookup_ofTokens] at ht
  have hm := (List.mem_filter.mp (List.mem_of_getLast? ht)).1
  obtain ⟨_, -, hs⟩ := (shapedAll_of_tokens h).of_mem hm
  exact hs

/-- Every token of an accepted text has the children that the grammar has for it. So when it is
evaluated, whatever the lookup, an operator that is found has exactly its arguments, and an unknown
one that is reported is a single symbol. It is so too when the values are those of the text's own
declarations. -/
theorem tokenize_regular {text : String} {limit : Nat} {tree : TokenTree}
    (h : tokenize text limit = .ok tree) :
    (∀ t, tree.token.Has t → Token.Regular t.kind t.children ∧
      ∀ (σ : Type) (lookup : Lookup σ),
        (t.kind = .interpolation → ∀ operator,
          OperatorTable.standard.find? (Token.spelling t.children) = some operator →
            (Token.arguments .standard lookup t.children).length = operator.arity) ∧
        ((∀ name, Raises Error.NamesSymbol (lookup name)) →
          Raises Error.NamesSymbol (t.resolve .standard lookup))) ∧
    (∀ name, Raises Error.NamesSymbol (Assembly.resolve .standard tree.declarations name)) ∧
    ∀ error, Assembly.assemble .standard tree.declarations = .error error →
      error.NamesSymbol := by
  obtain ⟨ts, rfl, htokens⟩ := TokenTree.exists_tokens_of_tokenize h
  have hdeclared : ∀ name t, (TokenTree.ofTokens ts).declarations.lookup name = some t →
      t.Shaped .standard := by
    rw [TokenTree.declarations, TokenTree.topTokens_ofTokens]
    exact Tokenize.shaped_of_lookup htokens
  refine ⟨fun t ht => ?_, Assembly.raises_resolve hdeclared,
    fun error => Assembly.namesSymbol_of_assemble hdeclared⟩
  have hroot : (TokenTree.ofTokens ts).token.Shaped .standard := by
    rw [TokenTree.token_ofTokens]
    exact Tokenize.shapedAll_of_tokens htokens
  have hshaped : t.Shaped .standard := hroot.of_has ht
  have hregular : Token.Regular t.kind t.children := Token.ShapedAll.regular hshaped.all
  refine ⟨hregular, fun σ lookup => ⟨fun hk operator ho => ?_, fun hl => ?_⟩⟩
  · rw [hk] at hregular
    exact hregular.length_arguments lookup ho
  · exact Token.raises_resolve hl hshaped

def replacingReference : Token :=
  .node .interpolation "X" false
    [.node .expression "/" false [.leaf .text "a"],
      .node .expression "/" false
        [.node .interpolation "Y" false [.node .expression "|" false [.leaf .text "z"]]]]

theorem tokenize_regular_replacingReference :
    tokenize "X=a\nA=$\x7bX/a/$\x7bY|z\x7d\x7d" =
        .ok (.ofTokens [.node .assignment "X" false [.leaf .text "a"],
          .node .assignment "A" false [replacingReference]]) ∧
      Token.Regular .interpolation replacingReference.children ∧
      (∀ (σ : Type) (lookup : Lookup σ),
        (Token.arguments .standard lookup replacingReference.children).length = 2) ∧
      Assembly.assemble .standard (TokenTree.declarations (.ofTokens
        [.node .assignment "X" false [.leaf .text "a"],
          .node .assignment "A" false [replacingReference]])) =
        .error (.unknownOperator "Y" "|") ∧
      (Error.unknownOperator "Y" "|").NamesSymbol := by
  have h : tokenize "X=a\nA=$\x7bX/a/$\x7bY|z\x7d\x7d" =
      .ok (.ofTokens [.node .assignment "X" false [.leaf .text "a"],
        .node .assignment "A" false [replacingReference]]) :=
    TokenTree.tokenize_of_tokens (by decide +kernel)
  have ht : (TokenTree.ofTokens [.node .assignment "X" false [.leaf .text "a"],
      .node .assignment "A" false [replacingReference]]).token.Has replacingReference := by
    rw [TokenTree.token_ofTokens]
    exact .child (List.mem_cons_of_mem _ List.mem_cons_self) (.child List.mem_cons_self (.self _))
  have hassemble : Assembly.assemble .standard (TokenTree.declarations (.ofTokens
      [.node .assignment "X" false [.leaf .text "a"],
        .node .assignment "A" false [replacingReference]])) =
      .error (.unknownOperator "Y" "|") := by cbv
  obtain ⟨htokens, -, herror⟩ := tokenize_regular h
  obtain ⟨hregular, hvalues⟩ := htokens _ ht
  refine ⟨h, hregular, fun σ lookup => ?_, hassemble, herror _ hassemble⟩
  exact (hvalues σ lookup).1 rfl ⟨["/,/"], .replace false⟩ (by decide)

end LayeredEnv
