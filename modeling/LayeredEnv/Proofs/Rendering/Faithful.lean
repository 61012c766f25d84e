import LayeredEnv.Proofs.Rendering.Meaning
import LayeredEnv.Proofs.Rendering.Misreading

namespace LayeredEnv

open Text Lexeme Render

namespace Token

/-- Rendering keeps the token as it is, apart from what is below it. -/
@[mk_iff]
structure Faithful (parent : Kind) (earlier : List Token) (t : Token) : Prop
    extends Legible parent earlier t where
  returns : t.kind = .text → parent = .assignment ∨ parent = .expression → '\r' ∉ t.value.toList

mutual

/-- Quotes are put around nothing in a faithful token. -/
theorem quoteReturns_eq_self : ∀ {t : Token} {parent : Kind} {earlier : List Token},
    Faithful parent earlier t → t.Everywhere Faithful → t.quoteReturns parent = t
  | .node kind value isLength children, parent, _, ht, hbelow => by
    have hnot : ¬(kind = .text ∧ (parent = .assignment ∨ parent = .expression) ∧
        '\r' ∈ value.toList) := fun hc => ht.returns hc.1 hc.2.1 hc.2.2
    rw [quoteReturns, if_neg hnot, quoteReturnsAll_eq_map, map_quoteReturns_eq_self hbelow]

theorem map_quoteReturns_eq_self : ∀ {ts : List Token} {parent : Kind} {earlier : List Token},
    EverywhereAll Faithful parent earlier ts → ts.map (quoteReturns parent) = ts
  | [], _, _, _ => rfl
  | _ :: _, _, _, ⟨ht, hbelow, hts⟩ => by
    rw [List.map_cons, quoteReturns_eq_self ht hbelow, map_quoteReturns_eq_self hts]

end

variable {table : OperatorTable} {parent : Kind} {earlier ts : List Token} {t : Token}

theorem EverywhereAll.readable (hs : EverywhereAll (Arranged table) parent earlier ts)
    (h : EverywhereAll Faithful parent earlier ts) :
    EverywhereAll (Readable table) parent earlier ts :=
  hs.and (fun _ _ _ ha hf => ⟨ha, hf.toLegible⟩) h

theorem Everywhere.readable (hs : t.Shaped table) (h : t.Everywhere Faithful) :
    t.Everywhere (Readable table) := hs.and (fun _ _ _ ha hf => ⟨ha, hf.toLegible⟩) h

/-- In values, quotes and arguments only a comment can be illegible. -/
theorem legible_of_kind (hp : parent = .assignment ∨ parent = .expression ∨ parent = .quoted)
    (h : t.kind = .comment → earlier = []) : Legible parent earlier t where
  top _ hm := by rcases hp with rfl | rfl | rfl <;> cases hm
  reference _ hm := by rcases hp with rfl | rfl | rfl <;> cases hm
  comment hk _ s before he := by
    rw [h hk] at he
    cases he

theorem everywhere_leaf (ht : Arranged table parent earlier t) (hbelow : t.Shaped table)
    (hk : t.kind.contents = []) : t.Everywhere Faithful := by
  rw [eq_leaf ht hbelow hk]
  trivial

theorem plain_of_not_legible (h : ¬Legible .interpolation earlier t) :
    t.kind = .text ∧ ¬∀ c ∈ t.value.toList, isSpecial .expression c = true := by
  by_contra hn
  refine h ⟨fun _ hp => (by cases hp), fun hk _ => ?_, fun _ hp => (by cases hp)⟩
  by_contra hs
  exact hn ⟨hk, hs⟩

theorem loose_of_not_legible {u : Token}
    (hp : parent = .assignment ∨ parent = .expression ∨ parent = .quoted)
    (h : ¬Legible parent (t :: earlier) u) : u.kind = .comment ∧ parent = .assignment ∧
      t.kind = .text ∧ ¬Shut earlier.isEmpty t.value.toList := by
  by_contra hn
  have hmain : parent ≠ .main ∧ parent ≠ .interpolation := by
    rcases hp with rfl | rfl | rfl <;> exact ⟨Kind.noConfusion, Kind.noConfusion⟩
  refine h ⟨fun _ hm => absurd hm hmain.1, fun _ hm => absurd hm hmain.2, ?_⟩
  intro hk hpar s before he hs
  cases he
  by_contra hshut
  exact hn ⟨hk, hpar, hs, hshut⟩

/-- The token is not kept, for what it is or what is below it. Comments do not count: they are lost
to the text before them. -/
def Broken (parent : Kind) (t : Token) : Prop :=
  (t.kind = .text ∧ (parent = .assignment ∨ parent = .expression) ∧ '\r' ∈ t.value.toList) ∨
    ¬t.Everywhere Faithful

end Token

namespace Render

open Token Tokenize

variable {table : OperatorTable}

variable {blocks : Blocks} {rest : List Char} {parent : Kind} {earlier ts : List Token} {t : Token}

theorem noEscape_of_starts {cs : List Char}
    (h : Starts (fun c => !isWhitespace c && c != '\\') cs) : NoEscape cs := by
  intro d tail he
  rw [dropWhile_of_starts (h.imp fun c hc => (Bool.and_eq_true_iff.mp hc).1)] at he
  rw [he] at h
  exact absurd (starts_cons.mp h) (by decide)

/-- Where the first text of a reference is not escaped, the reference is misread. -/
theorem misreads_first (hs : EverywhereAll (Arranged table) .interpolation [] ts)
    (hf : blocks.TextFree) (hb : blocks.innermost = .interpolation)
    (hl : ¬∀ u ∈ ts.head?, Legible .interpolation [] u) :
    Misreads table blocks
      ((tokens .expression false false ts ++ '\x7d' :: rest).dropWhile isSpace)
      (trailAll blocks.depth ts) := by
  push Not at hl
  obtain ⟨⟨kind, value, isLength, children⟩, hu, hul⟩ := hl
  obtain ⟨us, rfl⟩ := List.head?_eq_some_iff.mp hu
  obtain ⟨ht, -, hus⟩ := hs
  obtain ⟨hk, hplain⟩ := plain_of_not_legible hul
  obtain rfl : kind = .text := hk
  have hw := ht.wording
  have hop : ∀ c, isOperatorChar c = true → (!isWhitespace c && c != '\\') = true :=
    fun c => of_isOperatorChar (p := fun c => !isWhitespace c && c != '\\') (by decide)
  have hrest : NoEscape (tokens .expression false false us ++ '\x7d' :: rest) :=
    noEscape_of_starts (starts_reference_of_cons rfl hop hus rest)
  rw [tokens, token_text _ _ _ rfl, List.append_assoc, trailAll, trail_text]
  exact (misreads_leading hb hf hw.1 (hw.2 Kind.noConfusion) hplain hrest).append _

/-- A reference is misread for its name, for its first text or for what comes then. -/
theorem misreads_interpolation {value : String} {isLength : Bool} {children : List Token}
    (hb : blocks.innermost = .assignment ∨ blocks.innermost = .expression ∨
      blocks.innermost = .quoted)
    (hf : blocks.TextFree) (hw : Wording .interpolation .interpolation value.toList)
    (hs : EverywhereAll (Arranged table) .interpolation [] children)
    (hinner : (∀ u ∈ children.head?, Legible .interpolation [] u) →
      Misreads table (blocks.enter { kind := .interpolation, value, isLength })
        (tokens .expression false false children ++ '\x7d' :: rest)
        (trailAll (blocks.depth + 1) children)) {place : Place} {first last : Bool} :
    Misreads table blocks
      (token place first last (.node .interpolation value isLength children) ++ rest)
      ((node .interpolation value isLength children).trail blocks.depth) := by
  rw [token_interpolation_append, trail_of_kind Kind.noConfusion]
  by_cases hn : Starts (!isNameChar ·) (tokens .expression false false children ++ '\x7d' :: rest)
  · have hopening : Reads table blocks _ (blocks.enter { kind := .interpolation, value, isLength })
        ((tokens .expression false false children ++ '\x7d' :: rest).dropWhile isSpace) :=
      (Passes.opening hb hw.1 hw.2 hn).reads
    apply Misreads.of_reads hopening (Blocks.trail_enter ..)
    by_cases hl : ∀ u ∈ children.head?, Legible .interpolation [] u
    · have hspace : ∀ c, isOperatorChar c = true → (!isSpace c) = true :=
        fun c => of_isOperatorChar (p := (!isSpace ·)) (by decide)
      rw [dropWhile_of_starts (starts_reference rfl hspace hs
        (fun u hu hk => ⟨rfl, (hl u hu).reference hk rfl⟩) rest)]
      exact hinner hl
    · exact misreads_first hs (hf.enter Kind.noConfusion) rfl hl
  · exact misreads_name hb hf hw hn

/-- Where a text is not shut before a comment, it takes the comment. -/
theorem misreads_before_comment
    (hp : parent = .assignment ∨ parent = .expression ∨ parent = .quoted)
    (hs : EverywhereAll (Arranged table) parent earlier (t :: ts)) (hf : blocks.TextFree)
    (hb : blocks.innermost = parent) (ht : Faithful parent earlier t)
    (hl : ¬∀ u ∈ ts.head?, Legible parent (t :: earlier) u) {first : Bool} :
    Misreads table blocks (token (placeIn parent) earlier.isEmpty ts.isEmpty t ++
        (tokens (placeIn parent) true first ts ++ rest))
      (t.trail blocks.depth ++ trailAll blocks.depth ts) := by
  push Not at hl
  obtain ⟨⟨kind', value', isLength', children'⟩, hu, hul⟩ := hl
  obtain ⟨us, rfl⟩ := List.head?_eq_some_iff.mp hu
  obtain ⟨hk', rfl, hk, hshut⟩ := loose_of_not_legible hp hul
  obtain ⟨kind, value, isLength, children⟩ := t
  obtain rfl : kind = .text := hk
  obtain rfl : kind' = .comment := hk'
  have hw := hs.1.wording
  have hn : ∀ c ∈ value.toList, isLineBreak c = false :=
    not_isLineBreak (hw.2 Kind.noConfusion) (ht.returns rfl (Or.inl rfl))
  rw [token_text _ _ _ rfl, tokens, token_comment _ _ _ rfl, trail_text, trailAll,
    trail_of_kind Kind.noConfusion]
  show Misreads table blocks (literal .value earlier.isEmpty false value.toList ++ _) _
  rw [literal_value hn]
  exact misreads_comment hb hf hw.1 hn hshut

/-- A token of a reference is read, and it is what stands behind it that is misread. -/
theorem misreads_behind {next : Blocks} (hf : blocks.TextFree)
    (hto : (blocks.closeTo .interpolation).innermost = .interpolation)
    (hcur : (blocks.closeTo .interpolation).current = earlier.map (quoteReturns .interpolation))
    (hsame : t.quoteReturns .interpolation = t)
    (hread : Reads table blocks (token .expression false (false && ts.isEmpty) t ++
        (tokens .expression false false ts ++ '\x7d' :: rest)) next
      (tokens .expression false false ts ++ '\x7d' :: rest))
    (hnext : next.TextFree) (hclosed : next.closeTo .interpolation =
      (blocks.closeTo .interpolation).push (t.quoteReturns .interpolation))
    (htail : (next.closeTo .interpolation).innermost = .interpolation →
      (next.closeTo .interpolation).current = (t :: earlier).map (quoteReturns .interpolation) →
      Misreads table next (tokens .expression false false ts ++ '\x7d' :: rest)
        (trailAll (next.closeTo .interpolation).depth ts)) :
    Misreads table blocks (tokens .expression false false (t :: ts) ++ '\x7d' :: rest)
      (trailAll (blocks.closeTo .interpolation).depth (t :: ts)) := by
  rw [hsame] at hclosed
  have hadded : next.trail = blocks.trail ++ t.trail (blocks.closeTo .interpolation).depth := by
    rw [← (Blocks.closeTo_keeps hnext .interpolation).2, hclosed, Blocks.trail_push,
      (Blocks.closeTo_keeps hf .interpolation).2]
  have hrest : Misreads table next (tokens .expression false false ts ++ '\x7d' :: rest)
      (trailAll (next.closeTo .interpolation).depth ts) := by
    apply htail
    · rw [hclosed, Blocks.innermost_push, hto]
    · rw [hclosed, Blocks.current_push, hcur, List.map_cons, hsame]
  rw [hclosed, Blocks.depth_push] at hrest
  rw [tokens, List.append_assoc]
  exact Misreads.of_reads hread hadded hrest

/-- An expression is misread if its argument is. -/
theorem misreads_expression
    (hin : blocks.innermost = .interpolation ∨ blocks.innermost = .expression)
    (hcur : (blocks.closeTo .interpolation).current = earlier.map (quoteReturns .interpolation))
    (hf : blocks.TextFree) (h : EverywhereAll (Arranged table) .interpolation earlier (t :: ts))
    (hk : t.kind = .expression)
    (hinner : Misreads table
      ((blocks.closeTo .interpolation).enter { kind := .expression, value := t.value })
      (tokens .expression true true t.children ++
        (tokens .expression false false ts ++ '\x7d' :: rest))
      (trailAll ((blocks.closeTo .interpolation).depth + 1) t.children)) :
    Misreads table blocks (tokens .expression false false (t :: ts) ++ '\x7d' :: rest)
      (trailAll (blocks.closeTo .interpolation).depth (t :: ts)) := by
  have hread := reads_operator hin hcur h hk rest
  obtain ⟨kind, value, isLength, children⟩ := t
  obtain rfl : kind = .expression := hk
  have hlength : isLength = false := h.1.isLength_eq_false Kind.noConfusion
  have hadded : ((blocks.closeTo .interpolation).enter { kind := .expression, value }).trail =
      blocks.trail ++
        [((blocks.closeTo .interpolation).depth, .opens .expression value false)] := by
    rw [Blocks.trail_enter, (Blocks.closeTo_keeps hf .interpolation).2]
  rw [tokens, List.append_assoc, token_expression _ _ _ rfl, List.append_assoc, trailAll,
    trail_of_kind Kind.noConfusion, hlength]
  exact (Misreads.of_reads hread hadded hinner).append _

mutual

/-- A token is misread that is broken. -/
theorem misreads_token : ∀ (t : Token) {parent : Kind} {earlier : List Token} {blocks : Blocks}
    {rest : List Char} {first last : Bool},
    parent = .assignment ∨ parent = .expression ∨ parent = .quoted →
    Arranged table parent earlier t → t.Shaped table → blocks.TextFree →
    blocks.innermost = parent → Broken parent t →
    Misreads table blocks (token (placeIn parent) first last t ++ rest) (t.trail blocks.depth)
  | .node kind value isLength children, parent, earlier, blocks, rest, first, last, hp, ht, hbelow,
      hf, hb, h => by
    have hm := ht.mem
    have hw := ht.wording
    cases kind with
    | text =>
      rcases h with ⟨-, hpar, hr⟩ | h
      · have hplace : placeIn parent ≠ .quoted := by
          rcases hpar with rfl | rfl <;> exact Place.noConfusion
        rw [token_text _ _ _ rfl, Token.trail_text]
        exact misreads_returns (hb ▸ hpar) hf hplace hr
      · exact absurd (everywhere_leaf ht hbelow rfl) h
    | comment =>
      rcases h with ⟨hk, -⟩ | h
      · cases hk
      · exact absurd (everywhere_leaf ht hbelow rfl) h
    | quoted =>
      have hbad : ¬EverywhereAll Faithful .quoted [] children :=
        h.resolve_left fun hc => by cases hc.1
      have hvalue : value = "" := String.toList_eq_nil_iff.mp hw
      have hlength : isLength = false := ht.isLength_eq_false Kind.noConfusion
      subst hvalue hlength
      have hinner : Misreads table (blocks.enter { kind := .quoted, value := "" })
          (tokens .quoted true true children ++ '"' :: rest)
          (trailAll (blocks.depth + 1) children) :=
        misreads_tokens children (Or.inr (Or.inr rfl)) hbelow (hf.enter Kind.noConfusion) rfl rfl
          (fun u _ => legible_of_kind (Or.inr (Or.inr rfl)) fun _ => rfl) (starts_cons.mpr rfl) hbad
      rw [token_quoted _ _ _ rfl, Token.trail_of_kind Kind.noConfusion, List.append_assoc]
      exact Misreads.of_reads (reads_openQuote (hb ▸ Kind.parent_of_quoted hm))
        (Blocks.trail_enter ..) hinner
    | interpolation =>
      have hbad : ¬EverywhereAll Faithful .interpolation [] children :=
        h.resolve_left fun hc => by cases hc.1
      have hto : (blocks.enter { kind := .interpolation, value, isLength }).closeTo .interpolation =
          blocks.enter { kind := .interpolation, value, isLength } :=
        Blocks.closeTo_of_innermost rfl
      refine misreads_interpolation (hb ▸ hp) hf hw hbelow fun hl => ?_
      have hinner : Misreads table (blocks.enter { kind := .interpolation, value, isLength })
          (tokens .expression false false children ++ '\x7d' :: rest)
          (trailAll ((blocks.enter { kind := .interpolation, value, isLength }).closeTo
            .interpolation).depth children) :=
        misreads_children children hbelow (hf.enter Kind.noConfusion) (Or.inl rfl) (fun _ => rfl)
          (by rw [hto]; rfl) (by rw [hto]; rfl) hl hbad
      rwa [hto] at hinner
    | main | assignment | expression | includeFlag | preserveFlag =>
      rcases hp with rfl | rfl | rfl <;>
        exact absurd hm (by simp [Kind.contents, Token.kind])

/-- So are siblings, if not all of them are faithful. -/
theorem misreads_tokens : ∀ (ts : List Token) {parent : Kind} {earlier : List Token}
    {blocks : Blocks} {rest : List Char},
    parent = .assignment ∨ parent = .expression ∨ parent = .quoted →
    EverywhereAll (Arranged table) parent earlier ts → blocks.TextFree →
    blocks.innermost = parent → blocks.current = earlier.map (quoteReturns parent) →
    (∀ u ∈ ts.head?, Legible parent earlier u) → Closes parent rest →
    ¬EverywhereAll Faithful parent earlier ts →
    Misreads table blocks (tokens (placeIn parent) true earlier.isEmpty ts ++ rest)
      (trailAll blocks.depth ts)
  | [], _, _, _, _, _, _, _, _, _, _, _, h => absurd trivial h
  | t :: ts, parent, earlier, blocks, rest, hp, hs, hf, hb, hcur, hl, hc, h => by
    obtain ⟨ht, hbelow, hts⟩ := hs
    rw [tokens, List.append_assoc, Bool.true_and, trailAll]
    -- the first token that is broken is misread, or the first that takes the comment behind it
    by_cases hbroken : Broken parent t
    · exact (misreads_token t hp ht hbelow hf hb hbroken).append _
    obtain ⟨hreturns, hbelow'⟩ := not_or.mp hbroken
    have hbelow' := not_not.mp hbelow'
    have hfaithful : Faithful parent earlier t :=
      ⟨hl t rfl, fun hk hpar hr => hreturns ⟨hk, hpar, hr⟩⟩
    have hrest : ¬EverywhereAll Faithful parent (t :: earlier) ts :=
      fun hts' => h ⟨hfaithful, hbelow', hts'⟩
    by_cases hl' : ∀ u ∈ ts.head?, Legible parent (t :: earlier) u
    · have hends := ends_of_next hp ht (fun u hu => ⟨hts.head u hu, hl' u hu⟩) hc
      have hhead := reads_token t hp ⟨ht, hl t rfl⟩ (Everywhere.readable hbelow hbelow') hb hcur
        hends
      rw [quoteReturns_eq_self hfaithful hbelow'] at hhead
      have htail : Misreads table (blocks.push t)
          (tokens (placeIn parent) true (t :: earlier).isEmpty ts ++ rest)
          (trailAll (blocks.push t).depth ts) := by
        refine misreads_tokens ts hp hts (hf.push t) ((Blocks.innermost_push ..).trans hb) ?_ hl' hc
          hrest
        rw [Blocks.current_push, hcur, List.map_cons, quoteReturns_eq_self hfaithful hbelow']
      rw [Blocks.depth_push] at htail
      exact Misreads.of_reads hhead (Blocks.trail_push ..) htail
    · exact misreads_before_comment hp ⟨ht, hbelow, hts⟩ hf hb hfaithful hl'

/-- What stands in a reference is misread, if it is not faithful but starts as it should. -/
theorem misreads_children : ∀ (ts : List Token) {earlier : List Token} {blocks : Blocks}
    {rest : List Char},
    EverywhereAll (Arranged table) .interpolation earlier ts → blocks.TextFree →
    blocks.innermost = .interpolation ∨ blocks.innermost = .expression →
    (earlier = [] → blocks.innermost = .interpolation) →
    (blocks.closeTo .interpolation).innermost = .interpolation →
    (blocks.closeTo .interpolation).current = earlier.map (quoteReturns .interpolation) →
    (∀ u ∈ ts.head?, Legible .interpolation earlier u) →
    ¬EverywhereAll Faithful .interpolation earlier ts →
    Misreads table blocks (tokens .expression false false ts ++ '\x7d' :: rest)
      (trailAll (blocks.closeTo .interpolation).depth ts)
  | [], _, _, _, _, _, _, _, _, _, _, h => absurd trivial h
  | .node kind value isLength children :: ts, earlier, blocks, rest, hs, hf, hin, hfirst, hto, hcur,
      hl, h => by
    obtain ⟨ht, hbelow, hts⟩ := hs
    have hm := ht.mem
    have hw := ht.wording
    have hf' := (Blocks.closeTo_keeps hf .interpolation).1
    -- a faithful token is read, and then it is `ts` that is misread
    have hrec : ∀ next : Blocks,
        Faithful .interpolation earlier (node kind value isLength children) →
        (node kind value isLength children).Everywhere Faithful → next.TextFree →
        next.innermost = .interpolation ∨ next.innermost = .expression →
        next.closeTo .interpolation = (blocks.closeTo .interpolation).push
          ((node kind value isLength children).quoteReturns .interpolation) →
        Reads table blocks (token .expression false (false && ts.isEmpty)
            (node kind value isLength children) ++
              (tokens .expression false false ts ++ '\x7d' :: rest))
          next (tokens .expression false false ts ++ '\x7d' :: rest) →
        Misreads table blocks
          (tokens .expression false false (node kind value isLength children :: ts) ++
            '\x7d' :: rest)
          (trailAll (blocks.closeTo .interpolation).depth
            (node kind value isLength children :: ts)) := by
      intro next hfaithful hbelow' hnext hopen hclosed hread
      refine misreads_behind hf hto hcur (quoteReturns_eq_self hfaithful hbelow') hread hnext
        hclosed fun hi hc => ?_
      refine misreads_children ts hts hnext hopen (fun he => nomatch he) hi hc (fun u hu => ?_)
        fun hts' => h ⟨hfaithful, hbelow', hts'⟩
      -- an expression has nothing to escape
      have hk := (hts.head u hu).first rfl (List.cons_ne_nil _ _)
      exact ⟨fun _ hp => (by cases hp), fun he => (by rw [hk] at he; cases he),
        fun _ hp => (by cases hp)⟩
    cases kind with
    | text =>
      obtain rfl : earlier = [] := by
        by_contra hne
        cases ht.first rfl hne
      have hi := hfirst rfl
      have hi' : (blocks.push (.leaf .text value)).innermost = .interpolation :=
        (Blocks.innermost_push ..).trans hi
      have hleaf := eq_leaf ht hbelow rfl
      have hlegible := hl _ rfl
      rw [Blocks.closeTo_of_innermost hi] at hcur
      refine hrec (blocks.push (.leaf .text value)) ⟨hlegible, fun _ hp => ?_⟩ ?_ (hf.push _)
        (Or.inl hi') ?_ ?_
      · rcases hp with hp | hp <;> cases hp
      · rw [hleaf]
        trivial
      · rw [Blocks.closeTo_of_innermost hi', Blocks.closeTo_of_innermost hi, hleaf]
        rfl
      · rw [hleaf, token_text _ _ _ rfl]
        exact reads_leading hcur hw (hlegible.reference rfl rfl) _ _ _
    | expression =>
      have hstop := closes_expression hts rest
      by_cases hbelow' : EverywhereAll Faithful .expression [] children
      · have hbody := reads_tokens children (Or.inr (Or.inl rfl))
          (EverywhereAll.readable hbelow hbelow') (Blocks.innermost_enter
            (blocks.closeTo .interpolation) { kind := .expression, value }) rfl hstop
        exact hrec (behind blocks (node .expression value isLength children))
          ⟨hl _ rfl, fun hk => nomatch hk⟩ hbelow' (hf'.enter Kind.noConfusion) (Or.inr rfl)
          (closeTo_behind hto ht rfl) (reads_expression hin hcur ⟨ht, hbelow, hts⟩ rfl hbody _ _)
      · exact misreads_expression hin hcur hf ⟨ht, hbelow, hts⟩ rfl
          (misreads_tokens children (Or.inr (Or.inl rfl)) hbelow (hf'.enter Kind.noConfusion) rfl
            rfl (fun u _ => legible_of_kind (Or.inr (Or.inl rfl)) fun _ => rfl) hstop hbelow')
    | _ => exact absurd hm (by simp [Kind.contents, Token.kind])

end

/-- At top level a token is misread that is broken or, as a text, not escaped. -/
theorem misreads_line {top : List Token} (ht : Arranged table .main earlier t)
    (hbelow : t.Shaped table) (hrest : t.kind = .text → NoEscape rest)
    (h : (t.kind = .text ∧ ¬∀ c ∈ t.value.toList, isSpecial .value c = true) ∨
      ¬t.Everywhere Faithful) :
    Misreads table ⟨[], top⟩ ((line t ++ rest).dropWhile isWhitespace) (t.trail 0) := by
  obtain ⟨kind, value, isLength, children⟩ := t
  have hm := ht.mem
  have hw := ht.wording
  have hf : Blocks.TextFree ⟨[], top⟩ := fun _ hm => nomatch hm
  cases kind with
  | text =>
    obtain ⟨-, hplain⟩ := h.resolve_right fun hn => hn (everywhere_leaf ht hbelow rfl)
    have hrest' : NoEscape ('\n' :: rest) := by
      intro d tail
      rw [List.dropWhile_cons_of_pos rfl]
      exact hrest rfl d tail
    have hmis : Misreads table ⟨[], top⟩
        ((literal .value false false value.toList ++ '\n' :: rest).dropWhile isWhitespace)
        (textTrail 0 value.toList) :=
      misreads_topText rfl hf hw.1 (hw.2 Kind.noConfusion) hplain hrest'
    rw [trail_text]
    show Misreads table _
      ((literal .value false false value.toList ++ ['\n'] ++ rest).dropWhile _) _
    rw [List.append_assoc]
    exact hmis
  | assignment =>
    have hbad : ¬EverywhereAll Faithful .assignment [] children :=
      h.resolve_left fun hc => by cases hc.1
    have hlength : isLength = false := ht.isLength_eq_false Kind.noConfusion
    subst hlength
    have hstart : Starts (!isWhitespace ·)
        (value.toList ++ '=' :: (tokens .value true true children ++ '\n' :: rest)) :=
      starts_name hw.1 hw.2 fun c hc => by rw [not_isWhitespace_of_isNameChar hc]; rfl
    have hopen : Reads table ⟨[], top⟩ _
        (Blocks.enter ⟨[], top⟩ { kind := .assignment, value := _ })
        (tokens .value true true children ++ '\n' :: rest) :=
      Reads.of_scan' (fun hm => by cases hm) (scan_line hw hbelow rest) rfl
    rw [String.ofList_toList] at hopen
    have hinner : Misreads table (Blocks.enter ⟨[], top⟩ { kind := .assignment, value })
        (tokens .value true true children ++ '\n' :: rest) (trailAll 1 children) :=
      misreads_tokens children (Or.inl rfl) hbelow (hf.enter Kind.noConfusion) rfl rfl
        (fun u _ => legible_of_kind (Or.inl rfl) fun _ => rfl) (starts_cons.mpr rfl) hbad
    rw [line_assignment, dropWhile_of_starts hstart, trail_of_kind Kind.noConfusion]
    exact Misreads.of_reads hopen (Blocks.trail_enter ..) hinner
  | includeFlag | preserveFlag | comment =>
    rcases h with ⟨hk, -⟩ | h
    · cases hk
    · exact absurd (everywhere_leaf ht hbelow rfl) h
  | _ => exact absurd hm (by simp [Kind.contents, Token.kind])

theorem misreads_lines : ∀ (ts : List Token) {earlier : List Token},
    EverywhereAll (Arranged table) .main earlier ts → ¬EverywhereAll Faithful .main earlier ts →
    Misreads table ⟨[], earlier.map (quoteReturns .main)⟩ ((lines ts).dropWhile isWhitespace)
      (trailAll 0 ts)
  | [], _, _, h => absurd trivial h
  | t :: ts, earlier, hs, h => by
    have ⟨ht, hbelow, hts⟩ := hs
    by_cases hbroken : (t.kind = .text ∧ ¬∀ c ∈ t.value.toList, isSpecial .value c = true) ∨
        ¬t.Everywhere Faithful
    · have hrest : t.kind = .text → NoEscape (lines ts) := by
        intro hk
        refine noEscape_of_starts (starts_lines rfl (fun c hc => ?_) hts fun u hu hk' => ?_)
        · rw [not_isWhitespace_of_isNameChar hc]
          exact ne_of_isNameChar hc (by decide)
        · exact absurd ⟨hk, hk'⟩ ((hts.head u hu).apart t rfl)
      exact (misreads_line ht hbelow hrest hbroken).append _
    · obtain ⟨hplain, hbelow'⟩ := not_or.mp hbroken
      have hbelow' := not_not.mp hbelow'
      have hfaithful : Faithful .main earlier t :=
        { top := fun hk _ => not_not.mp fun hn => hplain ⟨hk, hn⟩
          reference := fun _ hp => nomatch hp
          comment := fun _ hp => nomatch hp
          returns := fun _ hp => by rcases hp with hp | hp <;> cases hp }
      have hhead := reads_line ⟨ht, hfaithful.toLegible⟩ (Everywhere.readable hbelow hbelow') rfl
        (lines ts)
      have htail := misreads_lines ts hts fun hts' => h ⟨hfaithful, hbelow', hts'⟩
      have hsame := quoteReturns_eq_self hfaithful hbelow'
      rw [List.map_cons, hsame] at htail
      rw [hsame] at hhead
      have hdrop : (lines (t :: ts)).dropWhile isWhitespace = lines (t :: ts) :=
        dropWhile_lines hs fun u hu => by
          cases hu
          exact hfaithful.toLegible
      rw [hdrop]
      exact Misreads.of_reads hhead (Blocks.trail_push ⟨[], _⟩ t) htail

end Render

namespace TokenTree

open Token

/-- Rendering and tokenizing again yields an equivalent tree with the same canonical text exactly if
the tree is faithful. -/
theorem render_returns_iff {text : String} {limit : ℕ} {tree : TokenTree}
    (h : tokenize text limit = .ok tree) {again : ℕ} (hl : 2 ≤ again) :
    (∃ reread, tokenize tree.render again = .ok reread ∧
        tree.equivalent root reread root = true ∧ reread.render = tree.render) ↔
      tree.token.Everywhere Faithful := by
  obtain ⟨ts, rfl, ht⟩ := exists_tokens_of_tokenize h
  have hs := Tokenize.shapedAll_of_tokens ht
  rw [token_ofTokens]
  constructor
  · rintro ⟨reread, hread, he, -⟩
    by_contra hn
    -- the same tokens have the same trail, on which no run gets to its end
    obtain ⟨ts', rfl, ht'⟩ := exists_tokens_of_tokenize hread
    obtain rfl : ts = ts' := by
      have htoken := (same_eq_true_iff _ _).mp he
      change (TokenTree.ofTokens ts).token = (TokenTree.ofTokens ts').token at htoken
      rw [token_ofTokens, token_ofTokens] at htoken
      exact (Token.node.inj htoken).2.2.2
    rw [TokenTree.render, topTokens_ofTokens, String.toList_ofList] at ht'
    have hmis : Tokenize.Misreads .standard {} (lines ts) (trailAll 0 ts) :=
      Misreads.of_dropWhile (Or.inl rfl) (misreads_lines ts hs hn)
    exact hmis.not_tokens hl ht'
  · intro hf
    have hlegible : EverywhereAll Legible .main [] ts :=
      EverywhereAll.imp (fun _ _ _ ht => ht.toLegible) hf
    have hread := tokenize_render hs hlegible hl
    rw [map_quoteReturns_eq_self hf] at hread
    exact ⟨_, hread, (same_eq_true_iff _ _).mpr rfl, rfl⟩

/-- References in quotes and a comment behind the quotes are rendered as they are read. -/
theorem render_returns_quotedReference :
    let tree : TokenTree := .ofTokens [.node .assignment "A" false
      [.node .quoted "" false [.leaf .interpolation "B", .leaf .text ":\r"], .leaf .comment "c"]]
    tokenize "A=\"$B:\r\"#c" = .ok tree ∧ tree.token.Everywhere Faithful ∧
      ∃ reread, tokenize tree.render 2 = .ok reread ∧
        tree.equivalent root reread root = true ∧ reread.render = tree.render := by
  intro tree
  have hread : tokenize "A=\"$B:\r\"#c" = .ok tree := by cbv
  have hf : tree.token.Everywhere Faithful := by
    rw [token_ofTokens]
    simp [Token.root, Token.Everywhere, Token.EverywhereAll, Token.leaf, Token.kind, Token.value,
      faithful_iff, legible_iff]
  exact ⟨hread, hf, (render_returns_iff hread (Nat.le_refl 2)).mpr hf⟩

/-- The blank before a comment loses its escape, and the text takes the comment. -/
theorem render_changes_textBeforeComment :
    let tree : TokenTree :=
      .ofTokens [.node .assignment "A" false [.leaf .text "x ", .leaf .comment "c"]]
    let reread : TokenTree := .ofTokens [.node .assignment "A" false [.leaf .text "x # c"]]
    tokenize "A=x\\ # c" = .ok tree ∧ tree.render = "A=x # c\n" ∧
      tokenize tree.render = .ok reread ∧ tree.equivalent root reread root = false ∧
      reread.render ≠ tree.render := by
  intro tree reread
  have hrender : tree.render = "A=x # c\n" := by cbv
  refine ⟨by cbv, hrender, ?_, by cbv, ?_⟩
  · rw [hrender]
    cbv
  · rw [hrender]
    cbv

end TokenTree
end LayeredEnv
