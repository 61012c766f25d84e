import LayeredEnv.Proofs.Rendering.Literal
import LayeredEnv.Proofs.Tokenizing.Shape

namespace LayeredEnv

open Text Lexeme Tokenize Render

namespace Token

mutual

/-- The token with quotes around all literal text with carriage returns that stands in a value or an
argument outside of quotes. -/
def quoteReturns (parent : Kind) : Token → Token
  | .node kind value isLength children =>
    if kind = .text ∧ (parent = .assignment ∨ parent = .expression) ∧ '\r' ∈ value.toList then
      .node .quoted "" false [.node kind value isLength (quoteReturnsAll kind children)]
    else .node kind value isLength (quoteReturnsAll kind children)

def quoteReturnsAll (parent : Kind) : List Token → List Token
  | [] => []
  | t :: ts => quoteReturns parent t :: quoteReturnsAll parent ts

end

theorem quoteReturnsAll_eq_map (parent : Kind) (ts : List Token) :
    quoteReturnsAll parent ts = ts.map (quoteReturns parent) := by
  induction ts with
  | nil => rfl
  | cons t ts ih => rw [quoteReturnsAll, ih, List.map_cons]

theorem quoteReturns_of_kind {t : Token} {parent : Kind} (h : t.kind ≠ .text) :
    t.quoteReturns parent =
      .node t.kind t.value t.isLength (t.children.map (quoteReturns t.kind)) := by
  obtain ⟨kind, value, isLength, children⟩ := t
  rw [quoteReturns, if_neg fun hc => h hc.1, quoteReturnsAll_eq_map]
  rfl

/-- A literal text whose last character is escaped when a comment follows it in a value: it is
special, or a blank of a text of blanks at the start. -/
def Shut (first : Bool) (text : List Char) : Prop :=
  (∃ c ∈ text.getLast?, isSpecial .value c = true) ∨
    (first = true ∧ ∀ c ∈ text, isBlank c = true)

/-- Rendering escapes the literal text as far as is needed where it stands: in a value, in quotes or
in an argument, but not before a comment; elsewhere only special characters. -/
@[mk_iff]
structure Legible (parent : Kind) (earlier : List Token) (t : Token) : Prop where
  top : t.kind = .text → parent = .main → ∀ c ∈ t.value.toList, isSpecial .value c = true
  reference : t.kind = .text → parent = .interpolation →
    ∀ c ∈ t.value.toList, isSpecial .expression c = true
  comment : t.kind = .comment → parent = .assignment →
    ∀ s before, earlier = s :: before → s.kind = .text → Shut before.isEmpty s.value.toList

def Readable (table : OperatorTable) : Placed := fun parent earlier t =>
  Arranged table parent earlier t ∧ Legible parent earlier t

section Readable

variable {table : OperatorTable} {parent : Kind} {earlier ts : List Token}

theorem EverywhereAll.arranged (h : EverywhereAll (Readable table) parent earlier ts) :
    EverywhereAll (Arranged table) parent earlier ts := h.imp fun _ _ _ ht => ht.1

theorem Everywhere.shaped {t : Token} (h : t.Everywhere (Readable table)) : t.Shaped table :=
  Everywhere.and (fun _ _ _ ht _ => ht.1) h h

theorem EverywhereAll.head {p : Placed} (h : EverywhereAll p parent earlier ts) :
    ∀ t ∈ ts.head?, p parent earlier t := by
  intro t ht
  obtain ⟨us, rfl⟩ := List.head?_eq_some_iff.mp ht
  exact h.1

end Readable

end Token

namespace Render

open Token

def placeIn : Kind → Place
  | .assignment => .value
  | .quoted => .quoted
  | _ => .expression

def Closes : Kind → List Char → Prop
  | .assignment, rest => Starts isLineBreak rest
  | .quoted, rest => Starts isQuotedSpecial rest
  | _, rest => Starts (!isArgumentChar ·) rest

/-- A token of a block, with `last` if it is the last one, may be read before this text. -/
def Ends (parent : Kind) (first last : Bool) (t : Token) (rest : List Char) : Prop :=
  (t.kind = .comment → Starts isLineBreak rest) ∧
  (t.kind = .text → match parent with
    | .assignment => ∀ c, (valueMarks first last t.value.toList).getLast? = some (false, c) →
      Starts isValueSpecial rest ∧ (last = false → rest ≠ [] ∧ Starts (!isLineBreak ·) rest)
    | .quoted => Starts isQuotedSpecial rest
    | _ => Starts (!isArgumentChar ·) rest)

variable {table : OperatorTable} {blocks : Blocks} {rest : List Char}

/-- What is read between quotes becomes a token. -/
theorem reads_openQuote (hb : blocks.innermost = .assignment ∨ blocks.innermost = .expression) :
    Reads table blocks ('"' :: rest) (blocks.enter { kind := .quoted, value := "" }) rest :=
  Reads.of_scan' (fun _ => starts_cons.mpr rfl) (scan_quoteStart hb _) rfl

theorem reads_quoted {body : List Char} {ts : List Token}
    (hb : blocks.innermost = .assignment ∨ blocks.innermost = .expression)
    (h : Reads table (blocks.enter { kind := .quoted, value := "" }) (body ++ '"' :: rest)
      ((blocks.enter { kind := .quoted, value := "" }).pushAll ts) ('"' :: rest)) :
    Reads table blocks ('"' :: body ++ '"' :: rest) (blocks.push (.node .quoted "" false ts))
      rest := by
  have hclose : Reads table ((blocks.enter { kind := .quoted, value := "" }).pushAll ts)
      ('"' :: rest) (blocks.push (.node .quoted "" false ts)) rest := by
    rw [Blocks.pushAll_enter]
    refine Reads.of_scan' Kind.noConfusion (scan_quoteEnd _) (Prod.ext ?_ rfl)
    have hkind : Kind.quoted ≠ .main := Kind.noConfusion
    apply (Blocks.closeNearest_of_innermost hkind (Blocks.innermost_enter ..)).trans
    rw [Blocks.close_enter, Frame.token, List.append_nil, List.reverse_reverse]
  exact (reads_openQuote hb).trans (h.trans hclose)

theorem reads_quoteChars {text : List Char} (ht : text ≠ [])
    (hb : blocks.innermost = .assignment ∨ blocks.innermost = .expression) :
    Reads table blocks (quoteChars text ++ rest)
      (blocks.push (.node .quoted "" false [.leaf .text (.ofList text)])) rest := by
  have h : Reads table (blocks.enter { kind := .quoted, value := "" })
      (escape .quoted text ++ '"' :: rest)
      ((blocks.enter { kind := .quoted, value := "" }).pushChars text) ('"' :: rest) :=
    reads_quotedText rfl (starts_cons.mpr rfl)
  rw [Blocks.pushChars_eq_push _ ht fun t hn => by cases hn] at h
  have hq : Reads table blocks ('"' :: escape .quoted text ++ '"' :: rest)
      (blocks.push (.node .quoted "" false [.leaf .text (.ofList text)])) rest :=
    reads_quoted hb h
  simpa [quoteChars] using hq

theorem literal_of_mem {place : Place} {first last : Bool} {text : List Char}
    (hp : place ≠ .quoted) (h : '\r' ∈ text) : literal place first last text = quoteChars text := by
  have hany : text.any isLineBreak = true := List.any_eq_true.mpr ⟨'\r', h, rfl⟩
  unfold literal
  rw [if_pos (Bool.and_eq_true_iff.mpr ⟨bne_iff_ne.mpr hp, hany⟩)]

theorem literal_value {first last : Bool} {text : List Char}
    (h : ∀ c ∈ text, isLineBreak c = false) :
    literal .value first last text = valueText first last text := by
  have hany : text.any isLineBreak = false := by simpa using h
  unfold literal
  rw [hany, Bool.and_false, if_neg Bool.false_ne_true]

theorem literal_expression {first last : Bool} {text : List Char}
    (h : ∀ c ∈ text, isLineBreak c = false) :
    literal .expression first last text = escape .expression text := by
  have hany : text.any isLineBreak = false := by simpa using h
  unfold literal
  rw [hany, Bool.and_false, if_neg Bool.false_ne_true]

theorem not_isLineBreak {text : List Char} (hn : '\n' ∉ text) (hr : '\r' ∉ text) :
    ∀ c ∈ text, isLineBreak c = false := by
  intro c hc
  by_contra hb
  rcases eq_of_isLineBreak (eq_true_of_ne_false hb) with rfl | rfl
  · exact hn hc
  · exact hr hc

/-- Literal text is read as the token, or in quotes if it has carriage returns. -/
theorem reads_literal {parent : Kind} {value : String} {first last : Bool}
    (hp : parent = .assignment ∨ parent = .expression ∨ parent = .quoted)
    (hb : blocks.innermost = parent) (hw : Wording parent .text value.toList)
    (hcur : ∀ t ∈ blocks.current.head?, t.kind ≠ .text)
    (he : Ends parent first last (.leaf .text value) rest) :
    Reads table blocks (literal (placeIn parent) first last value.toList ++ rest)
      (blocks.push ((Token.leaf .text value).quoteReturns parent)) rest := by
  have htext := Blocks.pushChars_eq_push blocks hw.1 hcur
  rw [String.ofList_toList] at htext
  by_cases hq : (parent = .assignment ∨ parent = .expression) ∧ '\r' ∈ value.toList
  · have hplace : placeIn parent ≠ .quoted := by
      rcases hq.1 with rfl | rfl <;> exact Place.noConfusion
    have hr : Reads table blocks _ _ rest := reads_quoteChars hw.1 (hb ▸ hq.1)
    rw [literal_of_mem hplace hq.2, Token.leaf, Token.quoteReturns, if_pos ⟨rfl, hq⟩]
    rwa [String.ofList_toList] at hr
  · rw [Token.leaf, Token.quoteReturns, if_neg fun h => hq h.2]
    show Reads table blocks _ (blocks.push (.leaf .text value)) rest
    rw [← htext]
    have hends := he.2 rfl
    rcases hp with rfl | rfl | rfl
    · have hn := not_isLineBreak (hw.2 Kind.noConfusion) fun hr => hq ⟨Or.inl rfl, hr⟩
      rw [placeIn, literal_value hn]
      exact reads_valueText hb hn hends
    · have hn := not_isLineBreak (hw.2 Kind.noConfusion) fun hr => hq ⟨Or.inr rfl, hr⟩
      show Reads table blocks (literal .expression first last _ ++ rest) _ rest
      rw [literal_expression hn]
      exact reads_expressionText hb (hw.2 Kind.noConfusion) hends
    · exact reads_quotedText hb hends

theorem children_of_contents {t : Token} (h : t.Shaped table)
    (hk : t.kind.contents = []) : t.children = [] := by
  obtain ⟨kind, value, isLength, _ | ⟨u, us⟩⟩ := t
  · rfl
  · have hm := h.1.mem
    change u.kind ∈ kind.contents at hm
    rw [show kind.contents = [] from hk] at hm
    cases hm

/-- A token of a kind without contents is a leaf. -/
theorem eq_leaf {parent : Kind} {earlier : List Token} {t : Token}
    (ha : Arranged table parent earlier t) (h : t.Shaped table)
    (hk : t.kind.contents = []) : t = .leaf t.kind t.value := by
  have hc := children_of_contents h hk
  have hl : t.isLength = false := by
    by_contra hl
    rw [ha.mark (eq_true_of_ne_false hl)] at hk
    cases hk
  obtain ⟨kind, value, isLength, children⟩ := t
  subst hc hl
  rfl

/-- Before a comment the last character is escaped. -/
theorem not_last_of_shut {first : Bool} {text : List Char} (h : Shut first text) (c : Char) :
    (valueMarks first false text).getLast? ≠ some (false, c) := by
  intro hl
  have hlast : text.getLast? = some c := by
    rw [← chars_valueMarks first false text, chars, List.getLast?_map, hl]
    rfl
  have hm := List.mem_of_getLast? hl
  rcases h with ⟨d, hd, hs⟩ | ⟨rfl, hb⟩
  · rw [hlast] at hd
    cases hd
    rcases mem_valueMarks hm with hblank | hn
    · rw [not_isSpecial_of_isBlank hblank] at hs
      cases hs
    · rw [hs] at hn
      cases hn
  · have ht : trim isBlank text = [] := by
      have hd : text.dropWhile isBlank = [] := List.dropWhile_eq_nil_iff.mpr hb
      rw [trim, hd]
      rfl
    rw [valueMarks, if_pos ht] at hm
    cases (mem_markAll hm).2

/-- How a token below the top level starts. -/
theorem token_quoted {t : Token} (place : Place) (first last : Bool) (h : t.kind = .quoted) :
    token place first last t = '"' :: tokens .quoted true true t.children ++ ['"'] := by
  obtain ⟨kind, value, isLength, children⟩ := t
  obtain rfl : kind = .quoted := h
  rfl

theorem token_interpolation {t : Token} (place : Place) (first last : Bool)
    (h : t.kind = .interpolation) :
    token place first last t = '$' :: '\x7b' :: ((if t.isLength then ['#'] else []) ++
      t.value.toList ++ (tokens .expression false false t.children ++ ['\x7d'])) := by
  obtain ⟨kind, value, isLength, children⟩ := t
  obtain rfl : kind = .interpolation := h
  rw [token]
  simp only [List.append_assoc]
  rfl

theorem token_interpolation_append (place : Place) (first last : Bool) (value : String)
    (isLength : Bool) (children : List Token) (rest : List Char) :
    token place first last (.node .interpolation value isLength children) ++ rest =
      '$' :: '\x7b' :: ((if isLength then ['#'] else []) ++ value.toList ++
        (tokens .expression false false children ++ '\x7d' :: rest)) := by
  rw [token_interpolation _ _ _ rfl]
  simp only [List.cons_append, List.append_assoc, List.nil_append]
  rfl

theorem token_comment {t : Token} (place : Place) (first last : Bool) (h : t.kind = .comment) :
    token place first last t = '#' :: ' ' :: t.value.toList := by
  obtain ⟨kind, value, isLength, children⟩ := t
  obtain rfl : kind = .comment := h
  rw [token]
  simp [Token.value]

theorem token_expression {t : Token} (place : Place) (first last : Bool)
    (h : t.kind = .expression) :
    token place first last t = t.value.toList ++ tokens .expression true true t.children := by
  obtain ⟨kind, value, isLength, children⟩ := t
  obtain rfl : kind = .expression := h
  rfl

theorem token_text {t : Token} (place : Place) (first last : Bool) (h : t.kind = .text) :
    token place first last t = literal place first last t.value.toList := by
  obtain ⟨kind, value, isLength, children⟩ := t
  obtain rfl : kind = .text := h
  rfl

section Siblings

variable {parent : Kind} {earlier ts : List Token} {t : Token}

/-- Quotes and references start with characters that no literal text has without an escape. -/
theorem token_nested {u : Token} (hk : u.kind = .quoted ∨ u.kind = .interpolation) (place : Place)
    (first last : Bool) : ∃ c cs, token place first last u = c :: cs ∧ (c = '"' ∨ c = '$') := by
  rcases hk with hk | hk
  · rw [token_quoted _ _ _ hk]
    exact ⟨_, _, rfl, Or.inl rfl⟩
  · rw [token_interpolation _ _ _ hk]
    exact ⟨_, _, rfl, Or.inr rfl⟩

/-- What stands behind a token lets it end: the next sibling, or what closes the block. -/
theorem ends_of_next (hp : parent = .assignment ∨ parent = .expression ∨ parent = .quoted)
    (ht : Arranged table parent earlier t)
    (hu : ∀ u ∈ ts.head?, Readable table parent (t :: earlier) u) (hc : Closes parent rest) :
    Ends parent earlier.isEmpty ts.isEmpty t
      (tokens (placeIn parent) true false ts ++ rest) := by
  rcases ts with _ | ⟨u, us⟩
  · constructor
    · intro hk
      have hm := ht.mem
      rw [hk] at hm
      rcases hp with rfl | rfl | rfl
      · exact hc
      · exact absurd hm (by decide)
      · exact absurd hm (by decide)
    · intro hk
      rcases hp with rfl | rfl | rfl
      · intro c _
        exact ⟨hc.imp fun d hd => by simp [isValueSpecial, hd], fun hf => nomatch hf⟩
      · exact hc
      · exact hc
  · have hu := hu u rfl
    constructor
    · intro hk
      have hm := ht.mem
      rw [hk] at hm
      rcases hp with rfl | rfl | rfl
      · exact absurd hk (hu.1.last rfl t rfl)
      · exact absurd hm (by decide)
      · exact absurd hm (by decide)
    · intro hk
      have hm := hu.1.mem
      have hapart : u.kind ≠ .text := fun hk' => hu.1.apart t rfl ⟨hk, hk'⟩
      have hnested : u.kind ≠ .comment → u.kind = .quoted ∨ u.kind = .interpolation := by
        intro hcomment
        rcases hp with rfl | rfl | rfl <;>
          simp only [Kind.contents, List.mem_cons, List.not_mem_nil, or_false] at hm <;> tauto
      rw [tokens, List.append_assoc]
      rcases hp with rfl | rfl | rfl
      · intro c hl
        have hcomment : u.kind ≠ .comment := fun hk' =>
          not_last_of_shut (hu.2.comment hk' rfl t earlier rfl hk) c hl
        obtain ⟨d, cs, he, hd⟩ := token_nested (hnested hcomment) (placeIn .assignment) false
          (true && us.isEmpty)
        rw [he]
        rcases hd with rfl | rfl <;>
          exact ⟨starts_cons.mpr rfl, fun _ => ⟨List.cons_ne_nil _ _, starts_cons.mpr rfl⟩⟩
      · have hcomment : u.kind ≠ .comment := fun hk' => by
          rw [hk'] at hm
          exact absurd hm (by decide)
        obtain ⟨d, cs, he, hd⟩ := token_nested (hnested hcomment) (placeIn .expression) false
          (true && us.isEmpty)
        rw [he]
        rcases hd with rfl | rfl <;> exact starts_cons.mpr rfl
      · have hcomment : u.kind ≠ .comment := fun hk' => by
          rw [hk'] at hm
          exact absurd hm (by decide)
        obtain ⟨d, cs, he, hd⟩ := token_nested (hnested hcomment) (placeIn .quoted) false
          (true && us.isEmpty)
        rw [he]
        rcases hd with rfl | rfl <;> exact starts_cons.mpr rfl

theorem symbols_map (earlier : List Token) :
    symbols (earlier.map (quoteReturns .interpolation)) = symbols earlier := by
  have hsame : ∀ t : Token, (t.quoteReturns .interpolation).kind = t.kind ∧
      (t.quoteReturns .interpolation).value = t.value := by
    rintro ⟨kind, value, isLength, children⟩
    rw [quoteReturns, if_neg (by simp)]
    exact ⟨rfl, rfl⟩
  unfold symbols
  rw [List.filter_map, List.map_map]
  simp only [Function.comp_def, hsame]

/-- An argument does not start with an operator character. -/
theorem starts_argument (h : ShapedAll table .expression ts) (hne : ts ≠ [])
    (rest : List Char) :
    Starts (!isOperatorChar ·) (tokens .expression true true ts ++ rest) := by
  rcases ts with _ | ⟨t, ts⟩
  · exact absurd rfl hne
  obtain ⟨ht, -, -⟩ := h
  have hm := ht.mem
  simp only [Kind.contents, List.mem_cons, List.not_mem_nil, or_false] at hm
  rw [tokens, List.append_assoc]
  rcases hm with hm | hm | hm
  · rw [token_text _ _ _ hm]
    have hw := ht.wording
    rw [hm] at hw
    by_cases hr : '\r' ∈ t.value.toList
    · rw [literal_of_mem Place.noConfusion hr]
      exact starts_cons.mpr rfl
    · rw [literal_expression (not_isLineBreak (hw.2 Kind.noConfusion) hr)]
      obtain ⟨c, cs, hv⟩ := List.exists_cons_of_ne_nil hw.1
      rw [hv, escape, List.flatMap_cons]
      split
      · exact starts_cons.mpr rfl
      · next hs =>
        apply starts_cons.mpr
        by_contra ho
        have ho : isOperatorChar c = true := by simpa using ho
        exact hs (of_isOperatorChar (p := isSpecial .expression) (by decide) ho)
  · rw [token_quoted _ _ _ hm]
    exact starts_cons.mpr rfl
  · rw [token_interpolation _ _ _ hm]
    exact starts_cons.mpr rfl

/-- What stands in a reference starts with a backslash, which only literal text does, an operator
character or the brace. -/
theorem starts_reference {p : Char → Bool} (hbrace : p '\x7d' = true)
    (hop : ∀ c, isOperatorChar c = true → p c = true)
    (h : EverywhereAll (Arranged table) .interpolation earlier ts)
    (hl : ∀ t ∈ ts.head?, t.kind = .text →
      p '\\' = true ∧ ∀ c ∈ t.value.toList, isSpecial .expression c = true) (rest : List Char) :
    Starts p (tokens .expression false false ts ++ '\x7d' :: rest) := by
  rcases ts with _ | ⟨t, ts⟩
  · exact starts_cons.mpr hbrace
  obtain ⟨ht, -, -⟩ := h
  have hm := ht.mem
  have hw := ht.wording
  simp only [Kind.contents, List.mem_cons, List.not_mem_nil, or_false] at hm
  rw [tokens, List.append_assoc]
  rcases hm with hm | hm
  · obtain ⟨hback, hs⟩ := hl t rfl hm
    rw [hm] at hw
    obtain ⟨c, cs, hv⟩ := List.exists_cons_of_ne_nil hw.1
    have hr : '\r' ∉ t.value.toList := fun hr => absurd (hs _ hr) (by decide)
    rw [token_text _ _ _ hm, literal_expression (not_isLineBreak (hw.2 Kind.noConfusion) hr), hv,
      escape, List.flatMap_cons, if_pos (hs c (by rw [hv]; exact List.mem_cons_self))]
    exact starts_cons.mpr hback
  · rw [hm] at hw
    obtain ⟨c, cs, hv⟩ := List.exists_cons_of_ne_nil hw.1
    rw [token_expression _ _ _ hm, hv]
    exact starts_cons.mpr (hop c (hw.2 c (by rw [hv]; exact List.mem_cons_self)))

/-- Behind its first token a reference has expressions only. -/
theorem starts_reference_of_cons {p : Char → Bool} (hbrace : p '\x7d' = true)
    (hop : ∀ c, isOperatorChar c = true → p c = true)
    (h : EverywhereAll (Arranged table) .interpolation (t :: earlier) ts) (rest : List Char) :
    Starts p (tokens .expression false false ts ++ '\x7d' :: rest) := by
  refine starts_reference hbrace hop h (fun u hu hk => ?_) rest
  rw [(h.head u hu).first rfl (List.cons_ne_nil _ _)] at hk
  cases hk

/-- There the argument of an expression ends. -/
theorem closes_expression (h : EverywhereAll (Arranged table) .interpolation (t :: earlier) ts)
    (rest : List Char) :
    Closes .expression (tokens .expression false false ts ++ '\x7d' :: rest) :=
  starts_reference_of_cons rfl
    (fun c => of_isOperatorChar (p := (!isArgumentChar ·)) (by decide)) h rest

/-- An operator character right behind a symbol begins the next expression. -/
theorem exists_next_of_operator {d : Char}
    (h : EverywhereAll (Arranged table) .interpolation earlier (t :: ts))
    (hk : t.kind = .expression)
    (hhead : (tokens .expression true true t.children ++
      (tokens .expression false false ts ++ '\x7d' :: rest)).head? = some d)
    (hd : isOperatorChar d = true) :
    t.children = [] ∧ ∃ u us, ts = u :: us ∧ u.kind = .expression ∧
      u.value.toList.head? = some d := by
  obtain ⟨-, hbelow, hts⟩ := h
  have hchildren : t.children = [] := by
    by_contra hne
    have hall : ShapedAll table .expression t.children := by
      obtain ⟨kind, value, isLength, children⟩ := t
      obtain rfl : kind = .expression := hk
      exact hbelow
    have hn :=
      starts_argument hall hne (tokens .expression false false ts ++ '\x7d' :: rest) d hhead
    simp [hd] at hn
  rw [hchildren] at hhead
  rcases ts with _ | ⟨u, us⟩
  · cases hhead
    exact absurd hd (by decide)
  · obtain ⟨hu, -, -⟩ := hts
    have huk := hu.first rfl (List.cons_ne_nil _ _)
    have huw := hu.wording
    rw [huk] at huw
    obtain ⟨e, es, hev⟩ := List.exists_cons_of_ne_nil huw.1
    rw [tokens.eq_1, List.nil_append, tokens, token_expression _ _ _ huk, hev] at hhead
    refine ⟨hchildren, u, us, rfl, huk, ?_⟩
    rw [hev]
    exact hhead

/-- A symbol is picked again where rendering puts it. -/
theorem pick_rendered {c : Char} {cs : List Char}
    (h : EverywhereAll (Arranged table) .interpolation earlier (t :: ts))
    (hk : t.kind = .expression)
    (hv : t.value.toList = c :: cs) (rest : List Char) :
    table.pick (symbols earlier) c ((cs ++ (tokens .expression true true t.children ++
      (tokens .expression false false ts ++ '\x7d' :: rest))).head?.filter isOperatorChar) =
        some t.value.toList := by
  have hw := h.1.wording
  rw [hk, hv] at hw
  obtain ⟨first, second, hpick⟩ := (h.1.cut hk).picked
  rw [hv] at hpick ⊢
  rcases OperatorTable.pick_cases hpick with he | ⟨d, rfl, he⟩
  · cases he
    rw [List.nil_append]
    cases hx : (tokens .expression true true t.children ++
        (tokens .expression false false ts ++ '\x7d' :: rest)).head?.filter isOperatorChar with
    | none => exact OperatorTable.pick_alone hpick
    | some d =>
      -- the character was there when the symbol was cut
      obtain ⟨hhead, hd⟩ := Option.filter_eq_some_iff.mp hx
      obtain ⟨hchildren, u, us, rfl, huk, hhead'⟩ := exists_next_of_operator h hk hhead hd
      have hview := ((h.2.2.1).cut huk).viewed t earlier rfl hk hchildren c hv
      rw [hhead'] at hview
      exact hview
  · cases he
    have hd : isOperatorChar d = true := hw.2 d (List.mem_cons_of_mem _ List.mem_cons_self)
    have hhead : (([d] ++ (tokens .expression true true t.children ++
        (tokens .expression false false ts ++ '\x7d' :: rest))).head?).filter isOperatorChar =
          some d := by
      rw [List.singleton_append, List.head?_cons, Option.filter_some, if_pos hd]
    rw [hhead]
    exact hpick

end Siblings

theorem head_quoteReturns {parent : Kind} {earlier : List Token}
    (h : ∀ t ∈ earlier.head?, t.kind ≠ .text) :
    ∀ u ∈ (earlier.map (quoteReturns parent)).head?, u.kind ≠ .text := by
  intro u hu
  rw [List.head?_map] at hu
  obtain ⟨t, ht, rfl⟩ := Option.map_eq_some_iff.mp hu
  rw [quoteReturns_of_kind (h t ht)]
  exact h t ht

/-- A reference is read if what stands in it is. -/
theorem reads_reference {value : String} {isLength : Bool} {children : List Token} {next : Blocks}
    (hb : blocks.innermost = .assignment ∨ blocks.innermost = .expression ∨
      blocks.innermost = .quoted)
    (hw : Wording .interpolation .interpolation value.toList)
    (hall : EverywhereAll (Readable table) .interpolation [] children)
    (hread : Reads table (blocks.enter { kind := .interpolation, value, isLength })
      (tokens .expression false false children ++ '\x7d' :: rest) next ('\x7d' :: rest))
    (hin : next.innermost = .interpolation ∨ next.innermost = .expression)
    (hnext : next.closeTo .interpolation =
      (blocks.enter { kind := .interpolation, value, isLength }).pushAll
        (children.map (quoteReturns .interpolation)))
    (place : Place) (first last : Bool) :
    Reads table blocks
      (token place first last (.node .interpolation value isLength children) ++ rest)
      (blocks.push (.node .interpolation value isLength
        (children.map (quoteReturns .interpolation)))) rest := by
  have hname : ∀ c, isOperatorChar c = true → (!isNameChar c) = true :=
    fun c => of_isOperatorChar (p := (!isNameChar ·)) (by decide)
  have hspace : ∀ c, isOperatorChar c = true → (!isSpace c) = true :=
    fun c => of_isOperatorChar (p := (!isSpace ·)) (by decide)
  have hstart : ∀ p : Char → Bool, p '\\' = true → p '\x7d' = true →
      (∀ c, isOperatorChar c = true → p c = true) →
      Starts p (tokens .expression false false children ++ '\x7d' :: rest) :=
    fun p hback hbrace hop => starts_reference hbrace hop hall.arranged
      (fun u hu hk => ⟨hback, (hall.head u hu).2.reference hk rfl⟩) rest
  have hopening :
      Reads table blocks _ (blocks.enter { kind := .interpolation, value, isLength }) _ :=
    (Passes.opening hb hw.1 hw.2 (hstart (!isNameChar ·) rfl rfl hname)).reads
  rw [dropWhile_of_starts (hstart (!isSpace ·) rfl rfl hspace)] at hopening
  -- the brace closes the last expression, too
  have hclose : Reads table next ('\x7d' :: rest) (blocks.push (.node .interpolation value isLength
      (children.map (quoteReturns .interpolation)))) rest := by
    refine Reads.of_scan' (fun _ => starts_cons.mpr rfl) (scan_interpolationEnd hin _)
      (Prod.ext ?_ rfl)
    show next.closeNearest .interpolation = _
    rw [Blocks.closeNearest_eq, hnext, Blocks.pushAll_enter, Blocks.close_enter, Frame.token,
      List.append_nil, List.reverse_reverse]
  rw [token_interpolation_append]
  exact hopening.trans (hread.trans hclose)

/-- Special characters that come first in a reference are read as text. -/
theorem reads_leading {value : String} (hcur : blocks.current = [])
    (hw : Wording .interpolation .text value.toList)
    (hs : ∀ c ∈ value.toList, isSpecial .expression c = true) (first last : Bool)
    (rest : List Char) : Reads table blocks (literal .expression first last value.toList ++ rest)
      (blocks.push (.leaf .text value)) rest := by
  have hbreak : ∀ c ∈ value.toList, isLineBreak c = false := not_isLineBreak
    (hw.2 Kind.noConfusion) fun hr => absurd (hs _ hr) (by decide)
  have hnone : ∀ u ∈ blocks.current.head?, u.kind ≠ .text := by
    rw [hcur]
    intro u hu
    exact nomatch hu
  have hpush := Blocks.pushChars_eq_push blocks hw.1 hnone
  rw [String.ofList_toList] at hpush
  rw [literal_expression hbreak, ← hpush]
  exact reads_specials hs

section Expression

variable {earlier ts : List Token} {t : Token}

/-- The symbol of an expression closes what was open in the reference and opens the expression. -/
theorem reads_operator (hin : blocks.innermost = .interpolation ∨ blocks.innermost = .expression)
    (hcur : (blocks.closeTo .interpolation).current = earlier.map (quoteReturns .interpolation))
    (h : EverywhereAll (Arranged table) .interpolation earlier (t :: ts))
    (hk : t.kind = .expression)
    (rest : List Char) :
    Reads table blocks (t.value.toList ++ (tokens .expression true true t.children ++
        (tokens .expression false false ts ++ '\x7d' :: rest)))
      ((blocks.closeTo .interpolation).enter { kind := .expression, value := t.value })
      (tokens .expression true true t.children ++
        (tokens .expression false false ts ++ '\x7d' :: rest)) := by
  have hw := h.1.wording
  rw [hk] at hw
  obtain ⟨c, cs, hv⟩ := List.exists_cons_of_ne_nil hw.1
  have hop : isOperatorChar c = true := hw.2 c (by rw [hv]; exact List.mem_cons_self)
  have hsymbols : (blocks.closeTo .interpolation).symbols = symbols earlier := by
    show symbols (blocks.closeTo .interpolation).current = _
    rw [hcur, symbols_map]
  have hpick := pick_rendered h hk hv rest
  rw [← hsymbols] at hpick
  have hsymbol := (Passes.symbol hin hv hop hpick).reads
  rwa [String.ofList_toList] at hsymbol

/-- The blocks behind an expression of a reference, which stays open for what comes next to close
it. -/
def behind (blocks : Blocks) (t : Token) : Blocks :=
  (blocks.closeTo .interpolation).enter
    { kind := .expression, value := t.value,
      children := (t.children.map (quoteReturns .expression)).reverse }

theorem closeTo_behind (hto : (blocks.closeTo .interpolation).innermost = .interpolation)
    (h : Arranged table .interpolation earlier t) (hk : t.kind = .expression) :
    (behind blocks t).closeTo .interpolation =
      (blocks.closeTo .interpolation).push (t.quoteReturns .interpolation) := by
  have hlength : t.isLength = false := h.isLength_eq_false (by rw [hk]; exact Kind.noConfusion)
  have hne : t.kind ≠ .text := by
    rw [hk]
    exact Kind.noConfusion
  rw [quoteReturns_of_kind hne, hlength, hk]
  apply (Blocks.closeTo_expression rfl hto).trans
  rw [Frame.token, List.reverse_reverse]

/-- An expression is read if its argument is. -/
theorem reads_expression (hin : blocks.innermost = .interpolation ∨ blocks.innermost = .expression)
    (hcur : (blocks.closeTo .interpolation).current = earlier.map (quoteReturns .interpolation))
    (h : EverywhereAll (Arranged table) .interpolation earlier (t :: ts))
    (hk : t.kind = .expression)
    (hbody : Reads table
      ((blocks.closeTo .interpolation).enter { kind := .expression, value := t.value })
      (tokens .expression true true t.children ++
        (tokens .expression false false ts ++ '\x7d' :: rest))
      (((blocks.closeTo .interpolation).enter { kind := .expression, value := t.value }).pushAll
        (t.children.map (quoteReturns .expression)))
      (tokens .expression false false ts ++ '\x7d' :: rest)) (first last : Bool) :
    Reads table blocks (token .expression first last t ++
      (tokens .expression false false ts ++ '\x7d' :: rest)) (behind blocks t)
      (tokens .expression false false ts ++ '\x7d' :: rest) := by
  rw [Blocks.pushAll_enter, List.append_nil] at hbody
  rw [token_expression _ _ _ hk, List.append_assoc]
  exact (reads_operator hin hcur h hk rest).trans hbody

end Expression

mutual

/-- A token is read in its block. -/
theorem reads_token : ∀ (t : Token) {parent : Kind} {earlier : List Token} {blocks : Blocks}
    {rest : List Char} {first last : Bool},
    parent = .assignment ∨ parent = .expression ∨ parent = .quoted →
    Readable table parent earlier t → t.Everywhere (Readable table) →
    blocks.innermost = parent → blocks.current = earlier.map (quoteReturns parent) →
    Ends parent first last t rest →
    Reads table blocks (token (placeIn parent) first last t ++ rest)
      (blocks.push (t.quoteReturns parent)) rest
  | .node kind value isLength children, parent, earlier, blocks, rest, first, last, hp, ht, hbelow,
      hb, hcur, he => by
    have hm := ht.1.mem
    have hw := ht.1.wording
    cases kind with
    | text =>
      have hleaf := eq_leaf ht.1 hbelow.shaped rfl
      have hhead : ∀ u ∈ blocks.current.head?, u.kind ≠ .text := by
        rw [hcur]
        exact head_quoteReturns fun u hu hk => ht.1.apart u hu ⟨hk, rfl⟩
      rw [hleaf, token_text _ _ _ rfl]
      exact reads_literal hp hb hw hhead (hleaf ▸ he)
    | quoted =>
      have hvalue : value = "" := String.toList_eq_nil_iff.mp hw
      have hlength : isLength = false := ht.1.isLength_eq_false Kind.noConfusion
      have hread : Reads table (blocks.enter { kind := .quoted, value := "" })
          (tokens .quoted true true children ++ '"' :: rest)
          ((blocks.enter { kind := .quoted, value := "" }).pushAll
            (children.map (quoteReturns .quoted))) ('"' :: rest) :=
        reads_tokens children (Or.inr (Or.inr rfl)) hbelow rfl rfl (starts_cons.mpr rfl)
      rw [token_quoted _ _ _ rfl, quoteReturns_of_kind Kind.noConfusion, List.append_assoc]
      subst hvalue hlength
      exact reads_quoted (hb ▸ Kind.parent_of_quoted hm) hread
    | interpolation =>
      have hto : (blocks.enter { kind := .interpolation, value, isLength }).closeTo .interpolation =
          blocks.enter { kind := .interpolation, value, isLength } :=
        Blocks.closeTo_of_innermost rfl
      -- only what comes next closes an expression, so that the children are read as a whole
      obtain ⟨next, hread, hin, hnext⟩ : ∃ next, Reads table
          (blocks.enter { kind := .interpolation, value, isLength })
          (tokens .expression false false children ++ '\x7d' :: rest) next ('\x7d' :: rest) ∧ _ :=
        reads_children children hbelow (Or.inl rfl) (fun _ => rfl) (by rw [hto]; rfl)
          (by rw [hto]; rfl)
      rw [hto] at hnext
      rw [quoteReturns_of_kind Kind.noConfusion]
      exact reads_reference (hb ▸ hp) hw hbelow hread hin hnext _ _ _
    | comment =>
      have ha : parent = .assignment := (Kind.parent_of_comment hm).resolve_left fun hmain => by
        rw [hmain] at hp
        rcases hp with hp | hp | hp <;> cases hp
      subst ha
      have hscan : scan blocks.innermost ('#' :: ' ' :: (value.toList ++ rest)) =
          some (.leaf .comment value.toList, rest) := by
        rw [hb]
        exact scan_comment hw.1 (he.1 rfl)
      have hr : Reads table blocks ('#' :: ' ' :: (value.toList ++ rest))
          (blocks.push (.leaf .comment (.ofList value.toList))) rest :=
        Reads.of_scan' (fun _ => starts_cons.mpr rfl) hscan rfl
      rw [String.ofList_toList] at hr
      rw [eq_leaf ht.1 hbelow.shaped rfl, token_comment _ _ _ rfl,
        quoteReturns_of_kind Kind.noConfusion]
      exact hr
    | main | assignment | expression | includeFlag | preserveFlag =>
      rcases hp with rfl | rfl | rfl <;>
        exact absurd hm (by simp [Kind.contents, Token.kind])

/-- So are siblings. -/
theorem reads_tokens : ∀ (ts : List Token) {parent : Kind} {earlier : List Token} {blocks : Blocks}
    {rest : List Char},
    parent = .assignment ∨ parent = .expression ∨ parent = .quoted →
    EverywhereAll (Readable table) parent earlier ts →
    blocks.innermost = parent → blocks.current = earlier.map (quoteReturns parent) →
    Closes parent rest →
    Reads table blocks (tokens (placeIn parent) true earlier.isEmpty ts ++ rest)
      (blocks.pushAll (ts.map (quoteReturns parent))) rest
  | [], _, _, _, _, _, _, _, _, _ => Reads.refl
  | t :: ts, parent, earlier, blocks, rest, hp, h, hb, hcur, hc => by
    obtain ⟨ht, hbelow, hts⟩ := h
    have hends := ends_of_next hp ht.1 hts.head hc
    have hhead := reads_token t hp ht hbelow hb hcur hends
    have hb' : (blocks.push (t.quoteReturns parent)).innermost = parent :=
      (Blocks.innermost_push ..).trans hb
    have hcur' : (blocks.push (t.quoteReturns parent)).current =
        (t :: earlier).map (quoteReturns parent) := by
      rw [Blocks.current_push, hcur, List.map_cons]
    have htail := reads_tokens ts hp hts hb' hcur' hc
    rw [tokens, List.append_assoc, List.map_cons, Blocks.pushAll_cons, Bool.true_and]
    exact hhead.trans htail

/-- What stands in a reference is read into the reference, whose last expression stays open. -/
theorem reads_children : ∀ (ts : List Token) {earlier : List Token} {blocks : Blocks}
    {rest : List Char},
    EverywhereAll (Readable table) .interpolation earlier ts →
    blocks.innermost = .interpolation ∨ blocks.innermost = .expression →
    (earlier = [] → blocks.innermost = .interpolation) →
    (blocks.closeTo .interpolation).innermost = .interpolation →
    (blocks.closeTo .interpolation).current = earlier.map (quoteReturns .interpolation) →
    ∃ next, Reads table blocks (tokens .expression false false ts ++ '\x7d' :: rest) next
        ('\x7d' :: rest) ∧
      (next.innermost = .interpolation ∨ next.innermost = .expression) ∧
      next.closeTo .interpolation =
        (blocks.closeTo .interpolation).pushAll (ts.map (quoteReturns .interpolation))
  | [], _, blocks, _, _, hin, _, _, _ => ⟨blocks, Reads.refl, hin, rfl⟩
  | .node kind value isLength children :: ts, earlier, blocks, rest, h, hin, hfirst, hto, hcur => by
    obtain ⟨ht, hbelow, hts⟩ := h
    have hm := ht.1.mem
    -- after the first token the reference goes on with `ts`
    have hrec : ∀ next : Blocks, next.innermost = .interpolation ∨ next.innermost = .expression →
        next.closeTo .interpolation = (blocks.closeTo .interpolation).push
          ((node kind value isLength children).quoteReturns .interpolation) →
        ∃ last, Reads table next (tokens .expression false false ts ++ '\x7d' :: rest) last
            ('\x7d' :: rest) ∧
          (last.innermost = .interpolation ∨ last.innermost = .expression) ∧
          last.closeTo .interpolation =
            (next.closeTo .interpolation).pushAll (ts.map (quoteReturns .interpolation)) := by
      intro next hopen hclosed
      refine reads_children ts hts hopen (fun he => nomatch he) ?_ ?_
      · rw [hclosed, Blocks.innermost_push, hto]
      · rw [hclosed, Blocks.current_push, hcur, List.map_cons]
    have hhead : ∃ next, Reads table blocks (token .expression false (false && ts.isEmpty)
            (node kind value isLength children) ++
              (tokens .expression false false ts ++ '\x7d' :: rest))
          next (tokens .expression false false ts ++ '\x7d' :: rest) ∧
        (next.innermost = .interpolation ∨ next.innermost = .expression) ∧
        next.closeTo .interpolation = (blocks.closeTo .interpolation).push
          ((node kind value isLength children).quoteReturns .interpolation) := by
      cases kind with
      | text =>
        -- literal text comes first, before any expression
        obtain rfl : earlier = [] := by
          by_contra hne
          cases ht.1.first rfl hne
        have hi := hfirst rfl
        have hi' : (blocks.push (.leaf .text value)).innermost = .interpolation :=
          (Blocks.innermost_push ..).trans hi
        rw [Blocks.closeTo_of_innermost hi] at hcur ⊢
        have hleaf := eq_leaf ht.1 hbelow.shaped rfl
        rw [hleaf, token_text _ _ _ rfl]
        exact ⟨_, reads_leading hcur ht.1.wording (ht.2.reference rfl rfl) _ _ _, Or.inl hi',
          Blocks.closeTo_of_innermost hi'⟩
      | expression =>
        have hbody := reads_tokens children (Or.inr (Or.inl rfl)) hbelow
          (Blocks.innermost_enter (blocks.closeTo .interpolation) { kind := .expression, value })
          rfl (closes_expression hts.arranged rest)
        exact ⟨_, reads_expression hin hcur (EverywhereAll.arranged ⟨ht, hbelow, hts⟩) rfl hbody _
          _, Or.inr rfl, closeTo_behind hto ht.1 rfl⟩
      | _ => exact absurd hm (by simp [Kind.contents, Token.kind])
    obtain ⟨next, hread, hopen, hclosed⟩ := hhead
    obtain ⟨last, hread', hopen', hclosed'⟩ := hrec next hopen hclosed
    refine ⟨last, ?_, hopen', ?_⟩
    · rw [tokens, List.append_assoc]
      exact hread.trans hread'
    · rw [hclosed', hclosed, List.map_cons, Blocks.pushAll_cons]

end

section Lines

variable {earlier ts : List Token} {t : Token} {top : List Token}

/-- A value does not start with a blank. -/
theorem starts_value (h : ShapedAll table .assignment ts) (rest : List Char) :
    Starts (!isBlank ·) (tokens .value true true ts ++ '\n' :: rest) := by
  rcases ts with _ | ⟨t, ts⟩
  · exact starts_cons.mpr rfl
  obtain ⟨ht, -, -⟩ := h
  have hm := ht.mem
  have hw := ht.wording
  simp only [Kind.contents, List.mem_cons, List.not_mem_nil, or_false] at hm
  rw [tokens, List.append_assoc]
  rcases hm with hm | hm | hm | hm
  · rw [hm] at hw
    rw [token_text _ _ _ hm]
    by_cases hr : '\r' ∈ t.value.toList
    · rw [literal_of_mem Place.noConfusion hr]
      exact starts_cons.mpr rfl
    · rw [literal_value (not_isLineBreak (hw.2 Kind.noConfusion) hr), ← spell_valueMarks]
      cases hv : valueMarks true (true && ts.isEmpty) t.value.toList with
      | nil =>
        have hc := chars_valueMarks true (true && ts.isEmpty) t.value.toList
        rw [hv] at hc
        exact absurd hc.symm hw.1
      | cons mark marked =>
        obtain ⟨_ | _, c⟩ := mark
        · have hb := not_isBlank_of_first (congrArg List.head? hv)
          exact starts_cons.mpr (by rw [hb]; rfl)
        · exact starts_cons.mpr rfl
  · rw [token_quoted _ _ _ hm]
    exact starts_cons.mpr rfl
  · rw [token_interpolation _ _ _ hm]
    exact starts_cons.mpr rfl
  · rw [token_comment _ _ _ hm]
    exact starts_cons.mpr rfl

/-- A line feed at top level is skipped with the white space behind it. -/
theorem reads_lineFeed : Reads table ⟨[], top⟩ ('\n' :: rest) ⟨[], top⟩
    (rest.dropWhile isWhitespace) :=
  Reads.of_scan' (fun hm => by cases hm) (scan_whitespace (Or.inl rfl) rfl rest) rfl

/-- A leaf at top level is read with its line. -/
theorem reads_leaf {kind : Kind} {value : String} {text : List Char}
    (hs : scan .main (text ++ '\n' :: rest) = some (.leaf kind value.toList, '\n' :: rest)) :
    Reads table ⟨[], top⟩ (text ++ '\n' :: rest) ⟨[], .leaf kind value :: top⟩
      (rest.dropWhile isWhitespace) := by
  have hr : Reads table ⟨[], top⟩ (text ++ '\n' :: rest)
      ⟨[], .leaf kind (.ofList value.toList) :: top⟩ ('\n' :: rest) :=
    Reads.of_scan' (fun hm => by cases hm) hs rfl
  rw [String.ofList_toList] at hr
  exact hr.trans reads_lineFeed

theorem line_assignment (value : String) (children : List Token) (rest : List Char) :
    line (.node .assignment value false children) ++ rest =
      value.toList ++ '=' :: (tokens .value true true children ++ '\n' :: rest) := by
  show value.toList ++ '=' :: tokens .value true true children ++ ['\n'] ++ rest = _
  simp only [List.append_assoc, List.cons_append, List.nil_append]

/-- A line of an assignment opens it, and nothing of the value is skipped. -/
theorem scan_line {value : String} {children : List Token}
    (hw : Wording .main .assignment value.toList) (h : ShapedAll table .assignment children)
    (rest : List Char) :
    scan .main (value.toList ++ '=' :: (tokens .value true true children ++ '\n' :: rest)) =
      some (.openAssignment value.toList, tokens .value true true children ++ '\n' :: rest) := by
  have hscan := scan_assignment hw.1 hw.2 (tokens .value true true children ++ '\n' :: rest)
  rwa [dropWhile_of_starts (starts_value h rest)] at hscan

theorem reads_assignment {value : String} {children : List Token}
    (hw : Wording .main .assignment value.toList)
    (hall : EverywhereAll (Readable table) .assignment [] children) :
    Reads table ⟨[], top⟩
      (value.toList ++ '=' :: (tokens .value true true children ++ '\n' :: rest))
      ⟨[], .node .assignment value false (children.map (quoteReturns .assignment)) :: top⟩
      (rest.dropWhile isWhitespace) := by
  intro limit source idle hl
  have hstep : Blocks.step table ⟨[], top⟩
      (value.toList ++ '=' :: (tokens .value true true children ++ '\n' :: rest)) =
        some (⟨[{ kind := .assignment, value }], top⟩,
          tokens .value true true children ++ '\n' :: rest) := by
    rw [Blocks.step]
    show (scan .main _).map _ = _
    rw [scan_line hw hall.arranged]
    simp only [Option.map_some, Blocks.apply, String.ofList_toList, List.drop_zero]
    rfl
  have hbody : Reads table ⟨[{ kind := .assignment, value }], top⟩
      (tokens .value true true children ++ '\n' :: rest)
      (Blocks.pushAll ⟨[{ kind := .assignment, value }], top⟩
        (children.map (quoteReturns .assignment))) ('\n' :: rest) :=
    reads_tokens children (Or.inl rfl) hall rfl rfl (starts_cons.mpr rfl)
  -- the step into the value was progress, and the line feed is one step without any
  obtain ⟨after, hle, hrun⟩ := hbody limit source 0 hl
  obtain rfl : after = 0 := Nat.le_zero.mp hle
  have henter : Blocks.pushAll ⟨[{ kind := .assignment, value }], top⟩
      (children.map (quoteReturns .assignment)) =
        ⟨[{ kind := .assignment, value,
            children := (children.map (quoteReturns .assignment)).reverse }], top⟩ := by
    have he := Blocks.pushAll_enter ⟨[], top⟩ { kind := .assignment, value }
      (children.map (quoteReturns .assignment))
    rwa [List.append_nil] at he
  refine ⟨0, Nat.zero_le _, ?_⟩
  rw [run_of_step (fun hm => by cases hm) hstep, hrun, henter, run_lineBreak hl rfl rfl,
    Frame.token, List.reverse_reverse]

/-- Special characters alone are escaped wherever they stand. -/
theorem line_text {value : String} (h : ∀ c ∈ value.toList, isSpecial .value c = true) :
    line (.leaf .text value) = escape .value value.toList ++ ['\n'] := by
  have hbreak : ∀ c ∈ value.toList, isLineBreak c = false := by
    intro c hc
    by_contra hb
    have hs := h c hc
    rcases eq_of_isLineBreak (eq_true_of_ne_false hb) with rfl | rfl <;> exact absurd hs (by decide)
  show literal .value false false value.toList ++ ['\n'] = _
  rw [literal_value hbreak, valueText_inner]

/-- A top-level token is read with its line. -/
theorem reads_line (ht : Readable table .main earlier t) (hbelow : t.Everywhere (Readable table))
    (hcur : top = earlier.map (quoteReturns .main)) (rest : List Char) :
    Reads table ⟨[], top⟩ (line t ++ rest) ⟨[], t.quoteReturns .main :: top⟩
      (rest.dropWhile isWhitespace) := by
  obtain ⟨kind, value, isLength, children⟩ := t
  have hm := ht.1.mem
  have hw := ht.1.wording
  cases kind with
  | includeFlag =>
    rw [eq_leaf ht.1 hbelow.shaped rfl, quoteReturns_of_kind Kind.noConfusion]
    have hs : scan .main ("#/include \"".toList ++ value.toList ++ ['"'] ++ '\n' :: rest) =
        some (.leaf .includeFlag value.toList, '\n' :: rest) := by
      rw [List.append_assoc]
      exact scan_includeFlag hw.1 hw.2 _
    have hr : Reads table ⟨[], top⟩ _ ⟨[], .leaf .includeFlag value :: top⟩
        (rest.dropWhile isWhitespace) := reads_leaf hs
    rw [line, List.append_assoc]
    exact hr
  | preserveFlag =>
    have hvalue : value = "" := String.toList_eq_nil_iff.mp hw
    subst hvalue
    rw [eq_leaf ht.1 hbelow.shaped rfl, quoteReturns_of_kind Kind.noConfusion]
    have hs : scan .main ("#/preserve".toList ++ '\n' :: rest) =
        some (.leaf .preserveFlag "".toList, '\n' :: rest) :=
      scan_preserveFlag (starts_cons.mpr rfl)
    have hr : Reads table ⟨[], top⟩ _ ⟨[], .leaf .preserveFlag "" :: top⟩
        (rest.dropWhile isWhitespace) := reads_leaf hs
    rw [line, List.append_assoc]
    exact hr
  | comment =>
    rw [eq_leaf ht.1 hbelow.shaped rfl, quoteReturns_of_kind Kind.noConfusion]
    have hs : scan .main ("# ".toList ++ value.toList ++ '\n' :: rest) =
        some (.leaf .comment value.toList, '\n' :: rest) :=
      scan_topComment hw.1 (hw.2 rfl) (starts_cons.mpr rfl)
    have hr : Reads table ⟨[], top⟩ _ ⟨[], .leaf .comment value :: top⟩
        (rest.dropWhile isWhitespace) := reads_leaf hs
    rw [line, List.append_assoc]
    exact hr
  | assignment =>
    have hlength : isLength = false := ht.1.isLength_eq_false Kind.noConfusion
    subst hlength
    rw [quoteReturns_of_kind Kind.noConfusion, line_assignment]
    exact reads_assignment hw hbelow
  | text =>
    have hleaf := eq_leaf ht.1 hbelow.shaped rfl
    have hspecial : ∀ c ∈ value.toList, isSpecial .value c = true := ht.2.top rfl rfl
    have hhead : ∀ u ∈ top.head?, u.kind ≠ .text := by
      rw [hcur]
      exact head_quoteReturns fun u hu hk => ht.1.apart u hu ⟨hk, rfl⟩
    have hread : Reads table ⟨[], top⟩ (escape .value value.toList ++ '\n' :: rest)
        (Blocks.pushChars ⟨[], top⟩ value.toList) ('\n' :: rest) := reads_specials hspecial
    have hpush : Blocks.pushChars ⟨[], top⟩ value.toList = ⟨[], .leaf .text value :: top⟩ := by
      have he := Blocks.pushChars_eq_push ⟨[], top⟩ hw.1 hhead
      change _ = Blocks.push _ (.leaf .text (.ofList value.toList)) at he
      rwa [String.ofList_toList] at he
    rw [hpush] at hread
    have hr : Reads table ⟨[], top⟩ (line (.leaf .text value) ++ rest)
        ⟨[], .leaf .text value :: top⟩ (rest.dropWhile isWhitespace) := by
      rw [line_text hspecial, List.append_assoc]
      exact hread.trans reads_lineFeed
    rw [hleaf]
    exact hr
  | _ => exact absurd hm (by simp [Kind.contents, Token.kind])

/-- A line starts with a number sign, a name or a backslash, which only literal text does. -/
theorem starts_lines {p : Char → Bool} (hsharp : p '#' = true)
    (hname : ∀ c, isNameChar c = true → p c = true)
    (h : EverywhereAll (Arranged table) .main earlier ts)
    (hl : ∀ t ∈ ts.head?, t.kind = .text →
      p '\\' = true ∧ ∀ c ∈ t.value.toList, isSpecial .value c = true) :
    Starts p (lines ts) := by
  rcases ts with _ | ⟨⟨kind, value, isLength, children⟩, ts⟩
  · exact Starts.nil
  obtain ⟨ht, hbelow, -⟩ := h
  have hm := ht.mem
  have hw := ht.wording
  rw [lines, List.flatMap_cons]
  cases kind with
  | includeFlag => exact starts_cons.mpr hsharp
  | preserveFlag => exact starts_cons.mpr hsharp
  | comment => exact starts_cons.mpr hsharp
  | assignment =>
    obtain ⟨c, cs, hv⟩ := List.exists_cons_of_ne_nil hw.1
    have hc : isNameChar c = true := hw.2 c (by rw [hv]; exact List.mem_cons_self)
    show Starts _ (value.toList ++ '=' :: tokens .value true true children ++ ['\n'] ++ _)
    rw [show value.toList = c :: cs from hv]
    exact starts_cons.mpr (hname c hc)
  | text =>
    obtain ⟨hback, hspecial⟩ := hl _ rfl rfl
    have hspecial : ∀ c ∈ value.toList, isSpecial .value c = true := hspecial
    obtain ⟨c, cs, hv⟩ := List.exists_cons_of_ne_nil hw.1
    have hc : isSpecial .value c = true := hspecial c (by
      rw [show value.toList = c :: cs from hv]
      exact List.mem_cons_self)
    rw [eq_leaf ht hbelow rfl]
    show Starts _ (line (.leaf .text value) ++ _)
    rw [line_text hspecial, show value.toList = c :: cs from hv, escape, List.flatMap_cons,
      if_pos hc]
    exact starts_cons.mpr hback
  | _ => exact absurd hm (by simp [Kind.contents, Token.kind])

/-- A line of legible tokens does not start with white space. -/
theorem dropWhile_lines (h : EverywhereAll (Arranged table) .main earlier ts)
    (hl : ∀ t ∈ ts.head?, Legible .main earlier t) :
    (lines ts).dropWhile isWhitespace = lines ts := by
  refine dropWhile_of_starts (starts_lines rfl (fun c hc => ?_) h fun t ht hk =>
    ⟨rfl, (hl t ht).top hk rfl⟩)
  rw [not_isWhitespace_of_isNameChar hc]
  rfl

theorem reads_lines : ∀ (ts : List Token) {earlier : List Token},
    EverywhereAll (Readable table) .main earlier ts →
    Reads table ⟨[], earlier.map (quoteReturns .main)⟩ (lines ts)
      ⟨[], ((ts.reverse ++ earlier).map (quoteReturns .main))⟩ []
  | [], _, _ => Reads.refl
  | t :: ts, earlier, ⟨ht, hbelow, hts⟩ => by
    have hhead := reads_line ht hbelow rfl (lines ts)
    have htail := reads_lines ts hts
    rw [dropWhile_lines hts.arranged fun u hu => (hts.head u hu).2] at hhead
    rw [List.reverse_cons, List.append_assoc]
    exact hhead.trans htail

end Lines

/-- The canonical text of readable tokens is accepted, and read as the tokens with quotes around
text with carriage returns. -/
theorem tokens_lines {ts : List Token} (h : EverywhereAll (Readable .standard) .main [] ts)
    {limit : Nat} (hl : 2 ≤ limit) :
    Tokenize.tokens limit (lines ts) {} (lines ts) = .ok (ts.map (quoteReturns .main)) := by
  have hmax : max limit 1 = limit := by omega
  obtain ⟨after, -, hrun⟩ := reads_lines ts h limit (lines ts) 0 hl
  unfold Tokenize.tokens
  rw [hmax]
  show (Tokenize.run .standard limit (lines ts) 0 ⟨[], [].map (quoteReturns .main)⟩ (lines ts)).map
    Blocks.finish = _
  rw [hrun, Tokenize.run, List.append_nil, List.map_reverse]
  show Except.ok (Blocks.finish _) = _
  have hd : Blocks.depth ⟨[], (ts.map (quoteReturns .main)).reverse⟩ = 0 := rfl
  rw [Blocks.finish, Blocks.closeNearest, dif_pos hd, List.reverse_reverse]

end Render
end LayeredEnv
