import LayeredEnv.Proofs.Entry.RoundTrip
import LayeredEnv.Proofs.Rendering.Literal
import LayeredEnv.Proofs.Tokenizing.Grammar
import LayeredEnv.Proofs.Tokenizing.ValueMode

namespace LayeredEnv

namespace OperatorTable

def openers : List String :=
  [":-", "||", "-", "??", ":+", "&&", "+", "#", "##", "%", "%%", "?", ":", "/", "//"]

/-- The character that begins the second argument of an operator which begins with the symbol. -/
def separator? (symbol : String) : Option Char :=
  if symbol ∈ ["?", ":"] then some ':'
  else if symbol ∈ ["/", "//"] then some '/'
  else none

theorem separator?_eq_some_iff {symbol : String} {c : Char} :
    separator? symbol = some c ↔
      (symbol, String.ofList [c]) ∈ [("?", ":"), (":", ":"), ("/", "/"), ("//", "/")] := by
  have hofList : ∀ d : Char, String.ofList [c] = String.ofList [d] ↔ c = d := by simp
  have hcolon : String.ofList [c] = ":" ↔ c = ':' := hofList ':'
  have hslash : String.ofList [c] = "/" ↔ c = '/' := hofList '/'
  simp only [List.mem_cons, Prod.mk.injEq, hcolon, hslash, List.not_mem_nil, or_false]
  unfold separator?
  split
  · next h =>
    simp only [List.mem_cons, List.not_mem_nil, or_false] at h
    rcases h with rfl | rfl <;> simp [eq_comm]
  · next h =>
    simp only [List.mem_cons, List.not_mem_nil, or_false, not_or] at h
    split
    · next hs =>
      simp only [List.mem_cons, List.not_mem_nil, or_false] at hs
      rcases hs with rfl | rfl <;> simp [eq_comm]
    · next hs =>
      simp only [List.mem_cons, List.not_mem_nil, or_false, not_or] at hs
      simp [h, hs]

theorem isOperatorChar_of_separator? {symbol : String} {c : Char}
    (h : separator? symbol = some c) : Lexeme.isOperatorChar c = true := by
  unfold separator? at h
  split at h
  · cases h
    decide
  · split at h
    · cases h
      decide
    · cases h

/-- Behind another symbol only its separator begins an argument. -/
theorem eq_of_pick_behind {symbol : String} {rest : List String} {c : Char} {second : Option Char}
    {found : List Char} (h : standard.pick (symbol :: rest) c second = some found) :
    rest = [] ∧ separator? symbol = some c ∧ found = [c] := by
  obtain ⟨hrest, hm⟩ := continues_standard (continues_of_pick (List.cons_ne_nil _ _) h)
  rcases pick_cases h with rfl | ⟨d, -, rfl⟩
  · exact ⟨hrest, separator?_eq_some_iff.mpr hm, rfl⟩
  · have hone : ∀ pair ∈ [("?", ":"), (":", ":"), ("/", "/"), ("//", "/")],
        pair.2.toList.length = 1 := by decide
    have hlength := hone _ hm
    rw [String.toList_ofList] at hlength
    cases hlength

theorem pick_eq_none {symbol : String} {rest : List String} {c : Char}
    (h : rest = [] → separator? symbol ≠ some c) (second : Option Char) :
    standard.pick (symbol :: rest) c second = none := by
  cases hp : standard.pick (symbol :: rest) c second with
  | none => rfl
  | some found =>
    obtain ⟨hrest, hs, -⟩ := eq_of_pick_behind hp
    exact absurd hs (h hrest)

theorem pick_separator {symbol : String} {c : Char} (h : separator? symbol = some c)
    (second : Option Char) : standard.pick [symbol] c second = some [c] := by
  have hpairs : ∀ pair ∈ [("?", ":"), (":", ":"), ("/", "/"), ("//", "/")],
      standard.continues [pair.1] pair.2 = true := by decide
  have hc : standard.continues [symbol] (.ofList [c]) = true :=
    hpairs _ (separator?_eq_some_iff.mp h)
  cases hp : standard.pick [symbol] c second with
  | some found => rw [(eq_of_pick_behind hp).2.2]
  | none =>
    have hfind : [c :: second.toList, [c]].find?
        (fun symbol' => standard.continues [symbol] (.ofList symbol')) = none := by
      unfold pick at hp
      dsimp only at hp
      split at hp
      · cases hp
      · next hf => exact hf
    have hnot := List.find?_eq_none.mp hfind [c] (by simp)
    exact absurd hc hnot

/-- The first symbol of a reference is read whole, and it is not read together with what follows it
unless both are a first symbol. -/
theorem pick_opener {symbol : String} (hs : symbol ∈ openers) {rest : List Char}
    (h : symbol.length = 2 ∨ ∀ c ∈ rest.head?, Lexeme.isOperatorChar c = true →
      standard.continues [] (symbol.push c) = false) :
    ∃ first tail, symbol.toList = first :: tail ∧ Lexeme.isOperatorChar first = true ∧
      standard.pick [] first ((tail ++ rest).head?.filter Lexeme.isOperatorChar) =
        some symbol.toList := by
  have hc : standard.continues [] symbol = true := by
    have hfirst : ∀ symbol ∈ openers, ((spellings standard.operators).map segments).any
        ([symbol].isPrefixOf ·) = true := by
      rw [segments_standard]
      decide
    have h := hfirst symbol hs
    rwa [List.any_map] at h
  have hchars : ∀ symbol ∈ openers, symbol.toList.all Lexeme.isOperatorChar = true ∧
      (symbol.toList.length = 1 ∨ symbol.toList.length = 2) := by decide
  obtain ⟨hop, hlength⟩ := hchars symbol hs
  rw [List.all_eq_true] at hop
  rw [← String.ofList_toList (s := symbol)] at hc
  rcases hlength with hone | htwo
  · obtain ⟨a, ha⟩ := List.length_eq_one_iff.mp hone
    have hshort : symbol.length ≠ 2 := by
      rw [← String.length_toList, hone]
      decide
    have hlong := h.resolve_left hshort
    have hpush : ∀ d, symbol.push d = .ofList [a, d] := by
      intro d
      rw [← String.ofList_toList (s := symbol.push d), String.toList_push, ha]
      rfl
    rw [ha] at hc hop
    refine ⟨a, [], ha, hop a List.mem_cons_self, ?_⟩
    rw [ha, List.nil_append]
    cases hsecond : rest.head?.filter Lexeme.isOperatorChar with
    | none => simp only [pick, Option.toList_none, List.find?_cons, hc]
    | some d =>
      obtain ⟨hd, hop'⟩ := Option.filter_eq_some_iff.mp hsecond
      have hnot := hlong d hd hop'
      rw [hpush] at hnot
      simp only [pick, Option.toList_some, List.find?_cons, hnot, hc]
  · obtain ⟨a, b, hab⟩ := List.length_eq_two.mp htwo
    rw [hab] at hc hop
    refine ⟨a, [b], hab, hop a List.mem_cons_self, ?_⟩
    have hb : Lexeme.isOperatorChar b = true := hop b (List.mem_cons_of_mem _ List.mem_cons_self)
    have hsecond : (([b] ++ rest).head?).filter Lexeme.isOperatorChar = some b := by
      rw [List.singleton_append, List.head?_cons, Option.filter_some, if_pos hb]
    rw [hsecond, hab]
    simp only [pick, Option.toList_some, List.find?_cons, hc]

end OperatorTable

namespace Tokenize

open Text Lexeme OperatorTable

/-- Text of an argument in which operator characters alone could mean anything. -/
def IsArgumentText (text : List Char) : Prop :=
  ∀ c ∈ text, c ∉ ['\x7d', '\\', '"', '$', '\r', '\n']

variable {blocks : Blocks} {text rest : List Char}

theorem not_isSpecial_of_argumentText {c : Char} (hc : c ∉ ['\x7d', '\\', '"', '$', '\r', '\n'])
    (hop : isOperatorChar c = false) : Render.isSpecial .expression c = false := by
  simp only [List.mem_cons, List.not_mem_nil, or_false, not_or] at hc
  simp only [isOperatorChar] at hop
  simp [Render.isSpecial] at hop ⊢
  simp [hop, hc]

/-- Behind the symbols of a reference and that of the open expression. -/
theorem symbols_closeTo_enter {outer : Blocks} (frame : Frame)
    (ho : outer.innermost = .interpolation) (hk : frame.kind = .expression) :
    (outer.enter frame).closeTo .interpolation = outer.push frame.token ∧
      ((outer.enter frame).closeTo .interpolation).symbols = outer.symbols ++ [frame.value] := by
  have hne : (outer.enter frame).innermost ≠ .interpolation := by
    rw [Blocks.innermost_enter, hk]
    decide
  have hclose : (outer.enter frame).closeTo .interpolation = outer.push frame.token := by
    have hdepth : (outer.enter frame).depth ≠ 0 := Nat.succ_ne_zero _
    rw [Blocks.closeTo_of_ne hdepth hne, Blocks.close_enter,
      Blocks.closeTo_of_innermost ((Blocks.innermost_push ..).trans ho)]
  refine ⟨hclose, ?_⟩
  have hkind : (frame.token.kind == .expression) = true := by
    rw [Frame.token, Token.kind, hk]
    rfl
  rw [hclose, Blocks.symbols, Blocks.current_push, List.filter_cons, if_pos hkind, List.map_cons,
    List.reverse_cons]
  rfl

theorem exists_pushChars_enter (outer : Blocks) (frame : Frame) (text : List Char) :
    ∃ children, (outer.enter frame).pushChars text = outer.enter { frame with children } := by
  by_cases ht : text = []
  · exact ⟨frame.children, by rw [ht, Blocks.pushChars_nil]⟩
  · rw [Blocks.pushChars_of_ne _ ht, Blocks.pushText]
    split
    · exact ⟨_, rfl⟩
    · exact ⟨_, rfl⟩

/-- A piece of an argument's text is read as it is, where no symbol is picked. -/
theorem exists_argument_piece (hb : blocks.innermost = .expression) (hne : text ≠ [])
    (htext : IsArgumentText text)
    (hpick : ∀ c ∈ text, ∀ second,
      standard.pick (blocks.closeTo .interpolation).symbols c second = none)
    (hrest : Starts (!isArgumentChar ·) rest) :
    ∃ piece left, piece ≠ [] ∧ text = piece ++ left ∧
      Passes .standard blocks (text ++ rest) (blocks.pushChars piece) (left ++ rest) := by
  have hstart : ∀ cs, blocks.innermost = .assignment → Starts (!isLineBreak ·) cs := by
    intro cs h
    rw [hb] at h
    cases h
  obtain ⟨c, others, rfl⟩ := List.exists_cons_of_ne_nil hne
  by_cases hc : isOperatorChar c = true
  · have hscan := scan_operators (.inr hb) hc (others ++ rest)
    refine ⟨[c], others, List.cons_ne_nil _ _, rfl, ?_⟩
    rw [Blocks.pushChars_of_ne _ (List.cons_ne_nil _ _)]
    refine Passes.of_scan' (hstart _) hscan ?_
    simp only [Blocks.apply, Blocks.operate, hpick c List.mem_cons_self]
  · -- up to the next operator character the text is read in runs
    have hsplit := List.takeWhile_append_dropWhile (p := (!isOperatorChar ·)) (l := c :: others)
    have hrunNe : (c :: others).takeWhile (!isOperatorChar ·) ≠ [] := by
      rw [List.takeWhile_cons_of_pos (by simpa using hc)]
      exact List.cons_ne_nil _ _
    have hraw : ∀ d ∈ (c :: others).takeWhile (!isOperatorChar ·),
        Render.isSpecial .expression d = false ∧ d ≠ '\n' := by
      intro d hd
      have hop : isOperatorChar d = false := by simpa using List.mem_takeWhile_imp hd
      have hmem := htext d (List.takeWhile_subset _ hd)
      exact ⟨not_isSpecial_of_argumentText hmem hop, fun he => hmem (by simp [he])⟩
    have hends : Starts (!isArgumentChar ·)
        ((c :: others).dropWhile (!isOperatorChar ·) ++ rest) := by
      have hdrop := starts_dropWhile (!isOperatorChar ·) (c :: others)
      cases hd : (c :: others).dropWhile (!isOperatorChar ·) with
      | nil => exact hrest
      | cons d left =>
        rw [hd] at hdrop
        have hop : isOperatorChar d = true := by simpa using starts_cons.mp hdrop
        exact starts_cons.mpr (of_isOperatorChar (p := (!isArgumentChar ·)) (by decide) hop)
    obtain ⟨piece, left, hpiece, hrun, hscan⟩ := Render.expression_chunks.read hrunNe hraw hends
    refine ⟨piece, left ++ (c :: others).dropWhile (!isOperatorChar ·), hpiece, ?_, ?_⟩
    · rw [← List.append_assoc, ← hrun, hsplit]
    · rw [← List.append_assoc, hsplit] at hscan
      rw [List.append_assoc]
      exact Passes.of_text hpiece (hstart _) (hb ▸ hscan)

/-- The text of an argument is read as it is, where no symbol is picked. -/
theorem Passes.argument {outer : Blocks} {frame : Frame} (ho : outer.innermost = .interpolation)
    (hk : frame.kind = .expression) (htext : IsArgumentText text)
    (hpick : ∀ c ∈ text, ∀ second,
      standard.pick (outer.symbols ++ [frame.value]) c second = none)
    (hrest : Starts (!isArgumentChar ·) rest) :
    Passes .standard (outer.enter frame) (text ++ rest) ((outer.enter frame).pushChars text)
      rest := by
  -- a step may take many characters, so that the induction is on the length
  induction hn : text.length using Nat.strong_induction_on generalizing text frame with
  | _ length ih =>
  by_cases hne : text = []
  · subst hne
    rw [Blocks.pushChars_nil]
    exact .refl
  have hpicks : ∀ c ∈ text, ∀ second, standard.pick
      ((outer.enter frame).closeTo .interpolation).symbols c second = none := by
    rw [(symbols_closeTo_enter frame ho hk).2]
    exact hpick
  have hb : (outer.enter frame).innermost = .expression := hk
  obtain ⟨piece, left, hpiece, rfl, hpass⟩ := exists_argument_piece hb hne htext hpicks hrest
  have hlt : left.length < length := by
    have hpos := List.length_pos_of_ne_nil hpiece
    rw [← hn, List.length_append]
    omega
  obtain ⟨children, hchildren⟩ := exists_pushChars_enter outer frame piece
  have hleft : Passes .standard (outer.enter { frame with children }) (left ++ rest)
      ((outer.enter { frame with children }).pushChars left) rest :=
    ih left.length hlt hk (fun c hc => htext c (List.mem_append_right _ hc))
      (fun c hc => hpick c (List.mem_append_right _ hc)) rfl
  rw [← hchildren, Blocks.pushChars_pushChars] at hleft
  exact hpass.trans hleft

def operand (symbol : String) (text : List Char) : Frame where
  kind := .expression
  value := symbol
  children := Token.textOf text

/-- An expression is read whose symbol is picked and in whose text none is. -/
theorem Passes.operand {blocks outer : Blocks} {symbol : String} {c : Char} {cs : List Char}
    (hb : blocks.innermost = .interpolation ∨ blocks.innermost = .expression)
    (hclose : blocks.closeTo .interpolation = outer) (ho : outer.innermost = .interpolation)
    (hsymbol : symbol.toList = c :: cs) (hop : isOperatorChar c = true)
    (hfirst : standard.pick outer.symbols c ((cs ++ (text ++ rest)).head?.filter isOperatorChar) =
      some symbol.toList)
    (htext : IsArgumentText text)
    (hpick : ∀ c ∈ text, ∀ second, standard.pick (outer.symbols ++ [symbol]) c second = none)
    (hrest : Starts (!isArgumentChar ·) rest) :
    Passes .standard blocks (symbol.toList ++ (text ++ rest))
      (outer.enter (Tokenize.operand symbol text)) rest := by
  have hopen : Passes .standard blocks (symbol.toList ++ (text ++ rest))
      (outer.enter { kind := .expression, value := symbol }) (text ++ rest) := by
    have h : Passes .standard blocks (symbol.toList ++ (text ++ rest)) _ (text ++ rest) :=
      Passes.symbol hb hsymbol hop (hclose ▸ hfirst)
    rwa [hclose, String.ofList_toList] at h
  have hread : Passes .standard (outer.enter { kind := .expression, value := symbol })
      (text ++ rest) (outer.enter (Tokenize.operand symbol text)) rest := by
    have h : Passes .standard (outer.enter { kind := .expression, value := symbol })
        (text ++ rest) _ rest := Passes.argument ho rfl htext hpick hrest
    rwa [Blocks.pushChars_enter _ rfl] at h
  exact hopen.trans hread

/-- A reference is closed together with the expression that is open in it. -/
theorem Passes.closing {blocks : Blocks} (frame : Frame) {last : Frame}
    (hi : frame.kind = .interpolation) (he : last.kind = .expression) :
    Passes table ((blocks.enter frame).enter last) ('\x7d' :: rest)
      (blocks.push { frame with children := last.token :: frame.children }.token) rest := by
  have hb : ((blocks.enter frame).enter last).innermost = .expression := he
  have hscan : scan ((blocks.enter frame).enter last).innermost ('\x7d' :: rest) =
      some (.closeInterpolation, rest) := hb ▸ scan_interpolationEnd (.inr rfl) rest
  refine Passes.of_scan' (fun _ => starts_cons.mpr rfl) hscan (Prod.ext ?_ rfl)
  show ((blocks.enter frame).enter last).closeNearest .interpolation = _
  have hinner : (blocks.enter frame).innermost = .interpolation := hi
  rw [Blocks.closeNearest_eq, (symbols_closeTo_enter last hinner he).1]
  rfl

/-- The expressions of a reference by its first symbol and the text behind it, which is cut at the
first separator that the symbol has. -/
def operands (symbol : String) (text : List Char) : List Token :=
  match separator? symbol with
  | none => [(operand symbol text).token]
  | some c =>
    match splitAtFirst c text with
    | none => [(operand symbol text).token]
    | some (before, after) => [(operand symbol before).token, (operand (.ofList [c]) after).token]

def spelled (name symbol : String) (text : List Char) : List Char :=
  '$' :: '\x7b' :: (name.toList ++ (symbol.toList ++ (text ++ ['\x7d'])))

section Spelled

variable {name symbol : String}

theorem starts_closing (rest : List Char) : Starts (!isArgumentChar ·) ('\x7d' :: rest) :=
  starts_cons.mpr (by decide)

/-- The first symbol as it is read in a reference. -/
theorem exists_opener (hs : symbol ∈ openers)
    (hlong : symbol.length = 2 ∨ ∀ c ∈ text.head?, standard.continues [] (symbol.push c) = false)
    (rest : List Char) :
    ∃ first tail, symbol.toList = first :: tail ∧ isOperatorChar first = true ∧
      standard.pick [] first ((tail ++ (text ++ '\x7d' :: rest)).head?.filter isOperatorChar) =
        some symbol.toList := by
  refine pick_opener hs (hlong.imp_right fun h c hc hopc => ?_)
  cases text with
  | nil =>
    cases hc
    exact absurd hopc (by decide)
  | cons d text => exact h c hc

theorem passes_opening
    (hb : blocks.innermost = .assignment ∨ blocks.innermost = .expression ∨
      blocks.innermost = .quoted)
    (hname : IsVariableName name) {first : Char} {tail : List Char}
    (hsymbol : symbol.toList = first :: tail) (hop : isOperatorChar first = true) :
    Passes table blocks (spelled name symbol text ++ rest)
      (blocks.enter { kind := .interpolation, value := name })
      (symbol.toList ++ (text ++ '\x7d' :: rest)) := by
  have hstart : ∀ p : Char → Bool, (∀ c, isOperatorChar c = true → p c = true) →
      Starts p (symbol.toList ++ (text ++ '\x7d' :: rest)) := by
    intro p hp
    rw [hsymbol]
    exact starts_cons.mpr (hp first hop)
  have hnot : Starts (!isNameChar ·) (symbol.toList ++ (text ++ '\x7d' :: rest)) :=
    hstart _ fun c => of_isOperatorChar (p := (!isNameChar ·)) (by decide)
  have hspace : Starts (!isSpace ·) (symbol.toList ++ (text ++ '\x7d' :: rest)) :=
    hstart _ fun c => of_isOperatorChar (p := (!isSpace ·)) (by decide)
  have h : Passes table blocks
      ('$' :: '\x7b' :: ((if false then ['#'] else []) ++ name.toList ++
        (symbol.toList ++ (text ++ '\x7d' :: rest)))) _ _ :=
    Passes.opening hb (fun he => hname.1 (String.toList_eq_nil_iff.mp he)) hname.2 hnot
  rw [dropWhile_of_starts hspace] at h
  simpa [spelled] using h

/-- A symbol without its separator behind it has one argument. -/
theorem passes_one
    (hb : blocks.innermost = .assignment ∨ blocks.innermost = .expression ∨
      blocks.innermost = .quoted)
    (hname : IsVariableName name) (hs : symbol ∈ openers) (htext : IsArgumentText text)
    (hlong : symbol.length = 2 ∨ ∀ c ∈ text.head?, standard.continues [] (symbol.push c) = false)
    (hnone : ∀ c ∈ text, separator? symbol ≠ some c) :
    Passes .standard blocks (spelled name symbol text ++ rest)
      (blocks.push (.node .interpolation name false [(operand symbol text).token])) rest := by
  obtain ⟨first, tail, hsymbol, hop, hpick⟩ := exists_opener hs hlong rest
  have ho : (blocks.enter { kind := .interpolation, value := name }).innermost =
      .interpolation := rfl
  have hread : Passes .standard (blocks.enter { kind := .interpolation, value := name })
      (symbol.toList ++ (text ++ '\x7d' :: rest)) _ ('\x7d' :: rest) :=
    Passes.operand (.inl ho) (Blocks.closeTo_of_innermost ho) ho hsymbol hop hpick htext
      (fun c hc second => pick_eq_none (fun _ => hnone c hc) second) (starts_closing rest)
  exact (passes_opening hb hname hsymbol hop).trans (hread.trans (Passes.closing _ rfl rfl))

/-- A symbol with its separator behind it has two arguments, whatever separators come later. -/
theorem passes_two
    (hb : blocks.innermost = .assignment ∨ blocks.innermost = .expression ∨
      blocks.innermost = .quoted)
    (hname : IsVariableName name) (hs : symbol ∈ openers) (htext : IsArgumentText text)
    (hlong : symbol.length = 2 ∨ ∀ c ∈ text.head?, standard.continues [] (symbol.push c) = false)
    {c : Char} {before after : List Char} (hsep : separator? symbol = some c)
    (hsplit : splitAtFirst c text = some (before, after)) :
    Passes .standard blocks (spelled name symbol text ++ rest)
      (blocks.push (.node .interpolation name false
        [(operand symbol before).token, (operand (.ofList [c]) after).token])) rest := by
  obtain ⟨first, tail, hsymbol, hop, hpick⟩ := exists_opener hs hlong rest
  have hopening : Passes .standard blocks (spelled name symbol text ++ rest) _ _ :=
    passes_opening hb hname hsymbol hop
  obtain rfl := eq_of_splitAtFirst hsplit
  rw [List.append_assoc, List.cons_append] at hpick hopening
  have hc : isOperatorChar c = true := isOperatorChar_of_separator? hsep
  let outer : Blocks := blocks.enter { kind := .interpolation, value := name }
  have ho : outer.innermost = .interpolation := rfl
  obtain ⟨hclose, hsymbols⟩ := symbols_closeTo_enter (operand symbol before) ho rfl
  have hbefore : ∀ d ∈ before, separator? symbol ≠ some d := by
    intro d hd h
    rw [hsep] at h
    cases h
    exact notMem_of_splitAtFirst hsplit hd
  have hfirst : Passes .standard outer
      (symbol.toList ++ (before ++ c :: (after ++ '\x7d' :: rest)))
      (outer.enter (operand symbol before)) (c :: (after ++ '\x7d' :: rest)) :=
    Passes.operand (.inl ho) (Blocks.closeTo_of_innermost ho) ho hsymbol hop hpick
      (fun d hd => htext d (List.mem_append_left _ hd))
      (fun d hd second => pick_eq_none (fun _ => hbefore d hd) second)
      (starts_cons.mpr (of_isOperatorChar (p := (!isArgumentChar ·)) (by decide) hc))
  have hsecond : Passes .standard (outer.enter (operand symbol before))
      ((String.ofList [c]).toList ++ (after ++ '\x7d' :: rest))
      ((outer.push (operand symbol before).token).enter (operand (.ofList [c]) after))
      ('\x7d' :: rest) := by
    refine Passes.operand (.inr rfl) hclose ((Blocks.innermost_push ..).trans ho)
      String.toList_ofList hc ?_
      (fun d hd => htext d (List.mem_append_right _ (List.mem_cons_of_mem _ hd)))
      (fun d _ second => ?_) (starts_closing rest)
    · rw [← hclose, hsymbols, String.toList_ofList]
      exact pick_separator hsep _
    · rw [← hclose, hsymbols]
      exact pick_eq_none (fun h => by cases h) second
  rw [String.toList_ofList, List.singleton_append] at hsecond
  have hclosing : Passes .standard
      ((outer.push (operand symbol before).token).enter (operand (.ofList [c]) after))
      ('\x7d' :: rest) (blocks.push (.node .interpolation name false
        [(operand symbol before).token, (operand (.ofList [c]) after).token])) rest :=
    Passes.closing { kind := .interpolation, value := name,
                     children := [(operand symbol before).token] } rfl rfl
  exact hopening.trans (hfirst.trans (hsecond.trans hclosing))

theorem passes_spelled
    (hb : blocks.innermost = .assignment ∨ blocks.innermost = .expression ∨
      blocks.innermost = .quoted)
    (hname : IsVariableName name) (hs : symbol ∈ openers) (htext : IsArgumentText text)
    (hlong : symbol.length = 2 ∨ ∀ c ∈ text.head?, standard.continues [] (symbol.push c) = false)
    (rest : List Char) :
    Passes .standard blocks (spelled name symbol text ++ rest)
      (blocks.push (.node .interpolation name false (operands symbol text))) rest := by
  unfold operands
  split
  · next hsep => exact passes_one hb hname hs htext hlong fun _ _ h => nomatch hsep.symm.trans h
  · next c hsep =>
    split
    · next hsplit =>
      refine passes_one hb hname hs htext hlong fun d hd h => ?_
      rw [hsep] at h
      cases h
      exact notMem_of_splitAtFirst_eq_none hsplit hd
    · next hsplit => exact passes_two hb hname hs htext hlong hsep hsplit

end Spelled

/-- A value that is passed to its end is the value of an assignment, under every limit. -/
theorem tokenize_of_passes {name : String} (hname : IsVariableName name) {cs : List Char}
    (hstart : Starts (!isBlank ·) cs) {t : Token}
    (h : Passes .standard (Blocks.assigning name) cs ((Blocks.assigning name).push t) [])
    (limit : Nat) :
    tokenize (.ofList (name.toList ++ '=' :: cs)) limit =
      .ok (.ofTokens [.node .assignment name false [t]]) := by
  have hne : name.toList ≠ [] := fun he => hname.1 (String.toList_eq_nil_iff.mp he)
  have hopen : Passes .standard {} (name.toList ++ '=' :: cs)
      (Blocks.assigning (.ofList name.toList)) (cs.dropWhile isBlank) :=
    Passes.of_scan' (fun h => by cases h) (scan_assignment hne hname.2 cs) rfl
  rw [String.ofList_toList, dropWhile_of_starts hstart] at hopen
  obtain ⟨after, -, hrun⟩ := (hopen.trans h) (max limit 1) (name.toList ++ '=' :: cs) 0
  have htop : ((Blocks.assigning name).push t).AtTop := .inr ⟨_, rfl, rfl⟩
  have hfinish : ((Blocks.assigning name).push t).finish =
      [.node .assignment name false [t]] := by
    rw [Blocks.finish, htop.closeNearest]
    rfl
  apply TokenTree.tokenize_of_tokens
  rw [String.toList_ofList, tokens, hrun, run, Except.map, hfinish]

theorem passes_quoted {t : Token} (hb : blocks.innermost = .assignment) {cs : List Char}
    (h : ∀ inner : Blocks, inner.innermost = .quoted → Passes table inner (cs ++ '"' :: rest)
      (inner.push t) ('"' :: rest)) :
    Passes table blocks ('"' :: (cs ++ '"' :: rest))
      (blocks.push (.node .quoted "" false [t])) rest := by
  have hopen : Passes table blocks ('"' :: (cs ++ '"' :: rest))
      (blocks.enter { kind := .quoted, value := "" }) (cs ++ '"' :: rest) :=
    Passes.of_scan' (fun _ => starts_cons.mpr rfl) (scan_quoteStart (.inl hb) _) rfl
  have hclose : Passes table ((blocks.enter { kind := .quoted, value := "" }).push t) ('"' :: rest)
      (blocks.push (.node .quoted "" false [t])) rest := by
    refine Passes.of_scan' (fun _ => starts_cons.mpr rfl) (scan_quoteEnd rest) (Prod.ext ?_ rfl)
    exact Blocks.closeNearest_of_innermost Kind.noConfusion rfl
  exact hopen.trans ((h _ rfl).trans hclose)

end Tokenize

open Tokenize

/-- A reference with an operator is cut at its first symbol and at the first separator that this
symbol has; all else in it is literal. So it is wherever references stand: in values, in quotes and
in arguments of other references. -/
theorem tokenize_reference_operands {name symbol : String} {text : List Char}
    (hname : IsVariableName name) (hs : symbol ∈ OperatorTable.openers)
    (htext : IsArgumentText text)
    (hlong : symbol.length = 2 ∨
      ∀ c ∈ text.head?, OperatorTable.standard.continues [] (symbol.push c) = false) :
    (∀ (blocks : Blocks) (rest : List Char),
      blocks.innermost = .assignment ∨ blocks.innermost = .expression ∨
        blocks.innermost = .quoted →
      Passes .standard blocks (spelled name symbol text ++ rest)
        (blocks.push (.node .interpolation name false (operands symbol text))) rest) ∧
    ∀ target, IsVariableName target → ∀ limit,
      tokenize (.ofList (target.toList ++ '=' :: spelled name symbol text)) limit =
        .ok (.ofTokens [.node .assignment target false
          [.node .interpolation name false (operands symbol text)]]) ∧
      tokenize (.ofList (target.toList ++ '=' :: '"' :: (spelled name symbol text ++ ['"'])))
          limit =
        .ok (.ofTokens [.node .assignment target false [.node .quoted "" false
          [.node .interpolation name false (operands symbol text)]]]) := by
  refine ⟨fun blocks rest hb => passes_spelled hb hname hs htext hlong rest,
    fun target htarget limit => ⟨?_, ?_⟩⟩
  · have h : Passes .standard (Blocks.assigning target) (spelled name symbol text ++ []) _ [] :=
      passes_spelled (.inl rfl) hname hs htext hlong []
    rw [List.append_nil] at h
    exact tokenize_of_passes htarget (Text.starts_cons.mpr rfl) h limit
  · refine tokenize_of_passes htarget (Text.starts_cons.mpr rfl) (passes_quoted rfl ?_) limit
    exact fun inner hb => passes_spelled (.inr (.inr hb)) hname hs htext hlong ['"']

/-- A second separator and symbols that begin before the first one and end at it are literal. -/
theorem tokenize_reference_operands_straddling :
    tokenize "A=$\x7bX?-:-:b//\x7d" 1 = .ok (.ofTokens [.node .assignment "A" false
      [.node .interpolation "X" false [.node .expression "?" false [.leaf .text "-"],
        .node .expression ":" false [.leaf .text "-:b//"]]]]) := by
  have hx : IsVariableName "X" := by decide
  have htext : IsArgumentText "-:-:b//".toList := by
    simp [IsArgumentText]
  have hlong : "?".length = 2 ∨ ∀ c ∈ "-:-:b//".toList.head?,
      OperatorTable.standard.continues [] ("?".push c) = false := by
    refine .inr fun c hc => ?_
    cases hc
    decide
  have h := tokenize_reference_operands hx (by decide) htext hlong
  exact (h.2 "A" (by decide) 1).1

end LayeredEnv
