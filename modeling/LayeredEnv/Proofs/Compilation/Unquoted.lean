import LayeredEnv.Compile
import LayeredEnv.Proofs.Entry.RoundTrip
import LayeredEnv.Proofs.Rendering.Literal
import LayeredEnv.Proofs.Tokenizing.ValueMode

namespace LayeredEnv

open Text

namespace Lexeme

/-- Blanks before the end of a line are no part of a value. -/
theorem scan_trailingBlanks {blanks ending : List Char} (hne : blanks ≠ [])
    (hblanks : ∀ c ∈ blanks, isBlank c = true) (hending : Starts isLineBreak ending) :
    scan .assignment (blanks ++ ending) = some (.nothing, ending) := by
  have hback : Starts (· != '\\') (blanks ++ ending) := by
    cases blanks with
    | nil => exact absurd rfl hne
    | cons c blanks =>
      rcases Render.eq_of_isBlank (hblanks c List.mem_cons_self) with rfl | rfl <;>
        exact starts_cons.mpr rfl
  have hstart : Starts (!isBlank ·) ending := hending.imp fun c hc => by
    rcases eq_of_isLineBreak hc with rfl | rfl <;> rfl
  have hrun : takeRun isBlank (blanks ++ ending) = some (blanks, ending) :=
    takeRun_append hne hblanks hstart
  have ht : trailingBlanks (blanks ++ ending) = some (.nothing, ending) := by
    simp only [trailingBlanks, hrun, Option.bind_eq_bind, Option.bind_some]
    cases ending with
    | nil => rfl
    | cons c rest =>
      dsimp only
      rw [if_pos (starts_cons.mp hending)]
      rfl
  simp only [scan, rules, List.findSome?_cons, escaped_of_ne hback, ht]

end Lexeme

namespace Render

open Lexeme Tokenize

/-- Escapes of a text of one line that make it an unquoted value: what means something in a value
has a mark, and so has a blank at either end. Other characters may have one. -/
structure Unquoted (text : Marked) : Prop where
  oneLine : ∀ c ∈ chars text, isLineBreak c = false
  special : ∀ c, (false, c) ∈ text → c ∉ ['\\', '"', '$', '#']
  first : ∀ c, text.head? = some (false, c) → isBlank c = false
  last : ∀ c, text.getLast? = some (false, c) → isBlank c = false

variable {table : OperatorTable} {blocks : Blocks} {text : Marked} {blanks ending : List Char}

theorem Unquoted.raw (h : Unquoted text) {c : Char} (hc : (false, c) ∈ text) :
    isValueSpecial c = false ∧ c ≠ '#' := by
  have hbreak : isLineBreak c = false := h.oneLine c (List.mem_map_of_mem hc)
  have hs := h.special c hc
  simp only [List.mem_cons, List.not_mem_nil, or_false, not_or] at hs
  simp [isValueSpecial, hbreak, hs]

/-- The first character of an escaped value is no blank that stands before the value. -/
theorem Unquoted.starts (h : Unquoted text) (hne : text ≠ []) (rest : List Char) :
    Starts (!isBlank ·) (spell text ++ rest) := by
  obtain ⟨⟨_ | _, c⟩, others, rfl⟩ := List.exists_cons_of_ne_nil hne
  · exact starts_cons.mpr (by rw [h.first c rfl]; rfl)
  · exact starts_cons.mpr rfl

/-- The value is read up to the blanks behind it. -/
theorem Unquoted.reads (h : Unquoted text) (hb : blocks.innermost = .assignment)
    (hblanks : ∀ c ∈ blanks, isBlank c = true) (hending : Starts isLineBreak ending) :
    Reads table blocks (spell text ++ (blanks ++ ending)) (blocks.pushChars (chars text))
      (blanks ++ ending) := by
  refine reads_spell valueStops_chunks ?_ (fun c hc => h.raw hc) ?_ hb
  · rintro c hc rfl
    have hbreak := h.oneLine _ (List.mem_map_of_mem hc)
    cases hbreak
  · intro front run he hne
    have hstart : Starts (!isBlank ·) ending := hending.imp fun c hc => by
      rcases eq_of_isLineBreak hc with rfl | rfl <;> rfl
    have hdrop : (blanks ++ ending).dropWhile isBlank = ending :=
      dropWhile_append_of_starts hblanks hstart
    refine ⟨?_, fun c hc hblank => ?_⟩
    · rw [hdrop]
      exact hending.imp fun c hc => by simp [isValueSpecial, hc]
    · have hmarks : markAll false run ≠ [] := by simpa [markAll] using hne
      have hlast : text.getLast? = some (false, c) := by
        rw [he, List.getLast?_append_of_ne_nil _ hmarks, markAll, List.getLast?_map, hc]
        rfl
      rw [h.last c hlast] at hblank
      cases hblank

theorem reads_trailingBlanks (hb : blocks.innermost = .assignment)
    (hblanks : ∀ c ∈ blanks, isBlank c = true) (hending : Starts isLineBreak ending) :
    Reads table blocks (blanks ++ ending) blocks ending := by
  cases blanks with
  | nil => exact .refl
  | cons c blanks =>
    have hc : (!isLineBreak c) = true := by
      rcases eq_of_isBlank (hblanks c List.mem_cons_self) with rfl | rfl <;> rfl
    have hscan : scan blocks.innermost (c :: blanks ++ ending) = some (.nothing, ending) :=
      hb ▸ scan_trailingBlanks (List.cons_ne_nil _ _) hblanks hending
    exact Reads.of_scan' (fun _ => starts_cons.mpr hc) hscan rfl

end Render

open Lexeme Tokenize

def Token.plain (name : String) (text : List Char) : Token :=
  .node .assignment name false (Token.textOf text)

theorem Token.resolve_plain {σ : Type} (table : OperatorTable) (lookup : Lookup σ) (name : String)
    (text : List Char) :
    (plain name text).resolve table lookup = pure (some (String.ofList text)) := by
  unfold plain textOf
  by_cases ht : text = []
  · simp [ht, resolve, concat]
  · simp [ht, resolve, concat, leaf]

/-- White space from the end of a line on closes the assignment, and nothing follows it. -/
theorem exists_run_ending {table : OperatorTable} {limit : Nat} {source ending : List Char}
    {frame : Frame} (hl : 2 ≤ limit) (hk : frame.kind = .assignment)
    (hending : Starts isLineBreak ending) (hspace : ∀ c ∈ ending, isWhitespace c = true) :
    ∃ last, run table limit source 0 (Blocks.enter {} frame) ending = .ok last ∧
      last.finish = [frame.token] := by
  cases ending with
  | nil =>
    have htop : (Blocks.enter {} frame).AtTop := .inr ⟨frame, rfl, hk⟩
    refine ⟨_, by rw [run], ?_⟩
    rw [Blocks.finish, htop.closeNearest]
    rfl
  | cons c rest =>
    have hrest : rest.dropWhile isWhitespace = [] :=
      List.dropWhile_eq_nil_iff.mpr fun d hd => hspace d (List.mem_cons_of_mem _ hd)
    have hrun : run table limit source 0 (Blocks.enter {} frame) (c :: rest) =
        run table limit source 0 ⟨[], [frame.token]⟩ (rest.dropWhile isWhitespace) :=
      run_lineBreak hl hk (starts_cons.mp hending) rest
    refine ⟨_, by rw [hrun, hrest, run], ?_⟩
    rw [Blocks.finish, Blocks.closeNearest_of_frames rfl]
    rfl

/-- An unquoted value is read as its text, whatever blanks stand around it. -/
theorem tokenize_unquoted {name : String} (hname : IsVariableName name) {text : Render.Marked}
    (h : Render.Unquoted text) {before after ending : List Char}
    (hbefore : ∀ c ∈ before, isBlank c = true) (hafter : ∀ c ∈ after, isBlank c = true)
    (hending : Starts isLineBreak ending) (hspace : ∀ c ∈ ending, isWhitespace c = true)
    {limit : Nat} (hl : 2 ≤ limit) :
    tokenize (.ofList (name.toList ++ '=' :: (before ++ (Render.spell text ++ (after ++ ending)))))
        limit =
      .ok (.ofTokens [.plain name (Render.chars text)]) := by
  have hopened : (Blocks.assigning name).innermost = .assignment := rfl
  have hstart : Starts (!isBlank ·) ending := hending.imp fun c hc => by
    rcases eq_of_isLineBreak hc with rfl | rfl <;> rfl
  have hopen : Reads .standard {} (name.toList ++
      '=' :: (before ++ (Render.spell text ++ (after ++ ending)))) (Blocks.assigning name)
      ((before ++ (Render.spell text ++ (after ++ ending))).dropWhile isBlank) := by
    have hne : name.toList ≠ [] := fun he => hname.1 (String.toList_eq_nil_iff.mp he)
    generalize before ++ (Render.spell text ++ (after ++ ending)) = cs
    have hr : Reads .standard {} (name.toList ++ '=' :: cs)
        (Blocks.assigning (.ofList name.toList)) (cs.dropWhile isBlank) :=
      Reads.of_scan' (fun he => by cases he) (scan_assignment hne hname.2 cs) rfl
    rwa [String.ofList_toList] at hr
  have hvalue : Reads .standard (Blocks.assigning name)
      ((before ++ (Render.spell text ++ (after ++ ending))).dropWhile isBlank)
      ((Blocks.assigning name).pushChars (Render.chars text)) ending := by
    rw [List.dropWhile_append_of_pos hbefore]
    by_cases hne : text = []
    · subst hne
      have hdrop : (after ++ ending).dropWhile isBlank = ending :=
        dropWhile_append_of_starts hafter hstart
      show Reads .standard _ ((after ++ ending).dropWhile isBlank) _ ending
      rw [hdrop]
      exact .refl
    · rw [dropWhile_of_starts (h.starts hne _)]
      exact (h.reads hopened hafter hending).trans
        (Render.reads_trailingBlanks (Blocks.innermost_pushChars ..) hafter hending)
  obtain ⟨idle, hidle, hrun⟩ := (hopen.trans hvalue) limit (name.toList ++
    '=' :: (before ++ (Render.spell text ++ (after ++ ending)))) 0 hl
  obtain rfl : idle = 0 := Nat.le_zero.mp hidle
  rw [Blocks.assigning, Blocks.pushChars_enter _ rfl] at hrun
  let frame : Frame :=
    { kind := .assignment, value := name, children := Token.textOf (Render.chars text) }
  have hassignment : frame.kind = .assignment := rfl
  obtain ⟨last, hlast, hfinish⟩ := exists_run_ending hl hassignment hending hspace
  rw [tokenize_eq_run hl, String.toList_ofList, hrun, hlast, Except.map, hfinish, Frame.token,
    Token.reverse_textOf]
  rfl

/-- A text with one assignment of literal text declares it and nothing else. -/
theorem compile_plain {source name : String} {text : List Char} {limit : Nat}
    (h : tokenize source limit = .ok (.ofTokens [.plain name text])) (provider : Provider) :
    Compile.text source provider limit = .ok (.ofList [(name, .ofList text)]) := by
  have hkind : ∀ t ∈ [Token.plain name text], t.kind ≠ .includeFlag :=
    List.forall_mem_singleton.mpr Kind.noConfusion
  obtain ⟨tree, hprepare, hdeclarations⟩ :=
    TokenTree.prepare_of_tokens h hkind Compile.inputName provider
  rw [Override.survivors_eq_self (List.pairwise_singleton _ _)] at hdeclarations
  have hlookup : ∀ other, tree.declarations.lookup other =
      if other = name then some (.plain name text) else none := by
    intro other
    rw [hdeclarations, Declarations.lookup_ofTokens]
    by_cases ho : other = name
    · subst ho
      simp [Token.plain, Token.kind, Token.value]
    · simp [Token.plain, Token.kind, Token.value, ho, Ne.symm ho]
  obtain ⟨environment, he, hget⟩ : ∃ environment,
      Assembly.assemble .standard tree.declarations = .ok environment ∧
        ∀ other, environment.get? other = if other = name then some (.ofList text) else none := by
    apply Assembly.assemble_of_literal
    · intro other token hd
      rw [hlookup] at hd
      split at hd
      · next ho =>
        cases hd
        exact ⟨_, if_pos ho, fun _ lookup => Token.resolve_plain .standard lookup name text⟩
      · cases hd
    · intro other hd
      rw [hlookup] at hd
      split at hd
      · cases hd
      · next ho => exact if_neg ho
  have heq : environment = .ofList [(name, .ofList text)] := by
    refine Environment.eq_of_get?_eq fun other => ?_
    rw [hget, Environment.get?_ofList (by simp), Binding.lookup_cons_eq_ite]
    rfl
  rw [Compile.text, Compile.source, hprepare, ← heq]
  exact he

/-- Unquoted literals are decoded exactly: blanks around the value are dropped, each escape stands
for its character, and all other text for itself. -/
theorem compile_unquoted {name : String} (hname : IsVariableName name) {text : Render.Marked}
    (h : Render.Unquoted text) {before after ending : List Char}
    (hbefore : ∀ c ∈ before, isBlank c = true) (hafter : ∀ c ∈ after, isBlank c = true)
    (hending : Starts isLineBreak ending) (hspace : ∀ c ∈ ending, isWhitespace c = true)
    {limit : Nat} (hl : 2 ≤ limit) (provider : Provider) :
    Compile.text
        (.ofList (name.toList ++ '=' :: (before ++ (Render.spell text ++ (after ++ ending)))))
        provider limit =
      .ok (.ofList [(name, .ofList (Render.chars text))]) :=
  compile_plain (tokenize_unquoted hname h hbefore hafter hending hspace hl) provider

def spacedValue : Render.Marked :=
  [(true, '\t'), (false, ' '), (false, 'x'), (false, ' '), (true, '#'), (true, '\\'), (true, 'b'),
    (false, '\u00a0')]

theorem compile_unquoted_spacedValue :
    Render.Unquoted spacedValue ∧
      Compile.text "A= \t\\\t x \\#\\\\\\b\u00a0 \t\r\n" (Sources.provider []) 2 =
        .ok (.ofList [("A", "\t x #\\b\u00a0")]) := by
  have hvalue : Render.Unquoted spacedValue := by
    constructor <;> simp [spacedValue, Render.chars, isLineBreak, isBlank]
  have hname : IsVariableName "A" := by decide
  have hblanks : ∀ c ∈ [' ', '\t'], isBlank c = true := by simp [isBlank]
  have hspace : ∀ c ∈ ['\r', '\n'], isWhitespace c = true := by simp [isWhitespace]
  exact ⟨hvalue, compile_unquoted hname hvalue hblanks hblanks (starts_cons.mpr rfl) hspace
    (Nat.le_refl 2) (Sources.provider [])⟩

end LayeredEnv
