import LayeredEnv.Compile
import LayeredEnv.Proofs.Assembly.Extension
import LayeredEnv.Proofs.Entry.RoundTrip
import LayeredEnv.Proofs.Inclusion.Appending
import LayeredEnv.Proofs.Override.Flatten
import LayeredEnv.Proofs.Tokenizing.ValueMode

namespace LayeredEnv

def declared (text name value : String) : String := text ++ "\n" ++ name ++ "=" ++ value

theorem toList_declared (text name value : String) :
    (declared text name value).toList =
      text.toList ++ '\n' :: (name.toList ++ '=' :: value.toList) := by
  simp [declared]

theorem tokenize_of_run {text : String} {limit : ℕ} {opened : Blocks} (hl : 2 ≤ limit)
    (h : Tokenize.run .standard limit text.toList 0 {} text.toList = .ok opened) :
    tokenize text limit = .ok (.ofTokens opened.finish) := by
  rw [tokenize_eq_run hl, h]
  rfl

/-- The declaration is read as the assignment of the tokens that the value has by itself. -/
theorem tokenize_declared {text name value : String} {limit : ℕ} {opened : Blocks} (hl : 2 ≤ limit)
    (read : Tokenize.run .standard limit text.toList 0 {} text.toList = .ok opened)
    (atTop : opened.AtTop) (hn : IsVariableName name)
    (hline : ∀ c ∈ value.toList, Text.isLineBreak c = false) :
    match tokenizeValue value with
    | .error _ => ∃ error, tokenize (declared text name value) limit = .error error
    | .ok (tree, id) => ∃ before isLength children,
        tree.subtree id = .node .assignment before isLength children ∧
        tokenize (declared text name value) limit =
          .ok (.ofTokens (opened.finish ++ [.node .assignment name isLength children])) := by
  have hvalue := exists_value hl hn.1 hn.2 hline
  have hrun := Tokenize.run_append_line hl read atTop (name.toList ++ '=' :: value.toList)
  have hfinish : opened.finish = opened.close.top.reverse := by
    rw [Blocks.finish, atTop.closeNearest]
  rw [← toList_declared] at hrun
  rw [tokenize_eq_run hl, hrun]
  cases htokens : tokenizeValue value with
  | error error =>
    rw [htokens] at hvalue
    obtain ⟨error, herror⟩ := hvalue
    rw [herror]
    exact ⟨_, rfl⟩
  | ok found =>
    rw [htokens] at hvalue
    obtain ⟨before, isLength, children, last, hsubtree, hlast, hnested, hassignment⟩ := hvalue
    rw [hlast]
    refine ⟨before, isLength, children, hsubtree, ?_⟩
    have hapart : ∀ t ∈ opened.close.top.head?, ∀ u ∈ last.finish.head?,
        ¬(t.kind = .text ∧ u.kind = .text) := by
      rintro t - u hu ⟨-, hk⟩
      rw [hassignment] at hu
      cases hu
      cases hk
    have happend := Blocks.finish_onto hnested hapart
    simp only [Except.map, happend, hfinish, hassignment]

namespace Override

variable {ts : List Token} {name : String} {t : Token}

theorem Won.mem (h : Won ts name t) : t ∈ ts := by
  obtain ⟨i, -, ht⟩ := h
  exact List.mem_of_getElem? ht

/-- A name that is not mentioned is not assigned. -/
theorem not_assigns_of_unmentioned (h : ∀ t ∈ ts, name ∉ t.mentions) (i : ℕ) :
    ¬Assigns (ts.map Token.label) name i := by
  intro ha
  obtain ⟨t, ht, hl⟩ := assigns_map_iff.mp ha
  obtain ⟨hk, rfl⟩ := Prod.mk.inj hl
  exact h t (List.mem_of_getElem? ht) (Token.value_mem_mentions hk)

theorem lookup_survivors_of_unmentioned (h : ∀ t ∈ ts, name ∉ t.mentions) :
    (Declarations.ofTokens (survivors Token.label ts)).lookup name = none := by
  refine Option.eq_none_iff_forall_ne_some.mpr fun u hu => ?_
  obtain ⟨i, hw, -⟩ := lookup_survivors_iff.mp hu
  exact not_assigns_of_unmentioned h i hw.assigns

/-- An assignment of a name that is not mentioned is one more declaration. -/
theorem extended_concat (h : ∀ t ∈ ts, name ∉ t.mentions) (hl : t.label = (.assignment, name))
    (ht : name ∉ t.references) :
    Assembly.Extended (.ofTokens (survivors Token.label ts))
      (.ofTokens (survivors Token.label (ts ++ [t]))) name t where
  undeclared := lookup_survivors_of_unmentioned h
  declared := lookup_survivors_iff.mpr <|
    (won_concat_last (fun i hp => not_assigns_of_unmentioned h i hp.1) hl).mpr rfl
  same other hne := by
    have hlabel : t.label ≠ (.assignment, other) := by
      rw [hl]
      exact fun he => hne (Prod.mk.inj he).2.symm
    refine Option.ext fun u => ?_
    rw [lookup_survivors_iff, lookup_survivors_iff, won_concat_of_ne hlabel]
  unreferenced other u hu := by
    have hm := (lookup_survivors_iff.mp hu).mem
    exact fun href => h u hm (u.references_subset_mentions href)
  noncircular := ht

end Override

namespace Compile

variable {text name : String} {provider : Provider} {limit : ℕ} {tokens merged : TokenTree}
  {ts : List Token} {environment : Environment}

/-- Once the includes are spliced in, it remains to assemble what wins. -/
theorem text_of_merge (ht : tokenize text limit = .ok tokens)
    (hm : Include.merge provider limit inputName tokens = (.ok (), merged)) :
    Compile.text text provider limit =
      Assembly.assemble .standard merged.flattenOverrides.declarations := by
  simp only [Compile.text, source, prepare, ht, bind, Except.bind, hm]
  rfl

theorem text_of_error {error : Error} (ht : tokenize text limit = .error error) :
    Compile.text text provider limit = .error error := by
  simp only [Compile.text, source, prepare, ht, bind, Except.bind]

theorem merge_of_text (ht : tokenize text limit = .ok tokens)
    (h : Compile.text text provider limit = .ok environment) :
    ∃ merged, Include.merge provider limit inputName tokens = (.ok (), merged) := by
  simp only [Compile.text, source, prepare, ht, bind, Except.bind] at h
  rcases hm : Include.merge provider limit inputName tokens with ⟨error | _, merged⟩
  · rw [hm] at h
    cases h
  · exact ⟨merged, rfl⟩

/-- A variable that is mentioned nowhere is unset. -/
theorem get?_of_unmentioned (ht : tokenize text limit = .ok (.ofTokens ts))
    (hm : Include.merge provider limit inputName (.ofTokens ts) = (.ok (), merged))
    (h : Compile.text text provider limit = .ok environment)
    (hunmentioned : ∀ u ∈ merged.topTokens, name ∉ u.mentions) : environment.get? name = none := by
  rw [text_of_merge ht hm] at h
  have hold := Assembly.holds_of_assemble h name
  unfold Assembly.Holds at hold
  rwa [TokenTree.declarations_flattenOverrides (Include.runs_of_merge hm).2,
    Override.lookup_survivors_of_unmentioned hunmentioned] at hold

/-- What a text compiles to when an assignment of a name that it does not mention comes behind
it. -/
theorem text_concat_iff {t : Token} {longer : String}
    (ht : tokenize text limit = .ok (.ofTokens ts))
    (hlonger : tokenize longer limit = .ok (.ofTokens (ts ++ [t])))
    (hm : Include.merge provider limit inputName (.ofTokens ts) = (.ok (), merged))
    (h : Compile.text text provider limit = .ok environment)
    (hunmentioned : ∀ u ∈ merged.topTokens, name ∉ u.mentions)
    (hl : t.label = (.assignment, name)) (hreferences : name ∉ t.references)
    (extended : Environment) :
    Compile.text longer provider limit = .ok extended ↔ ∃ value,
      t.resolve .standard (environment.lookup : Lookup Unit) = pure (some value) ∧
        extended = environment.insert name value := by
  have hk : t.kind = .assignment := (Prod.mk.inj hl).1
  obtain ⟨after, hafter, htop⟩ := Include.merge_concat (by rw [hk]; decide) hm
  have hextended : Assembly.Extended merged.flattenOverrides.declarations
      after.flattenOverrides.declarations name t := by
    rw [TokenTree.declarations_flattenOverrides (Include.runs_of_merge hm).2,
      TokenTree.declarations_flattenOverrides (Include.runs_of_merge hafter).2, htop]
    exact Override.extended_concat hunmentioned hl hreferences
  rw [text_of_merge ht hm] at h
  rw [text_of_merge hlonger hafter]
  exact Assembly.assemble_extended_iff hextended h hk extended

end Compile

theorem expand_apply {σ : Type} (value : String) (lookup : Lookup σ) (state : σ) :
    expand value lookup state =
      match tokenizeValue value with
      | .error error => (.error error, state)
      | .ok (tree, id) => (tree.subtree id).resolve .standard lookup state := by
  unfold expand
  cases tokenizeValue value <;> rfl

/-- The name of an assignment has no part in its value. -/
theorem Token.resolve_assignment {σ : Type} (table : OperatorTable) (lookup : Lookup σ)
    (before name : String) (isLength : Bool) (children : List Token) :
    (node .assignment before isLength children).resolve table lookup =
      (node .assignment name isLength children).resolve table lookup := by
  rw [resolve, resolve]

/-- Expanding a text without line breaks in the environment of a text, which ends with no more open
than one assignment, agrees with declaring it in one more line, under a name that neither mentions.
What the expansion comes to is set, and it is all that the environment gains; and if the expansion
fails, so does the compilation. -/
theorem expand_agrees_with_declaration {text name value : String} {provider : Provider} {limit : ℕ}
    {opened : Blocks} {tokens : TokenTree} {environment : Environment} (hl : 2 ≤ limit)
    (read : Tokenize.run .standard limit text.toList 0 {} text.toList = .ok opened)
    (atTop : opened.AtTop) (tokenized : tokenize text limit = .ok tokens)
    (compiled : Compile.text text provider limit = .ok environment)
    (isName : IsVariableName name)
    (line : ∀ c ∈ value.toList, Text.isLineBreak c = false)
    (unmentioned : ∀ t ∈ (Include.merge provider limit Compile.inputName tokens).2.topTokens,
      name ∉ t.mentions)
    (unreferenced : ∀ tree id, tokenizeValue value = .ok (tree, id) →
      name ∉ (tree.subtree id).references) :
    environment.get? name = none ∧
      match (expand value (environment.lookup : Lookup Unit) ()).1 with
      | .ok result => ∃ set, result = some set ∧
          Compile.text (text ++ "\n" ++ name ++ "=" ++ value) provider limit =
            .ok (environment.insert name set)
      | .error _ => ∃ error,
          Compile.text (text ++ "\n" ++ name ++ "=" ++ value) provider limit = .error error := by
  obtain rfl : .ofTokens opened.finish = tokens :=
    Except.ok.inj ((tokenize_of_run hl read).symm.trans tokenized)
  obtain ⟨merged, hm⟩ := Compile.merge_of_text tokenized compiled
  rw [hm] at unmentioned
  refine ⟨Compile.get?_of_unmentioned tokenized hm compiled unmentioned, ?_⟩
  -- the declaration is one more token, and stays behind what inclusion makes of the others
  have hdeclared := tokenize_declared hl read atTop isName line
  rw [expand_apply]
  cases hvalue : tokenizeValue value with
  | error error =>
    rw [hvalue] at hdeclared
    obtain ⟨error, herror⟩ := hdeclared
    exact ⟨error, Compile.text_of_error herror⟩
  | ok found =>
    obtain ⟨tree, id⟩ := found
    rw [hvalue] at hdeclared
    obtain ⟨before, isLength, children, hsubtree, htokens⟩ := hdeclared
    have hreferences := unreferenced tree id hvalue
    rw [hsubtree] at hreferences
    have hiff := Compile.text_concat_iff tokenized htokens hm compiled unmentioned rfl hreferences
    dsimp only
    rw [hsubtree, Token.resolve_assignment .standard _ before name]
    rcases hresult : Token.resolve .standard (environment.lookup : Lookup Unit)
      (.node .assignment name isLength children) () with ⟨error | result, ⟨⟩⟩
    · cases hc : Compile.text (declared text name value) provider limit with
      | error error => exact ⟨error, hc⟩
      | ok extended =>
        obtain ⟨set, hset, -⟩ := (hiff extended).mp hc
        rw [hset] at hresult
        cases hresult
    · have hpure : Token.resolve .standard (environment.lookup : Lookup Unit)
          (.node .assignment name isLength children) = pure result := funext fun _ => hresult
      obtain ⟨set, rfl⟩ := Token.isSome_of_resolve_assignment rfl () hpure
      exact ⟨set, rfl, (hiff _).mpr ⟨set, hpure, rfl⟩⟩

/-- The expansion of a text by the token that is read in it. -/
theorem expand_of_tokens {σ : Type} {value : String} {t : Token}
    (h : Tokenize.tokens Tokenize.defaultLimit value.toList (Blocks.assigning "")
      (value.toList.dropWhile Text.isBlank) = .ok [t]) :
    tokenizeValue value = .ok (.ofTokens [t], 1) ∧
      ∀ (lookup : Lookup σ) (state : σ),
        expand value lookup state = t.resolve .standard lookup state := by
  have hvalue : tokenizeValue value = .ok (.ofTokens [t], 1) := by
    show (Tokenize.tokens Tokenize.defaultLimit value.toList (Blocks.assigning "") _).map _ = _
    rw [h]
    rfl
  refine ⟨hvalue, fun lookup state => ?_⟩
  rw [expand_apply, hvalue]
  dsimp only
  rw [TokenTree.subtree_ofTokens_singleton]

/-- A reference to a variable of the text, and one with an operator that there is not. -/
theorem expand_agrees_with_declaration_reference :
    Compile.text "A=x" (Sources.provider []) 2 = .ok (.ofList [("A", "x")]) ∧
      Compile.text ("A=x" ++ "\n" ++ "Z" ++ "=" ++ "$\x7bA\x7d-y") (Sources.provider []) 2 =
        .ok ((Environment.ofList [("A", "x")]).insert "Z" "x-y") ∧
      ∃ error, Compile.text ("A=x" ++ "\n" ++ "Z" ++ "=" ++ "$\x7bA|y\x7d")
        (Sources.provider []) 2 = .error error := by
  have hread : Tokenize.run .standard 2 "A=x".toList 0 {} "A=x".toList =
      .ok ⟨[{ kind := .assignment, value := "A", children := [.leaf .text "x"] }], []⟩ := by cbv
  have htokenized : tokenize "A=x" 2 =
      .ok (.ofTokens [.node .assignment "A" false [.leaf .text "x"]]) :=
    TokenTree.tokenize_of_tokens (by decide +kernel)
  have hcompiled : Compile.text "A=x" (Sources.provider []) 2 = .ok (.ofList [("A", "x")]) := by cbv
  have hmerged : (Include.merge (Sources.provider []) 2 Compile.inputName
      (.ofTokens [.node .assignment "A" false [.leaf .text "x"]])).2.topTokens =
        [.node .assignment "A" false [.leaf .text "x"]] := by cbv
  have hunmentioned : ∀ t ∈ (Include.merge (Sources.provider []) 2 Compile.inputName
      (.ofTokens [.node .assignment "A" false [.leaf .text "x"]])).2.topTokens,
        "Z" ∉ t.mentions := by
    rw [hmerged]
    decide
  have hagrees := fun (value : String) (line : ∀ c ∈ value.toList, Text.isLineBreak c = false) =>
    expand_agrees_with_declaration (Nat.le_refl 2) hread (Or.inr ⟨_, rfl, rfl⟩) htokenized
      hcompiled (by decide : IsVariableName "Z") line hunmentioned
  obtain ⟨hvalue, hexpand⟩ := @expand_of_tokens Unit "$\x7bA\x7d-y"
    (.node .assignment "" false [.leaf .interpolation "A", .leaf .text "-y"]) (by decide +kernel)
  obtain ⟨hbroken, hexpand'⟩ := @expand_of_tokens Unit "$\x7bA|y\x7d"
    (.node .assignment "" false
      [.node .interpolation "A" false [.node .expression "|" false [.leaf .text "y"]]])
    (by decide +kernel)
  refine ⟨hcompiled, ?_, ?_⟩
  · have hset := (hagrees "$\x7bA\x7d-y" (by simp [Text.isLineBreak]) fun tree id h => by
      rw [hvalue] at h
      cases h
      rw [TokenTree.subtree_ofTokens_singleton]
      decide).2
    have hresult : (expand "$\x7bA\x7d-y" ((Environment.ofList [("A", "x")]).lookup : Lookup Unit)
        ()).1 = .ok (some "x-y") := by
      rw [hexpand]
      cbv
    rw [hresult] at hset
    obtain ⟨set, hsame, htext⟩ := hset
    cases hsame
    exact htext
  · have herror := (hagrees "$\x7bA|y\x7d" (by simp [Text.isLineBreak]) fun tree id h => by
      rw [hbroken] at h
      cases h
      rw [TokenTree.subtree_ofTokens_singleton]
      decide).2
    have hresult : (expand "$\x7bA|y\x7d" ((Environment.ofList [("A", "x")]).lookup : Lookup Unit)
        ()).1 = .error (.unknownOperator "A" "|") := by
      rw [hexpand']
      cbv
    rw [hresult] at herror
    exact herror

end LayeredEnv
