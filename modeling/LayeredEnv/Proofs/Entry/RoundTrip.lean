import LayeredEnv.CommandLine.Run
import LayeredEnv.Proofs.Assembly.History
import LayeredEnv.Proofs.Override.Flatten
import LayeredEnv.Proofs.Rendering.Meaning
import LayeredEnv.Proofs.Store.Graft

namespace LayeredEnv

open Render

def IsVariableName (name : String) : Prop :=
  name ≠ "" ∧ ∀ c ∈ name.toList, Text.isNameChar c = true

instance (name : String) : Decidable (IsVariableName name) :=
  decidable_of_iff (name ≠ "" ∧ name.toList.all Text.isNameChar = true) (by
    rw [IsVariableName, List.all_eq_true])

namespace Token

/-- Text in quotes; there is no token for empty text. -/
def quoted (text : String) : Token :=
  .node .quoted "" false (if text = "" then [] else [.leaf .text text])

def assigned (name value : String) : Token := .node .assignment name false [quoted value]

theorem label_assigned (name value : String) :
    (assigned name value).label = (.assignment, name) := rfl

theorem resolve_quoted {σ : Type} (table : OperatorTable) (lookup : Lookup σ) (text : String) :
    (quoted text).resolve table lookup = pure (some text) := by
  unfold quoted
  split
  · next h =>
    subst h
    simp [resolve, concat]
  · simp [resolve, concat, leaf]

/-- A literal has its value whatever the variables are. -/
theorem resolve_assigned {σ : Type} (table : OperatorTable) (lookup : Lookup σ)
    (name value : String) : (assigned name value).resolve table lookup = pure (some value) := by
  simp [assigned, resolve, concat, resolve_quoted]

theorem quoteReturns_assigned (name value : String) :
    (assigned name value).quoteReturns .main = assigned name value := by
  unfold assigned quoted
  split <;> simp [quoteReturns, quoteReturnsAll, leaf]

theorem line_assigned (name value : String) :
    line (assigned name value) = name.toList ++ '=' :: quoteChars value.toList ++ ['\n'] := by
  have hquoted : tokens .value true true [quoted value] = quoteChars value.toList := by
    rw [tokens, tokens, List.append_nil, quoted, token_quoted _ _ _ rfl]
    unfold quoteChars
    by_cases h : value = ""
    · subst h
      rfl
    · rw [if_neg h]
      show '"' :: tokens .quoted true true [_] ++ ['"'] = _
      rw [tokens, tokens, List.append_nil, token_text _ _ _ rfl]
      rfl
  show name.toList ++ '=' :: tokens .value true true [quoted value] ++ ['\n'] = _
  rw [hquoted]

/-- What has a property wherever it stands has it in a row too. -/
theorem everywhereAll_of_forall {p : Placed} {parent : Kind} {ts : List Token}
    (h : ∀ t ∈ ts, (∀ earlier, p parent earlier t) ∧ t.Everywhere p) (earlier : List Token) :
    EverywhereAll p parent earlier ts := by
  induction ts generalizing earlier with
  | nil => trivial
  | cons t ts ih =>
    rw [List.forall_mem_cons] at h
    exact ⟨h.1.1 earlier, h.1.2, ih h.2 (t :: earlier)⟩

/-- At top level, and first in a value or in quotes, only literal text outside of quotes needs more
than the right wording. -/
theorem readable_of_wording {parent : Kind} {earlier : List Token} {t : Token}
    (hp : parent = .main ∨ (earlier = [] ∧ (parent = .assignment ∨ parent = .quoted)))
    (hk : t.kind ≠ .comment ∧ t.kind ≠ .expression) (ht : t.kind = .text → parent = .quoted)
    (hl : t.isLength = false) (hm : t.kind ∈ parent.contents)
    (hw : Wording parent t.kind t.value.toList) : Readable .standard parent earlier t := by
  have hfirst : parent = .main ∨ earlier = [] := hp.imp_right And.left
  have hnot : parent ≠ .interpolation := by
    rcases hp with rfl | ⟨-, rfl | rfl⟩ <;> exact Kind.noConfusion
  have hmain : t.kind = .text → parent ≠ .main := by
    intro h
    rw [ht h]
    exact Kind.noConfusion
  have ha : Arranged .standard parent earlier t :=
    { mem := hm
      wording := hw
      mark := fun h => by
        rw [hl] at h
        cases h
      apart := fun u hu h => by
        rcases hfirst with rfl | rfl
        · exact hmain h.2 rfl
        · cases hu
      last := fun ha u hu => by
        rcases hfirst with rfl | rfl
        · cases ha
        · cases hu
      first := fun h => absurd h hnot
      cut := fun h => absurd h hk.2 }
  have hplaced : WellPlaced parent earlier t :=
    ⟨fun h => ⟨hmain h, hnot⟩, fun h => absurd h hk.1⟩
  exact ⟨ha, hplaced.legible⟩

theorem readable_preserveFlag (earlier : List Token) :
    Readable .standard .main earlier (.leaf .preserveFlag "") := by
  have hm : Kind.preserveFlag ∈ Kind.main.contents := by decide
  exact readable_of_wording (.inl rfl) ⟨Kind.noConfusion, Kind.noConfusion⟩ Kind.noConfusion rfl
    hm rfl

theorem readable_assigned {name : String} (hn : IsVariableName name) (value : String)
    (earlier : List Token) : Readable .standard .main earlier (assigned name value) := by
  have hm : Kind.assignment ∈ Kind.main.contents := by decide
  have hw : Wording .main .assignment name.toList :=
    ⟨fun he => hn.1 (String.toList_eq_nil_iff.mp he), hn.2⟩
  exact readable_of_wording (.inl rfl) ⟨Kind.noConfusion, Kind.noConfusion⟩ Kind.noConfusion rfl
    hm hw

theorem everywhere_quoted (text : String) : (quoted text).Everywhere (Readable .standard) := by
  unfold quoted
  split
  · trivial
  · next h =>
    have hm : Kind.text ∈ Kind.quoted.contents := by decide
    have hw : Wording .quoted .text text.toList :=
      ⟨fun he => h (String.toList_eq_nil_iff.mp he), fun hq => absurd rfl hq⟩
    have ht : Readable .standard .quoted [] (.leaf .text text) :=
      readable_of_wording (.inr ⟨rfl, .inr rfl⟩) ⟨Kind.noConfusion, Kind.noConfusion⟩
        (fun _ => rfl) rfl hm hw
    exact ⟨ht, trivial, trivial⟩

theorem everywhere_assigned (name value : String) :
    (assigned name value).Everywhere (Readable .standard) := by
  have hm : Kind.quoted ∈ Kind.assignment.contents := by decide
  have hq : Readable .standard .assignment [] (quoted value) :=
    readable_of_wording (.inr ⟨rfl, .inl rfl⟩) ⟨Kind.noConfusion, Kind.noConfusion⟩
      Kind.noConfusion rfl hm rfl
  exact ⟨hq, everywhere_quoted value, trivial⟩

end Token

namespace Entry

open Token

def tokens (entry : Entry) : List Token :=
  match entry.value with
  | none => []
  | some value =>
    (if entry.preserve then [.leaf .preserveFlag ""] else []) ++ [assigned entry.name value]

theorem mem_tokens {entry : Entry} {t : Token} (h : t ∈ entry.tokens) :
    t = .leaf .preserveFlag "" ∨ ∃ value, t = assigned entry.name value := by
  unfold tokens at h
  split at h
  · cases h
  · next value _ =>
    rw [List.mem_append, List.mem_singleton] at h
    rcases h with h | h
    · split at h
      · exact .inl (List.mem_singleton.mp h)
      · cases h
    · exact .inr ⟨value, h⟩

theorem lines_tokens (entry : Entry) : lines entry.tokens = entry.declaration.toList := by
  unfold tokens declaration
  cases entry.value with
  | none => rfl
  | some value =>
    dsimp only
    rw [lines, List.flatMap_append, List.flatMap_singleton, line_assigned]
    simp only [String.toList_append, quote, String.toList_ofList]
    split <;> simp [line, leaf, kind]

theorem lines_flatMap_tokens (entries : List Entry) :
    lines (entries.flatMap tokens) = (declarations entries).toList := by
  rw [declarations, String.toList_join, List.flatMap_map, lines, List.flatMap_assoc]
  exact congrArg entries.flatMap (funext lines_tokens)

/-- The text of entries is read as their tokens. -/
theorem tokenize_declarations {entries : List Entry}
    (hn : ∀ entry ∈ entries, IsVariableName entry.name) {limit : ℕ} (hl : 2 ≤ limit) :
    tokenize (declarations entries) limit = .ok (.ofTokens (entries.flatMap tokens)) := by
  have hr : EverywhereAll (Readable .standard) .main [] (entries.flatMap tokens) := by
    apply everywhereAll_of_forall
    intro t ht
    obtain ⟨entry, he, ht⟩ := List.mem_flatMap.mp ht
    rcases mem_tokens ht with rfl | ⟨value, rfl⟩
    · exact ⟨readable_preserveFlag, trivial⟩
    · exact ⟨readable_assigned (hn entry he) value, everywhere_assigned entry.name value⟩
  -- carriage returns stand in quotes already
  have hq : (entries.flatMap tokens).map (quoteReturns .main) = entries.flatMap tokens := by
    refine (List.map_congr_left fun t ht => ?_).trans (List.map_id _)
    obtain ⟨entry, -, ht⟩ := List.mem_flatMap.mp ht
    rcases mem_tokens ht with rfl | ⟨value, rfl⟩
    · exact quoteReturns_of_kind Kind.noConfusion
    · exact quoteReturns_assigned entry.name value
  have ht := tokens_lines hr hl
  rw [hq, lines_flatMap_tokens] at ht
  rw [tokenize, ht]
  rfl

def giving (entries : List Entry) (name : String) : List Entry :=
  entries.filter fun entry => entry.name == name && entry.value.isSome

/-- The value that entries come to for a name: that of the first preserved one, or else of the last
one. -/
def settled (entries : List Entry) (name : String) : Value :=
  (((giving entries name).find? (·.preserve)).or (giving entries name).getLast?).bind (·.value)

def Preserves (entries : List Entry) (name : String) : Prop :=
  ∃ entry ∈ giving entries name, entry.preserve = true

variable {entries : List Entry} {entry : Entry} {name value : String}

theorem giving_concat_of_not (h : ¬(entry.name = name ∧ entry.value.isSome)) :
    giving (entries ++ [entry]) name = giving entries name := by
  rw [giving, List.filter_append, List.filter_cons_of_neg (by simpa using h), List.filter_nil,
    List.append_nil]
  rfl

theorem giving_concat (hn : entry.name = name) (hv : entry.value = some value) :
    giving (entries ++ [entry]) name = giving entries name ++ [entry] := by
  rw [giving, List.filter_append, List.filter_cons_of_pos (by simp [hn, hv]), List.filter_nil]
  rfl

theorem settled_concat_of_preserves (h : Preserves entries name) (hn : entry.name = name)
    (hv : entry.value = some value) :
    settled (entries ++ [entry]) name = settled entries name := by
  obtain ⟨e, he, hp⟩ := h
  obtain ⟨first, hf⟩ := Option.isSome_iff_exists.mp (List.find?_isSome.mpr ⟨e, he, hp⟩)
  rw [settled, settled, giving_concat hn hv, List.find?_append, hf]
  rfl

theorem settled_concat (h : ¬Preserves entries name) (hn : entry.name = name)
    (hv : entry.value = some value) : settled (entries ++ [entry]) name = some value := by
  have hf : (giving entries name).find? (·.preserve) = none := by
    rw [List.find?_eq_none]
    intro e he hp
    exact h ⟨e, he, hp⟩
  rw [settled, giving_concat hn hv, List.find?_append, hf, Option.none_or,
    List.getLast?_concat, List.find?_singleton]
  split <;> exact hv

/-- The tokens are those of the entries: what wins among them is what the entries come to. `marked`
tells whether a preserving directive is the last token. -/
structure Reflects (tokens : List Token) (entries : List Entry) (marked : Bool) : Prop where
  ending : (tokens.map Token.label).getLast?.map (·.1) = some .preserveFlag ↔ marked = true
  preserved : ∀ name, (∃ i, Override.Preserved (tokens.map Token.label) name i) ↔
    Preserves entries name
  won : ∀ name t, Override.Won tokens name t ↔
    ∃ value, settled entries name = some value ∧ t = assigned name value

theorem Reflects.nil : Reflects [] [] false where
  ending := by simp
  preserved name := by simp [Override.Preserved, Override.Assigns, Preserves, giving]
  won name t := by simp [Override.Won, settled, giving]

/-- An entry without a value changes nothing. -/
theorem Reflects.skip {ts : List Token} {marked : Bool} (h : Reflects ts entries marked)
    (hv : entry.value = none) : Reflects ts (entries ++ [entry]) marked := by
  have hg (name : String) : giving (entries ++ [entry]) name = giving entries name :=
    giving_concat_of_not (by simp [hv])
  refine ⟨h.ending, fun name => ?_, fun name t => ?_⟩
  · rw [h.preserved, Preserves, Preserves, hg]
  · rw [h.won, settled, settled, hg]

theorem Reflects.mark {ts : List Token} (h : Reflects ts entries false) :
    Reflects (ts ++ [.leaf .preserveFlag ""]) entries true := by
  have hne (name : String) : (Token.leaf .preserveFlag "").label ≠ (.assignment, name) :=
    fun he => by cases he
  refine ⟨?_, fun name => ?_, fun name t => ?_⟩
  · rw [List.map_append, List.map_singleton, List.getLast?_concat]
    simp [Token.label, leaf, kind]
  · rw [← h.preserved, List.map_append, List.map_singleton]
    simp [Override.preserved_concat, hne]
  · rw [Override.won_concat_of_ne (hne name), h.won]

theorem Reflects.assign {ts : List Token} (h : Reflects ts entries entry.preserve)
    (hv : entry.value = some value) :
    Reflects (ts ++ [assigned entry.name value]) (entries ++ [entry]) false := by
  refine ⟨?_, fun name => ?_, fun name t => ?_⟩
  · rw [List.map_append, List.map_singleton, List.getLast?_concat]
    simp [label_assigned]
  · rw [List.map_append, List.map_singleton, label_assigned]
    simp only [Override.preserved_concat, exists_or, h.preserved, exists_eq_left, h.ending]
    by_cases hn : entry.name = name
    · rw [Preserves, Preserves, giving_concat hn hv]
      simp [hn]
    · rw [Preserves, Preserves, giving_concat_of_not fun hg => hn hg.1]
      simp [hn]
  · by_cases hn : entry.name = name
    · subst hn
      by_cases hp : Preserves entries entry.name
      · -- the winner of a preserved name is final
        rw [Override.won_concat_of_preserved ((h.preserved _).mpr hp), h.won,
          settled_concat_of_preserves hp rfl hv]
      · have hnot : ∀ i, ¬Override.Preserved (ts.map Token.label) entry.name i := by
          rwa [← h.preserved, not_exists] at hp
        rw [Override.won_concat_last hnot rfl, settled_concat hp rfl hv]
        simp
    · have hne : (assigned entry.name value).label ≠ (.assignment, name) := by
        simpa [label_assigned] using hn
      rw [Override.won_concat_of_ne hne, h.won, settled, settled,
        giving_concat_of_not fun hg => hn hg.1]

theorem Reflects.concat {ts : List Token} (h : Reflects ts entries false) (entry : Entry) :
    Reflects (ts ++ entry.tokens) (entries ++ [entry]) false := by
  unfold tokens
  cases hv : entry.value with
  | none =>
    rw [List.append_nil]
    exact h.skip hv
  | some value =>
    dsimp only
    rw [← List.append_assoc]
    cases hp : entry.preserve with
    | false =>
      rw [if_neg Bool.false_ne_true, List.append_nil]
      exact Reflects.assign (hp ▸ h) hv
    | true =>
      rw [if_pos rfl]
      exact Reflects.assign (hp ▸ h.mark) hv

theorem reflects_tokens (entries : List Entry) :
    Reflects (entries.flatMap tokens) entries false := by
  induction entries using List.reverseRecOn with
  | nil => exact .nil
  | append_singleton entries entry ih =>
    rw [List.flatMap_append, List.flatMap_singleton]
    exact ih.concat entry

end Entry

namespace Assembly

/-- Declarations whose values do not depend on variables have exactly these. -/
theorem assemble_of_literal {table : OperatorTable} {declarations : Declarations}
    {f : String → Value}
    (hsome : ∀ name token, declarations.lookup name = some token → ∃ value, f name = some value ∧
      ∀ (σ : Type) (lookup : Lookup σ), token.resolve table lookup = pure (some value))
    (hnone : ∀ name, declarations.lookup name = none → f name = none) :
    ∃ environment, assemble table declarations = .ok environment ∧
      ∀ name, environment.get? name = f name := by
  have hresolve : ∀ name ∈ declarations.names,
      ∃ value, (resolve table declarations name {}).1 = .ok value := by
    intro name _
    refine ⟨f name, ?_⟩
    rw [resolve_apply]
    show (VariableCache.settle name (compute table declarations name) _).1 = _
    unfold compute
    cases hd : declarations.lookup name with
    | none =>
      rw [hnone name hd]
      rfl
    | some token =>
      obtain ⟨value, hf, hv⟩ := hsome name token hd
      dsimp only
      rw [hv, hf]
      rfl
  have hholds (name : String) :
      Holds table declarations (fun n => pure (f n) : Lookup Unit) name (f name) := by
    unfold Holds
    cases hd : declarations.lookup name with
    | none => exact hnone name hd
    | some token =>
      obtain ⟨value, hf, hv⟩ := hsome name token hd
      dsimp only
      rw [hv, hf]
  obtain ⟨environment, he⟩ := (exists_assemble_iff table declarations).mpr hresolve
  exact ⟨environment, he, fun name => (eq_get?_of_holds he hholds name).symm⟩

end Assembly

namespace TokenTree

/-- Tokens without directives are ready for assembly once their overrides are settled. -/
theorem prepare_of_tokens {text : String} {ts : List Token} {limit : ℕ}
    (ht : tokenize text limit = .ok (.ofTokens ts)) (hk : ∀ t ∈ ts, t.kind ≠ .includeFlag)
    (origin : String) (provider : Provider) :
    ∃ tree, Compile.prepare text origin provider limit = .ok tree ∧
      tree.declarations = .ofTokens (Override.survivors Token.label ts) := by
  have hkind : ∀ id ∈ (ofTokens ts).topLevel, (ofTokens ts).kind id ≠ .includeFlag := by
    intro id hid
    have hm : (ofTokens ts).subtree id ∈ (ofTokens ts).topTokens := List.mem_map_of_mem hid
    rw [topTokens_ofTokens] at hm
    rw [← kind_subtree]
    exact hk _ hm
  have hroot : (ofTokens ts).kind root = .main := by
    rw [← kind_subtree]
    show (ofTokens ts).token.kind = .main
    rw [token_ofTokens]
    rfl
  have hc := closed_ofTokens ts
  have htop : ((ofTokens ts).setTopLevel (ofTokens ts).topLevel).topTokens = ts := by
    have hids : ∀ id ∈ (ofTokens ts).topLevel, root < id := fun id hid => (hc.inside root id hid).1
    rw [topTokens_setTopLevel hc hids]
    exact topTokens_ofTokens ts
  refine ⟨((ofTokens ts).setTopLevel (ofTokens ts).topLevel).flattenOverrides, ?_, ?_⟩
  · have hmerge : Include.merge provider limit origin (ofTokens ts) = _ :=
      Include.merge_of_forall_ne hkind
    simp only [Compile.prepare, ht, bind, Except.bind, hmerge]
    rfl
  · rw [declarations_flattenOverrides (by rw [kind_setTopLevel, hroot]), htop]

end TokenTree

namespace Entry

open Token

/-- The text of entries compiles to the values that they come to. -/
theorem text_declarations {entries : List Entry}
    (hn : ∀ entry ∈ entries, IsVariableName entry.name) (provider : Provider) {limit : ℕ}
    (hl : 2 ≤ limit) :
    ∃ environment, Compile.text (declarations entries) provider limit = .ok environment ∧
      ∀ name, environment.get? name = settled entries name := by
  have hkind : ∀ t ∈ entries.flatMap tokens, t.kind ≠ .includeFlag := by
    intro t ht
    obtain ⟨entry, -, ht⟩ := List.mem_flatMap.mp ht
    rcases mem_tokens ht with rfl | ⟨value, rfl⟩ <;> exact Kind.noConfusion
  obtain ⟨tree, hprepare, hdeclarations⟩ :=
    TokenTree.prepare_of_tokens (tokenize_declarations hn hl) hkind Compile.inputName provider
  have hlookup : ∀ name token, tree.declarations.lookup name = some token ↔
      ∃ value, settled entries name = some value ∧ token = assigned name value := by
    intro name token
    rw [hdeclarations, Override.lookup_survivors_iff, (reflects_tokens entries).won]
  have hassemble : ∃ environment,
      Assembly.assemble .standard tree.declarations = .ok environment ∧
        ∀ name, environment.get? name = settled entries name := by
    apply Assembly.assemble_of_literal
    · intro name token hd
      obtain ⟨value, hs, rfl⟩ := (hlookup name token).mp hd
      exact ⟨value, hs, fun _ lookup => resolve_assigned .standard lookup name value⟩
    · intro name hd
      refine Option.eq_none_iff_forall_ne_some.mpr fun value hs => ?_
      have hsome := (hlookup name _).mpr ⟨value, hs, rfl⟩
      rw [hd] at hsome
      cases hsome
  obtain ⟨environment, he, hget⟩ := hassemble
  refine ⟨environment, ?_, hget⟩
  rw [Compile.text, Compile.source, hprepare]
  exact he

def ofEnvironment (environment : Environment) : List Entry :=
  environment.bindings.map fun (name, value) => { name, value := some value, preserve := false }

theorem printed_dotenv (environment : Environment) :
    CommandLine.printed environment .dotenv = .ok (declarations (ofEnvironment environment)) := by
  rw [declarations, ofEnvironment, List.map_map]
  rfl

/-- Entries of different names come to what each gives. -/
theorem settled_ofEnvironment (environment : Environment) (name : String) :
    settled (ofEnvironment environment) name = environment.get? name := by
  have hmem (entry : Entry) : entry ∈ giving (ofEnvironment environment) name ↔
      ∃ value, environment.get? name = some value ∧ entry = ⟨name, some value, false⟩ := by
    rw [giving, ofEnvironment, List.mem_filter, List.mem_map]
    constructor
    · rintro ⟨⟨⟨n, value⟩, hb, rfl⟩, h⟩
      obtain rfl : n = name := by simpa using h
      exact ⟨value, Environment.get?_eq_some_iff.mpr hb, rfl⟩
    · rintro ⟨value, hget, rfl⟩
      exact ⟨⟨(name, value), Environment.get?_eq_some_iff.mp hget, rfl⟩, by simp⟩
  -- nothing is preserved, so that the last entry counts, which is the only one
  have hpreserve : (giving (ofEnvironment environment) name).find? (·.preserve) = none := by
    rw [List.find?_eq_none]
    intro entry he
    obtain ⟨value, -, rfl⟩ := (hmem entry).mp he
    exact Bool.false_ne_true
  rw [settled, hpreserve, Option.none_or]
  cases hl : (giving (ofEnvironment environment) name).getLast? with
  | none =>
    rw [List.getLast?_eq_none_iff] at hl
    refine (Option.eq_none_iff_forall_ne_some.mpr fun value hget => ?_).symm
    have he := (hmem _).mpr ⟨value, hget, rfl⟩
    rw [hl] at he
    cases he
  | some entry =>
    obtain ⟨value, hget, rfl⟩ := (hmem entry).mp (List.mem_of_getLast? hl)
    exact hget.symm

/-- What is written of literal variables compiles back to them, with any provider. Entries with
colliding names come to the value that counts, whatever characters the values consist of; and the
printed form of an environment compiles to the environment. -/
theorem compile_returns_literals (provider : Provider) {limit : ℕ} (hl : 2 ≤ limit) :
    (∀ entries : List Entry, (∀ entry ∈ entries, IsVariableName entry.name) →
      ∃ environment, Compile.text (declarations entries) provider limit = .ok environment ∧
        ∀ name, environment.get? name = settled entries name) ∧
    ∀ environment : Environment, (∀ name ∈ environment.names, IsVariableName name) →
      ∃ text, CommandLine.printed environment .dotenv = .ok text ∧
        Compile.text text provider limit = .ok environment := by
  refine ⟨fun entries hn => text_declarations hn provider hl, fun environment hn => ?_⟩
  have hnames : ∀ entry ∈ ofEnvironment environment, IsVariableName entry.name := by
    intro entry he
    obtain ⟨binding, hb, rfl⟩ := List.mem_map.mp he
    exact hn binding.1 (List.mem_map_of_mem hb)
  obtain ⟨compiled, hc, hget⟩ := text_declarations hnames provider hl
  have heq : compiled = environment := by
    refine Environment.eq_of_get?_eq fun name => ?_
    rw [hget, settled_ofEnvironment]
  exact ⟨_, printed_dotenv environment, heq ▸ hc⟩

/-- Three values for `A`, of which the second is preserved and looks like declarations, and two
entries for `B`, of which one is unset. -/
def collidingEntries : List Entry :=
  [⟨"A", some "first", false⟩, ⟨"A", some "\"\n#/preserve\r\nB=$\x7bA\x7d\\", true⟩,
    ⟨"B", some "", false⟩, ⟨"A", some "last", false⟩, ⟨"B", none, true⟩]

theorem compile_returns_literals_collision :
    (∀ entry ∈ collidingEntries, IsVariableName entry.name) ∧
      (∃ environment,
        Compile.text (declarations collidingEntries) (Sources.provider []) 2 = .ok environment ∧
          environment.get? "A" = some "\"\n#/preserve\r\nB=$\x7bA\x7d\\" ∧
          environment.get? "B" = some "" ∧ environment.get? "C" = none) ∧
      ∃ text, CommandLine.printed (.ofList [("A", "\"\r\n"), ("B", "")]) .dotenv = .ok text ∧
        Compile.text text (Sources.provider []) 2 = .ok (.ofList [("A", "\"\r\n"), ("B", "")]) := by
  have ha : IsVariableName "A" := by decide
  have hb : IsVariableName "B" := by decide
  have hn : ∀ entry ∈ collidingEntries, IsVariableName entry.name := by
    simp [collidingEntries, ha, hb]
  have hnames : ∀ name ∈ (Environment.ofList [("A", "\"\r\n"), ("B", "")]).names,
      IsVariableName name := by
    have hlist : (Environment.ofList [("A", "\"\r\n"), ("B", "")]).names = ["A", "B"] := by decide
    simp [hlist, ha, hb]
  obtain ⟨hentries, henvironment⟩ :=
    compile_returns_literals (Sources.provider []) (Nat.le_refl 2)
  obtain ⟨environment, hc, hget⟩ := hentries collidingEntries hn
  refine ⟨hn, ⟨environment, hc, ?_, ?_, ?_⟩, henvironment _ hnames⟩
  · rw [hget]
    rfl
  · rw [hget]
    rfl
  · rw [hget]
    rfl

end Entry
end LayeredEnv
