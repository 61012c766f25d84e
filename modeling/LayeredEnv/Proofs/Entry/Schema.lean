import LayeredEnv.Entry
import Mathlib.Data.List.Forall2

namespace LayeredEnv

section Traversal

variable {α β ε : Type} {f : α → Except ε β} {items : List α}

theorem mapM_cons_ok_iff {item : α} {values : List β} :
    (item :: items).mapM f = .ok values ↔
      ∃ value rest, f item = .ok value ∧ items.mapM f = .ok rest ∧ values = value :: rest := by
  rw [List.mapM_cons]
  cases hitem : f item with
  | error e => simp [bind, Except.bind]
  | ok value =>
    cases hitems : items.mapM f with
    | error e => simp [bind, Except.bind]
    | ok rest => simp [bind, Except.bind, pure, Except.pure, eq_comm]

theorem mapM_cons_error_iff {item : α} {e : ε} :
    (item :: items).mapM f = .error e ↔
      f item = .error e ∨ (∃ value, f item = .ok value) ∧ items.mapM f = .error e := by
  rw [List.mapM_cons]
  cases hitem : f item with
  | error failure => simp [bind, Except.bind]
  | ok value =>
    cases hitems : items.mapM f with
    | error failure => simp [bind, Except.bind]
    | ok rest => simp [bind, Except.bind, pure, Except.pure]

/-- All items are taken, each by itself. -/
theorem mapM_eq_ok_iff {values : List β} :
    items.mapM f = .ok values ↔ List.Forall₂ (fun item value => f item = .ok value) items values := by
  induction items generalizing values with
  | nil =>
    rw [List.forall₂_nil_left_iff]
    constructor
    · intro h
      cases h
      rfl
    · rintro rfl
      rfl
  | cons item items ih =>
    rw [mapM_cons_ok_iff, List.forall₂_cons_left_iff]
    simp only [ih]

/-- The first item that is refused decides the error. -/
theorem mapM_eq_error_iff {e : ε} :
    items.mapM f = .error e ↔ ∃ before item after, items = before ++ item :: after ∧
      (∀ earlier ∈ before, ∃ value, f earlier = .ok value) ∧ f item = .error e := by
  induction items with
  | nil =>
    refine iff_of_false (fun h => by cases h) ?_
    rintro ⟨before, item, after, h, -⟩
    exact List.append_ne_nil_of_right_ne_nil before (List.cons_ne_nil item after) h.symm
  | cons item items ih =>
    rw [mapM_cons_error_iff, ih]
    constructor
    · rintro (h | ⟨hitem, before, found, after, rfl, hbefore, hfound⟩)
      · exact ⟨[], item, items, rfl, fun _ h => absurd h List.not_mem_nil, h⟩
      · exact ⟨item :: before, found, after, rfl, List.forall_mem_cons.mpr ⟨hitem, hbefore⟩, hfound⟩
    · rintro ⟨_ | ⟨first, before⟩, found, after, h, hbefore, hfound⟩
      · cases h
        exact Or.inl hfound
      · cases h
        obtain ⟨hfirst, hbefore⟩ := List.forall_mem_cons.mp hbefore
        exact Or.inr ⟨hfirst, before, found, after, rfl, hbefore, hfound⟩

end Traversal

namespace Entry

variable {upper : Char → List Char} {key name : String} {json : Json} {value : Value}
  {preserve : Bool} {members : List (String × Json)}

/-- The function makes characters upper-case, as far as variable names can tell: a character has the
form that `upperName?` gives, or one with a character in it that no variable name has. -/
def Uppercases (upper : Char → List Char) : Prop :=
  ∀ c, match upperName? c with
    | some form => upper c = form
    | none => ∃ d ∈ upper c, Text.isNameChar d = false

structure Spells (upper : Char → List Char) (key name : String) : Prop where
  toList_eq : name.toList = key.toList.flatMap upper
  ne_empty : name ≠ ""
  isNameChar : ∀ c ∈ name.toList, Text.isNameChar c = true

inductive IsText : Json → Value → Prop
  | string (text : String) : IsText (.string text) (some text)
  | null : IsText .null none

inductive IsMark : Option Json → Bool → Prop
  | missing : IsMark none false
  | given (b : Bool) : IsMark (some (.bool b)) b

/-- What the schema has for a member. -/
inductive Conforms : Json → Value → Bool → Prop
  | string (text : String) : Conforms (.string text) (some text) false
  | object {members : List (String × Json)} {json : Json} {value : Value} {preserve : Bool}
    (hv : members.lookup "value" = some json) (ht : IsText json value)
    (hp : IsMark (members.lookup "preserve") preserve) : Conforms (.object members) value preserve

/-- An object that has no `value`, though it may have a mark. -/
inductive LacksValue : Json → Bool → Prop
  | object {members : List (String × Json)} {preserve : Bool} (hv : members.lookup "value" = none)
    (hp : IsMark (members.lookup "preserve") preserve) : LacksValue (.object members) preserve

def Accepted (json : Json) (value : Value) (preserve : Bool) : Prop :=
  Conforms json value preserve ∨ value = none ∧ LacksValue json preserve

theorem Conforms.not_lacksValue (h : Conforms json value preserve) (other : Bool) :
    ¬LacksValue json other := by
  rintro ⟨hv, -⟩
  cases h with
  | object hv' =>
    rw [hv] at hv'
    cases hv'

theorem conforms_of_accepted (h : Accepted json value preserve)
    (hl : ∀ preserve, ¬LacksValue json preserve) : Conforms json value preserve :=
  h.resolve_right fun h => hl preserve h.2

theorem isNameChar_toUpper {c : Char} (h : Text.isLower c = true) :
    Text.isNameChar c.toUpper = true := by
  have hletters : ∀ n : Fin 26, Text.isNameChar (Char.ofNat (97 + n)).toUpper = true := by decide
  obtain ⟨hlow, hhigh⟩ : 97 ≤ c.toNat ∧ c.toNat ≤ 122 := by
    simpa [Text.isLower, Char.le_def, UInt32.le_iff_toNat_le] using h
  have hc : c = Char.ofNat (97 + (c.toNat - 97)) := by
    rw [Nat.add_sub_cancel' hlow, Char.ofNat_toNat]
  rw [hc]
  exact hletters ⟨c.toNat - 97, by omega⟩

theorem isNameChar_of_upperName? {c : Char} {form : List Char} (h : upperName? c = some form) :
    form ≠ [] ∧ ∀ d ∈ form, Text.isNameChar d = true := by
  unfold upperName? at h
  split at h
  · next hc =>
    cases h
    exact ⟨List.cons_ne_nil _ _, fun d hd => by rwa [List.mem_singleton.mp hd]⟩
  · split at h
    · next hc =>
      cases h
      refine ⟨List.cons_ne_nil _ _, fun d hd => ?_⟩
      rw [List.mem_singleton.mp hd]
      exact isNameChar_toUpper hc
    · split at h <;> cases h <;> exact ⟨List.cons_ne_nil _ _, List.all_eq_true.mp rfl⟩

theorem upperName?_eq_some_iff (hu : Uppercases upper) {c : Char} {form : List Char} :
    upperName? c = some form ↔ form = upper c ∧ ∀ d ∈ upper c, Text.isNameChar d = true := by
  have hc := hu c
  cases hform : upperName? c with
  | none =>
    rw [hform] at hc
    obtain ⟨d, hd, hnot⟩ := hc
    refine iff_of_false (fun h => by cases h) fun h => ?_
    rw [h.2 d hd] at hnot
    cases hnot
  | some found =>
    rw [hform] at hc
    rw [hc, Option.some.injEq, eq_comm]
    exact (and_iff_left (isNameChar_of_upperName? hform).2).symm

theorem mapM_upperName?_eq_some_iff (hu : Uppercases upper) {cs : List Char}
    {forms : List (List Char)} :
    cs.mapM upperName? = some forms ↔
      forms = cs.map upper ∧ ∀ d ∈ cs.flatMap upper, Text.isNameChar d = true := by
  induction cs generalizing forms with
  | nil =>
    rw [List.mapM_nil, Option.pure_def, Option.some.injEq, eq_comm]
    exact (and_iff_left fun d hd => absurd hd List.not_mem_nil).symm
  | cons c cs ih =>
    -- each character gives one form, and the forms are the text in upper case when joined
    simp only [List.mapM_cons, Option.bind_eq_bind, Option.bind_eq_some_iff, Option.pure_def,
      Option.some.injEq, upperName?_eq_some_iff hu, ih, List.map_cons, List.flatMap_cons,
      List.forall_mem_append]
    constructor
    · rintro ⟨_, ⟨rfl, hc⟩, _, ⟨rfl, hcs⟩, rfl⟩
      exact ⟨rfl, hc, hcs⟩
    · rintro ⟨rfl, hc, hcs⟩
      exact ⟨_, ⟨rfl, hc⟩, _, ⟨rfl, hcs⟩, rfl⟩

/-- Nothing but the empty key is empty in upper case. -/
theorem flatMap_ne_nil (hu : Uppercases upper) {cs : List Char} (hcs : cs ≠ []) :
    cs.flatMap upper ≠ [] := by
  obtain ⟨c, cs, rfl⟩ := List.exists_cons_of_ne_nil hcs
  have hc := hu c
  rw [List.flatMap_cons]
  refine List.append_ne_nil_of_left_ne_nil ?_ _
  cases hform : upperName? c with
  | none =>
    rw [hform] at hc
    obtain ⟨d, hd, -⟩ := hc
    exact List.ne_nil_of_mem hd
  | some form =>
    rw [hform] at hc
    rw [hc]
    exact (isNameChar_of_upperName? hform).1

/-- The name that a key is read as is its upper-case form. -/
theorem variableName?_eq_some_iff (hu : Uppercases upper) :
    variableName? key = some name ↔ Spells upper key name := by
  unfold variableName?
  constructor
  · intro h
    split at h
    · next forms hforms =>
      obtain ⟨rfl, hchars⟩ := (mapM_upperName?_eq_some_iff hu).mp hforms
      split at h
      · cases h
      · next hne =>
        cases h
        rw [← List.flatMap_def] at *
        have hkey : key.toList ≠ [] := by simpa using hne
        refine ⟨String.toList_ofList, fun he => ?_, ?_⟩
        · exact flatMap_ne_nil hu hkey (by simpa using he)
        · rwa [String.toList_ofList]
    · cases h
  · rintro ⟨hname, hne, hchars⟩
    rw [hname] at hchars
    have hkey : key.toList ≠ [] := by
      intro hk
      rw [hk, List.flatMap_nil, String.toList_eq_nil_iff] at hname
      exact hne hname
    rw [(mapM_upperName?_eq_some_iff hu).mpr ⟨rfl, hchars⟩]
    simp [hkey, ← List.flatMap_def, ← hname]

/-- The mark goes with the value that was read before it. -/
theorem mark_eq_some_iff {found : Option Json} {text : Value} :
    (do
      let preserve ← match found with
        | none => some false
        | some (.bool b) => some b
        | some _ => none
      return (text, preserve)) = some (value, preserve) ↔ text = value ∧ IsMark found preserve := by
  constructor
  · intro h
    split at h <;> cases h
    · exact ⟨rfl, .missing⟩
    · exact ⟨rfl, .given _⟩
  · rintro ⟨rfl, hp⟩
    cases hp <;> rfl

theorem content?_eq_some_iff :
    content? json = some (value, preserve) ↔ Accepted json value preserve := by
  cases json with
  | string text =>
    constructor
    · intro h
      cases h
      exact Or.inl (.string text)
    · rintro (h | ⟨-, h⟩) <;> cases h
      rfl
  | object members =>
    unfold content?
    constructor
    · intro h
      simp only at h
      split at h
      · next hv =>
        obtain ⟨rfl, hp⟩ := mark_eq_some_iff.mp h
        exact Or.inr ⟨rfl, hv, hp⟩
      · next hv =>
        obtain ⟨rfl, hp⟩ := mark_eq_some_iff.mp h
        exact Or.inl (.object hv .null hp)
      · next hv =>
        obtain ⟨rfl, hp⟩ := mark_eq_some_iff.mp h
        exact Or.inl (.object hv (.string _) hp)
      · cases h
    · rintro (h | ⟨rfl, h⟩)
      · cases h with
        | object hv ht hp =>
          simp only [hv]
          cases ht <;> exact mark_eq_some_iff.mpr ⟨rfl, hp⟩
      · cases h with
        | object hv hp =>
          simp only [hv]
          exact mark_eq_some_iff.mpr ⟨rfl, hp⟩
  | null | bool | number | array =>
    refine iff_of_false (fun h => by cases h) ?_
    rintro (h | ⟨-, h⟩) <;> cases h

/-- The entry is read for the member, if values declare what `declares` says. -/
structure ReadsAs (upper : Char → List Char) (declares : Json → Value → Bool → Prop)
    (member : String × Json) (entry : Entry) : Prop where
  name : Spells upper member.1 entry.name
  content : declares member.2 entry.value entry.preserve

/-- What is wrong with a member, the key being looked at before the value. -/
inductive Offends (upper : Char → List Char) (declares : Json → Value → Bool → Prop)
    (file : String) : String × Json → Error → Prop
  | key {key : String} {json : Json} (h : ∀ name, ¬Spells upper key name) :
    Offends upper declares file (key, json)
      (.malformedFile file ("invalid variable name \"" ++ key ++ "\""))
  | value {key name : String} {json : Json} (hn : Spells upper key name)
    (h : ∀ value preserve, ¬declares json value preserve) :
    Offends upper declares file (key, json) (.malformedFile file
      ("\"" ++ key ++ "\": data did not match any variant of untagged enum RawEntry"))

/-- The members are read by a schema: all of them in order, or up to the first that offends. -/
structure Follows (upper : Char → List Char) (declares : Json → Value → Bool → Prop) (file : String)
    (members : List (String × Json)) (result : Except Error (List Entry)) : Prop where
  ok_iff : ∀ entries, result = .ok entries ↔ List.Forall₂ (ReadsAs upper declares) members entries
  error_iff : ∀ e, result = .error e ↔ ∃ before member after, members = before ++ member :: after ∧
    (∀ earlier ∈ before, ∃ entry, ReadsAs upper declares earlier entry) ∧
    Offends upper declares file member e

variable {file : String}

theorem ofMember_eq_ok_iff (hu : Uppercases upper) {member : String × Json} {entry : Entry} :
    ofMember file member.1 member.2 = .ok entry ↔ ReadsAs upper Accepted member entry := by
  obtain ⟨key, json⟩ := member
  obtain ⟨name, value, preserve⟩ := entry
  unfold ofMember
  constructor
  · intro h
    split at h
    · cases h
    · next hname =>
      split at h
      · cases h
      · next hcontent =>
        cases h
        exact ⟨(variableName?_eq_some_iff hu).mp hname, content?_eq_some_iff.mp hcontent⟩
  · rintro ⟨hname, hcontent⟩
    rw [(variableName?_eq_some_iff hu).mpr hname, content?_eq_some_iff.mpr hcontent]

theorem ofMember_eq_error_iff (hu : Uppercases upper) {member : String × Json} {e : Error} :
    ofMember file member.1 member.2 = .error e ↔ Offends upper Accepted file member e := by
  obtain ⟨key, json⟩ := member
  unfold ofMember
  constructor
  · intro h
    split at h
    · next hname =>
      cases h
      refine .key fun name hs => ?_
      rw [(variableName?_eq_some_iff hu).mpr hs] at hname
      cases hname
    · next name hname =>
      split at h
      · next hcontent =>
        cases h
        refine .value ((variableName?_eq_some_iff hu).mp hname) fun value preserve ha => ?_
        rw [content?_eq_some_iff.mpr ha] at hcontent
        cases hcontent
      · cases h
  · rintro (h | ⟨hname, h⟩)
    · have hnone : variableName? key = none := Option.eq_none_iff_forall_ne_some.mpr fun name hs =>
        h name ((variableName?_eq_some_iff hu).mp hs)
      simp only [hnone]
    · have hnone : content? json = none := Option.eq_none_iff_forall_ne_some.mpr fun found hs =>
        h found.1 found.2 (content?_eq_some_iff.mp hs)
      simp only [(variableName?_eq_some_iff hu).mpr hname, hnone]

theorem follows_of_parse? (hu : Uppercases upper) {content : String}
    {complaint : String → String} (hp : Json.parse? content = some (.object members)) :
    Follows upper Accepted file members (ofJson content file complaint) := by
  have hread : ofJson content file complaint =
      members.mapM fun member => ofMember file member.1 member.2 := by
    rw [ofJson, hp]
  rw [hread]
  constructor
  · intro entries
    simp only [mapM_eq_ok_iff, ofMember_eq_ok_iff hu]
  · intro e
    simp only [mapM_eq_error_iff, ofMember_eq_ok_iff hu, ofMember_eq_error_iff hu]

/-- It only matters what the values of the members declare. -/
theorem Follows.congr {declares declares' : Json → Value → Bool → Prop}
    {result : Except Error (List Entry)} (h : Follows upper declares file members result)
    (hd : ∀ member ∈ members, ∀ value preserve,
      declares member.2 value preserve ↔ declares' member.2 value preserve) :
    Follows upper declares' file members result := by
  have hreads : ∀ member ∈ members, ∀ entry,
      ReadsAs upper declares member entry ↔ ReadsAs upper declares' member entry :=
    fun member hm entry => ⟨fun hr => ⟨hr.name, (hd member hm _ _).mp hr.content⟩,
      fun hr => ⟨hr.name, (hd member hm _ _).mpr hr.content⟩⟩
  have hoffends : ∀ member ∈ members, ∀ e,
      Offends upper declares file member e ↔ Offends upper declares' file member e := by
    intro member hm e
    constructor
    · rintro (hkey | ⟨hkey, hvalue⟩)
      · exact .key hkey
      · exact .value hkey fun value preserve ha => hvalue value preserve ((hd _ hm _ _).mpr ha)
    · rintro (hkey | ⟨hkey, hvalue⟩)
      · exact .key hkey
      · exact .value hkey fun value preserve ha => hvalue value preserve ((hd _ hm _ _).mp ha)
  constructor
  · intro entries
    rw [h.ok_iff, List.forall₂_iff_zip, List.forall₂_iff_zip]
    refine and_congr_right fun _ => ⟨fun hr member entry hm => ?_, fun hr member entry hm => ?_⟩
    · exact (hreads member (List.of_mem_zip hm).1 entry).mp (hr hm)
    · exact (hreads member (List.of_mem_zip hm).1 entry).mpr (hr hm)
  · intro e
    rw [h.error_iff]
    refine exists_congr fun before => exists_congr fun member => exists_congr fun after =>
      and_congr_right ?_
    rintro rfl
    refine and_congr (forall₂_congr fun earlier hm => exists_congr fun entry => ?_) ?_
    · exact hreads earlier (List.mem_append_left _ hm) entry
    · exact hoffends member (List.mem_append_right _ List.mem_cons_self) e

/-- The schema has what is read, but for objects without a `value`. -/
theorem readsAs_conforms_iff {member : String × Json} {entry : Entry} :
    ReadsAs upper Conforms member entry ↔
      (∀ preserve, ¬LacksValue member.2 preserve) ∧ ReadsAs upper Accepted member entry := by
  constructor
  · rintro ⟨hname, hcontent⟩
    exact ⟨hcontent.not_lacksValue, hname, Or.inl hcontent⟩
  · rintro ⟨hl, hname, hcontent⟩
    exact ⟨hname, conforms_of_accepted hcontent hl⟩

/-- A JSON object is read by its schema, to which an object without a `value` is added: the entries
are those of its members in order, or the first member that offends is refused. So it is the schema
itself that is followed where no member is such an object. -/
theorem ofJson_schema (hu : Uppercases upper) {content : String}
    (hp : Json.parse? content = some (.object members)) (file : String)
    (complaint : String → String) :
    Follows upper Accepted file members (ofJson content file complaint) ∧
      ((∀ member ∈ members, ∀ preserve, ¬LacksValue member.2 preserve) →
        Follows upper Conforms file members (ofJson content file complaint)) ∧
      ∀ entries, List.Forall₂ (ReadsAs upper Conforms) members entries ↔
        (∀ member ∈ members, ∀ preserve, ¬LacksValue member.2 preserve) ∧
          ofJson content file complaint = .ok entries := by
  have hfollows : Follows upper Accepted file members (ofJson content file complaint) :=
    follows_of_parse? hu hp
  refine ⟨hfollows, fun hl => hfollows.congr fun member hm value preserve => ?_, fun entries => ?_⟩
  · exact ⟨fun ha => conforms_of_accepted ha (hl member hm), Or.inl⟩
  · rw [hfollows.ok_iff, ← List.forall₂_and_left]
    exact ⟨List.Forall₂.imp fun _ _ => readsAs_conforms_iff.mp,
      List.Forall₂.imp fun _ _ => readsAs_conforms_iff.mpr⟩

theorem uppercases_getD : Uppercases fun c => (upperName? c).getD [c] := by
  intro c
  simp only
  cases hform : upperName? c with
  | some form => rfl
  | none =>
    refine ⟨c, List.mem_singleton_self c, ?_⟩
    unfold upperName? at hform
    split at hform
    · cases hform
    · next hc => exact eq_false_of_ne_true hc

theorem ofJson_schema_twoMembers :
    Uppercases (fun c => (upperName? c).getD [c]) ∧
      Json.parse? "\x7b\"a\":\"x\",\"B\":\x7b\"value\":null,\"preserve\":true\x7d\x7d" = some (.object
        [("a", .string "x"), ("B", .object [("value", .null), ("preserve", .bool true)])]) ∧
      (∀ member ∈ [("a", Json.string "x"),
          ("B", .object [("value", .null), ("preserve", .bool true)])],
        ∀ preserve, ¬LacksValue member.2 preserve) ∧
      Follows (fun c => (upperName? c).getD [c]) Conforms "env.json"
        [("a", .string "x"), ("B", .object [("value", .null), ("preserve", .bool true)])]
        (ofJson "\x7b\"a\":\"x\",\"B\":\x7b\"value\":null,\"preserve\":true\x7d\x7d" "env.json") := by
  have hp : Json.parse? "\x7b\"a\":\"x\",\"B\":\x7b\"value\":null,\"preserve\":true\x7d\x7d" =
      some (.object
        [("a", .string "x"), ("B", .object [("value", .null), ("preserve", .bool true)])]) := by cbv
  have hb : Conforms (.object [("value", .null), ("preserve", .bool true)]) none true :=
    .object rfl .null (.given true)
  have hl : ∀ member ∈ [("a", Json.string "x"),
      ("B", .object [("value", .null), ("preserve", .bool true)])],
      ∀ preserve, ¬LacksValue member.2 preserve := by
    rw [List.forall_mem_cons, List.forall_mem_singleton]
    exact ⟨(Conforms.string "x").not_lacksValue, hb.not_lacksValue⟩
  exact ⟨uppercases_getD, hp, hl, (ofJson_schema uppercases_getD hp "env.json" notAnObject).2.1 hl⟩

/-- The schema has no object without a `value`, but one is read. -/
theorem ofJson_accepts_missingValue :
    Json.parse? "\x7b\"A\": \x7b\x7d\x7d" = some (.object [("A", .object [])]) ∧
      ofJson "\x7b\"A\": \x7b\x7d\x7d" "env.json" = .ok [⟨"A", none, false⟩] ∧
      ∀ value preserve, ¬Conforms (.object []) value preserve := by
  have hp : Json.parse? "\x7b\"A\": \x7b\x7d\x7d" = some (.object [("A", .object [])]) := by cbv
  refine ⟨hp, ?_, fun value preserve h => h.not_lacksValue false (.object rfl .missing)⟩
  rw [ofJson, hp]
  rfl

end Entry

end LayeredEnv
