import LayeredEnv.Loader
import LayeredEnv.Proofs.Entry.Schema

namespace LayeredEnv

namespace Entry

/-- The text declares the entries in order. Those without a value are left out, and a mark comes on
the line before its variable. -/
inductive Declares : List Entry → String → Prop
  | nil : Declares [] ""
  | unset {name text : String} {preserve : Bool} {entries : List Entry}
    (rest : Declares entries text) : Declares (⟨name, none, preserve⟩ :: entries) text
  | plain {name value text : String} {entries : List Entry} (rest : Declares entries text) :
    Declares (⟨name, some value, false⟩ :: entries) (name ++ "=" ++ quote value ++ "\n" ++ text)
  | preserved {name value text : String} {entries : List Entry} (rest : Declares entries text) :
    Declares (⟨name, some value, true⟩ :: entries)
      ("#/preserve\n" ++ name ++ "=" ++ quote value ++ "\n" ++ text)

theorem declarations_cons (entry : Entry) (entries : List Entry) :
    declarations (entry :: entries) = entry.declaration ++ declarations entries := by
  rw [declarations, List.map_cons, String.join_cons, declarations]

theorem declares_declarations (entries : List Entry) : Declares entries (declarations entries) := by
  induction entries with
  | nil => exact .nil
  | cons entry entries ih =>
    rw [declarations_cons]
    match entry with
    | ⟨_, none, _⟩ => simpa [declaration] using Declares.unset ih
    | ⟨_, some _, false⟩ => simpa [declaration] using Declares.plain ih
    | ⟨_, some _, true⟩ => simpa [declaration] using Declares.preserved ih

theorem declares_iff {entries : List Entry} {text : String} :
    Declares entries text ↔ text = declarations entries := by
  constructor
  · intro h
    induction h with
    | nil => rfl
    | unset rest ih | plain rest ih | preserved rest ih =>
      simp [declarations_cons, declaration, ← ih]
  · rintro rfl
    exact declares_declarations entries

theorem ofJson_noObject {content : String} (file : String) (complaint : String → String)
    (parsed : ∀ members, Json.parse? content ≠ some (.object members)) :
    ofJson content file complaint = .error (.malformedFile file (complaint content)) := by
  rw [ofJson]
  split
  · next members hp => exact absurd hp (parsed members)
  · rfl

end Entry

namespace Format

/-- What the content of a file is converted to: plain declarations are taken as they are, and the
entries of a JSON object are declared if no member offends. -/
inductive Converts (upper : Char → List Char) (complaint : String → String)
    (file content : String) : Format → Except Error String → Prop
  | text : Converts upper complaint file content .classic (.ok content)
  | entries {members : List (String × Json)} {entries : List Entry} {text : String}
    (parsed : Json.parse? content = some (.object members))
    (read : List.Forall₂ (Entry.ReadsAs upper Entry.Accepted) members entries)
    (declares : Entry.Declares entries text) :
    Converts upper complaint file content .json (.ok text)
  | member {before after : List (String × Json)} {member : String × Json} {e : Error}
    (parsed : Json.parse? content = some (.object (before ++ member :: after)))
    (read : ∀ earlier ∈ before, ∃ entry, Entry.ReadsAs upper Entry.Accepted earlier entry)
    (offends : Entry.Offends upper Entry.Accepted file member e) :
    Converts upper complaint file content .json (.error e)
  | noObject (parsed : ∀ members, Json.parse? content ≠ some (.object members)) :
    Converts upper complaint file content .json (.error (.malformedFile file (complaint content)))

variable {upper : Char → List Char} {complaint : String → String} {file content : String}
  {format : Format} {outcome : Except Error String}

theorem converts_classic_iff :
    classic.Converts upper complaint file content outcome ↔ .ok content = outcome := by
  constructor
  · intro h
    cases h
    rfl
  · rintro rfl
    exact .text

theorem converts_json_iff (hu : Entry.Uppercases upper) :
    json.Converts upper complaint file content outcome ↔
      (Entry.ofJson content file complaint).map Entry.declarations = outcome := by
  have follows : ∀ {members}, Json.parse? content = some (.object members) →
      Entry.Follows upper Entry.Accepted file members (Entry.ofJson content file complaint) :=
    Entry.follows_of_parse? hu
  constructor
  · intro h
    cases h with
    | entries parsed read declares =>
      rw [((follows parsed).ok_iff _).mpr read, Entry.declares_iff.mp declares]
      rfl
    | member parsed read offends =>
      rw [((follows parsed).error_iff _).mpr ⟨_, _, _, rfl, read, offends⟩]
      rfl
    | noObject parsed =>
      rw [Entry.ofJson_noObject file complaint parsed]
      rfl
  · rintro rfl
    by_cases hobject : ∃ members, Json.parse? content = some (.object members)
    · obtain ⟨members, parsed⟩ := hobject
      cases hread : Entry.ofJson content file complaint with
      | ok entries =>
        exact .entries parsed (((follows parsed).ok_iff entries).mp hread)
          (Entry.declares_declarations entries)
      | error e =>
        obtain ⟨before, member, after, rfl, read, offends⟩ :=
          ((follows parsed).error_iff e).mp hread
        exact .member parsed read offends
    · have parsed := not_exists.mp hobject
      rw [Entry.ofJson_noObject file complaint parsed]
      exact .noObject parsed

/-- A format gives what the content is converted to, whatever the format. -/
theorem declarationText_eq_iff (hu : Entry.Uppercases upper) :
    format.declarationText content file complaint = outcome ↔
      format.Converts upper complaint file content outcome := by
  cases format with
  | classic => exact converts_classic_iff.symm
  | json => exact (converts_json_iff hu).symm

end Format

namespace FileTree

variable {tree : FileTree} {path : String}

/-- A regular file is at the path, be it readable or not. -/
def HasFile (tree : FileTree) (path : String) : Prop :=
  ∃ content, tree.lookup path = .ok (.file content)

theorem isFile_iff : tree.isFile path = true ↔ tree.HasFile path := by
  rw [isFile, HasFile]
  split
  · next content h => exact iff_of_true rfl ⟨content, h⟩
  · next hnot => exact iff_of_false Bool.false_ne_true fun ⟨content, h⟩ => hnot content h

theorem read_of_file {content : Except ReadFailure String}
    (file : tree.lookup path = .ok (.file content)) : tree.read path = content := by
  rw [read, file]
  rfl

end FileTree

namespace Loader

/-- The outcome of the regular file at a path: what its content is converted to, or why it cannot be
read. -/
inductive Yields (loader : Loader) (upper : Char → List Char) (tree : FileTree) (format : Format)
    (path : String) : Except Error String → Prop
  | read {content : String} {outcome : Except Error String}
    (file : tree.lookup path = .ok (.file (.ok content)))
    (converts : format.Converts upper loader.complaint path content outcome) :
    Yields loader upper tree format path outcome
  | unreadable {failure : ReadFailure} (file : tree.lookup path = .ok (.file (.error failure))) :
    Yields loader upper tree format path (.error (.unreadable path failure))

variable {loader : Loader} {upper : Char → List Char} {tree : FileTree} {format : Format}
  {path : String} {outcome : Except Error String}

theorem Yields.hasFile (h : loader.Yields upper tree format path outcome) : tree.HasFile path := by
  cases h with
  | read file => exact ⟨_, file⟩
  | unreadable file => exact ⟨_, file⟩

theorem yields_iff (hu : Entry.Uppercases upper) :
    loader.Yields upper tree format path outcome ↔
      tree.HasFile path ∧ loader.readFile tree format path = outcome := by
  constructor
  · intro h
    refine ⟨h.hasFile, ?_⟩
    cases h with
    | read file converts =>
      rw [readFile, FileTree.read_of_file file]
      exact (Format.declarationText_eq_iff hu).mpr converts
    | unreadable file => rw [readFile, FileTree.read_of_file file]
  · rintro ⟨⟨content, file⟩, rfl⟩
    rw [readFile, FileTree.read_of_file file]
    cases content with
    | ok content => exact .read file ((Format.declarationText_eq_iff hu).mp rfl)
    | error failure => exact .unreadable file

end Loader
end LayeredEnv
