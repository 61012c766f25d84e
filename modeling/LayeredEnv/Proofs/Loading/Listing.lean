import LayeredEnv.Loader
import LayeredEnv.Proofs.Entry.Schema
import Mathlib

namespace LayeredEnv

namespace Text

theorem dropFront_eq_some_iff {front cs rest : List Char} :
    dropFront front cs = some rest ↔ cs = front ++ rest := by
  fun_induction dropFront front cs with
  | case1 cs => simp [eq_comm]
  | case2 => simp
  | case3 f front c cs hc ih => simp_all
  | case4 f front c cs hc => simp_all

theorem dropBack_eq_some_iff {back cs rest : List Char} :
    dropBack back cs = some rest ↔ cs = rest ++ back := by
  rw [dropBack, Option.map_eq_some_iff]
  constructor
  · rintro ⟨front, h, rfl⟩
    rw [dropFront_eq_some_iff] at h
    rw [← List.reverse_reverse cs, h, List.reverse_append, List.reverse_reverse]
  · rintro rfl
    exact ⟨rest.reverse, by simp [dropFront_eq_some_iff], List.reverse_reverse rest⟩

theorem trim_sublist (p : Char → Bool) (cs : List Char) : (trim p cs).Sublist cs := by
  have hend : (trim p cs).Sublist (cs.dropWhile p) := by
    simpa only [trim, dropEndWhile, List.reverse_reverse] using
      (List.dropWhile_sublist (l := (cs.dropWhile p).reverse) p).reverse
  exact hend.trans (List.dropWhile_sublist p)

theorem length_trim_lt {p : Char → Bool} {cs : List Char} (h : trim p cs ≠ cs) :
    (trim p cs).length < cs.length :=
  Nat.lt_of_le_of_ne (trim_sublist p cs).length_le fun he => h ((trim_sublist p cs).eq_of_length he)

end Text

namespace Format

def bareName : Format → String
  | classic => ".env"
  | json => "env.json"

def firstForm : Format → String → String
  | classic, name => ".env." ++ name
  | json, name => name ++ ".env.json"

def secondForm : Format → String → String
  | classic, name => name ++ ".env"
  | json, name => "env." ++ name ++ ".json"

def Trimmed (name : String) : Prop := Text.trim Text.isWhitespace name.toList = name.toList

instance (name : String) : Decidable (Trimmed name) :=
  inferInstanceAs (Decidable (Text.trim Text.isWhitespace name.toList = name.toList))

theorem namePart?_eq_some_iff {part : Option (List Char)} {name : String} :
    namePart? part = some name ↔ part = some name.toList ∧ name ≠ "" ∧ '\n' ∉ name.toList := by
  cases part with
  | none => simp [namePart?]
  | some cs =>
    have hname : String.ofList cs = name ↔ cs = name.toList :=
      ⟨fun h => by rw [← h, String.toList_ofList], fun h => by rw [h, String.ofList_toList]⟩
    by_cases hcs : cs = name.toList
    · subst hcs
      simp [namePart?]
    · simp [namePart?, hname, hcs]

/-- The environment of a file in the classic format: the default one for the bare name, otherwise
what follows `.env.`, and only where nothing can follow it what comes before `.env`. -/
theorem environmentName?_classic {file default name : String}
    (h : classic.environmentName? file default = some name) :
    (file = ".env" ∧ name = default) ∨
      (name ≠ "" ∧ (file.toList = ".env.".toList ++ name.toList ∨
        file.toList = name.toList ++ ".env".toList ∧ '\n' ∉ name.toList ∧
          ∀ other : String, other ≠ "" → '\n' ∉ other.toList →
            file.toList ≠ ".env.".toList ++ other.toList)) := by
  rw [environmentName?] at h
  split at h
  · next hbare => exact .inl ⟨by simpa using hbare, by simpa using h.symm⟩
  · rw [Option.or_eq_some_iff, namePart?_eq_some_iff, namePart?_eq_some_iff,
      Text.dropFront_eq_some_iff, Text.dropBack_eq_some_iff] at h
    obtain ⟨hfile, hname, -⟩ | ⟨hnone, hfile, hname, hline⟩ := h
    · exact .inr ⟨hname, .inl hfile⟩
    · refine .inr ⟨hname, .inr ⟨hfile, hline, fun other hother hother' he => ?_⟩⟩
      have hsome : namePart? (Text.dropFront ".env.".toList file.toList) = some other := by
        rw [namePart?_eq_some_iff, Text.dropFront_eq_some_iff]
        exact ⟨he, hother, hother'⟩
      rw [hsome] at hnone
      exact absurd hnone (by simp)

theorem environmentName?_json {file default name : String}
    (h : json.environmentName? file default = some name) :
    (file = "env.json" ∧ name = default) ∨
      (name ≠ "" ∧ (file.toList = name.toList ++ ".env.json".toList ∨
        file.toList = "env.".toList ++ name.toList ++ ".json".toList)) := by
  rw [environmentName?] at h
  split at h
  · next hbare => exact .inl ⟨by simpa using hbare, by simpa using h.symm⟩
  · rw [Option.or_eq_some_iff, namePart?_eq_some_iff, namePart?_eq_some_iff,
      Text.dropBack_eq_some_iff, Option.bind_eq_some_iff] at h
    obtain ⟨hfile, hname, -⟩ | ⟨-, ⟨rest, hfront, hback⟩, hname, -⟩ := h
    · exact .inr ⟨hname, .inl hfile⟩
    · rw [Text.dropFront_eq_some_iff] at hfront
      rw [Text.dropBack_eq_some_iff] at hback
      exact .inr ⟨hname, .inr (by rw [hfront, hback, List.append_assoc])⟩

def soughtName (name : String) : String :=
  String.ofList (Text.trim Text.isWhitespace name.toList)

theorem soughtName_eq_iff {name : String} : soughtName name = name ↔ Trimmed name := by
  rw [soughtName, Trimmed, ← String.toList_inj, String.toList_ofList]

theorem length_soughtName_lt {name : String} (h : ¬Trimmed name) :
    (soughtName name).toList.length < name.toList.length := by
  rw [soughtName, String.toList_ofList]
  exact Text.length_trim_lt h

theorem mem_of_mem_soughtName {name : String} {c : Char} (h : c ∈ (soughtName name).toList) :
    c ∈ name.toList := by
  rw [soughtName, String.toList_ofList] at h
  exact (Text.trim_sublist _ _).mem h

/-- The file names of an environment in order: the bare one for the default environment, otherwise
the two forms of its name. -/
def fileNames (format : Format) (name default : String) : List String :=
  if soughtName name = default then [format.bareName]
  else [format.firstForm (soughtName name), format.secondForm (soughtName name)]

theorem candidates_eq_fileNames (format : Format) (name default : String) :
    format.candidates name default = format.fileNames name default := by
  cases format <;> rw [candidates, ← soughtName, fileNames] <;> simp only [beq_iff_eq] <;> rfl

theorem mem_candidates_classic {file name default : String} :
    file ∈ classic.candidates name default ↔
      if soughtName name = default then file = ".env"
      else file.toList = ".env.".toList ++ (soughtName name).toList ∨
        file.toList = (soughtName name).toList ++ ".env".toList := by
  rw [candidates, ← soughtName]
  by_cases hname : soughtName name = default
  · simp [hname]
  · simp [hname, ← @String.toList_inj file]

theorem mem_candidates_json {file name default : String} :
    file ∈ json.candidates name default ↔
      if soughtName name = default then file = "env.json"
      else file.toList = (soughtName name).toList ++ ".env.json".toList ∨
        file.toList = "env.".toList ++ (soughtName name).toList ++ ".json".toList := by
  rw [candidates, ← soughtName]
  by_cases hname : soughtName name = default
  · simp [hname]
  · simp [hname, ← @String.toList_inj file]

/-- Whether the name of a file is one under which the environment it holds is looked for. The second
case is a default environment whose name is blank: `.env` is then found as a name before `.env`. -/
def Answers (format : Format) (file default name : String) : Prop :=
  (Trimmed name ∧ (name = default → file = format.bareName)) ∨
    (format = classic ∧ file = ".env" ∧ soughtName name = "")

theorem answers_iff_of_trimmed {format : Format} {file default name : String}
    (h : Trimmed name) :
    format.Answers file default name ↔ (name = default → file = format.bareName) := by
  rw [Answers, or_iff_left_of_imp]
  · exact and_iff_right h
  · rintro ⟨rfl, hfile, -⟩
    exact ⟨h, fun _ => hfile⟩

theorem answers_iff_of_not_trimmed {format : Format} {file default name : String}
    (h : ¬Trimmed name) :
    format.Answers file default name ↔
      format = classic ∧ file = ".env" ∧ soughtName name = "" := by
  simp [Answers, h]

/-- A name with blanks at its ends is looked for in shorter file names than the one it stands in. -/
theorem not_mem_candidates_classic {file name : String} (default : String)
    (h : ¬Trimmed name) (hname : name ≠ "") (hfile : file.toList = ".env.".toList ++ name.toList ∨
        file.toList = name.toList ++ ".env".toList ∧ '\n' ∉ name.toList ∧
          ∀ other : String, other ≠ "" → '\n' ∉ other.toList →
            file.toList ≠ ".env.".toList ++ other.toList) :
    file ≠ ".env" ∧ file ∉ classic.candidates name default := by
  have hlt : (soughtName name).toList.length < name.toList.length := length_soughtName_lt h
  have hpos : 0 < name.toList.length := by
    rw [List.length_pos_iff]
    simpa using hname
  have hlen : 4 + name.toList.length ≤ file.toList.length := by
    obtain he | ⟨he, -⟩ := hfile <;> rw [he] <;> simp <;> omega
  have hbare : file ≠ ".env" := by
    rintro rfl
    have hfour : ".env".toList.length = 4 := rfl
    omega
  refine ⟨hbare, ?_⟩
  rw [mem_candidates_classic]
  split
  · exact hbare
  · rintro (he | he)
    · obtain hdotted | ⟨hsuffixed, hline, hother⟩ := hfile
      · rw [hdotted, List.append_cancel_left_eq] at he
        rw [he] at hlt
        exact absurd hlt (Nat.lt_irrefl _)
      · -- the name is one shorter, and what is behind `.env.` would have been taken as the name
        by_cases hempty : soughtName name = ""
        · rw [hsuffixed, hempty] at he
          simpa using congrArg List.getLast? he
        · exact hother _ hempty (fun hmem => hline (mem_of_mem_soughtName hmem)) he
    · have := congrArg List.length he
      simp at this
      omega

theorem mem_candidates_iff_classic {file default name : String}
    (h : classic.environmentName? file default = some name) :
    file ∈ classic.candidates name default ↔ classic.Answers file default name := by
  by_cases htrim : Trimmed name
  · rw [answers_iff_of_trimmed htrim, mem_candidates_classic, soughtName_eq_iff.mpr htrim]
    by_cases hdefault : name = default
    · simp [hdefault, bareName]
    · obtain ⟨-, hname⟩ | ⟨-, hfile⟩ := environmentName?_classic h
      · exact absurd hname hdefault
      · simp only [hdefault, if_false, false_imp_iff, iff_true]
        exact hfile.imp_right fun hfile => hfile.1
  · rw [answers_iff_of_not_trimmed htrim]
    obtain ⟨rfl, rfl⟩ | ⟨hname, hfile⟩ := environmentName?_classic h
    · rw [mem_candidates_classic, if_neg fun he => htrim (soughtName_eq_iff.mp he)]
      constructor
      · rintro (he | he)
        · simpa using congrArg List.length he
        · simpa using he
      · rintro ⟨-, -, hempty⟩
        simp [hempty]
    · obtain ⟨hbare, hnot⟩ := not_mem_candidates_classic default htrim hname hfile
      exact iff_of_false hnot fun hbare' => hbare hbare'.2.1

/-- The file names of an environment are all of one length, but for the bare name. -/
theorem not_mem_candidates_json {file default name : String} (h : ¬Trimmed name)
    (hfile : (file = "env.json" ∧ name = default) ∨ (name ≠ "" ∧
      (file.toList = name.toList ++ ".env.json".toList ∨
        file.toList = "env.".toList ++ name.toList ++ ".json".toList))) :
    file ∉ json.candidates name default := by
  have hlt : (soughtName name).toList.length < name.toList.length := length_soughtName_lt h
  have hcandidate : ∀ candidate ∈ json.candidates name default, soughtName name ≠ default →
      candidate.toList.length = (soughtName name).toList.length + 9 := by
    intro candidate hmem hne
    rw [mem_candidates_json, if_neg hne] at hmem
    obtain he | he := hmem <;> rw [he] <;> simp
  intro hmem
  obtain ⟨rfl, rfl⟩ | ⟨hname, hfile⟩ := hfile
  · have hlen := hcandidate _ hmem fun he => h (soughtName_eq_iff.mp he)
    simp at hlen
  · have hlen : file.toList.length = name.toList.length + 9 := by
      obtain he | he := hfile <;> rw [he] <;> simp
    by_cases hne : soughtName name = default
    · rw [mem_candidates_json, if_pos hne] at hmem
      rw [hmem] at hlen
      simp at hlen
    · have := hcandidate _ hmem hne
      omega

theorem mem_candidates_iff_json {file default name : String}
    (h : json.environmentName? file default = some name) :
    file ∈ json.candidates name default ↔ json.Answers file default name := by
  by_cases htrim : Trimmed name
  · rw [answers_iff_of_trimmed htrim, mem_candidates_json, soughtName_eq_iff.mpr htrim]
    by_cases hdefault : name = default
    · simp [hdefault, bareName]
    · obtain ⟨-, hname⟩ | ⟨-, hfile⟩ := environmentName?_json h
      · exact absurd hname hdefault
      · simp only [hdefault, if_false, false_imp_iff, iff_true]
        exact hfile
  · rw [answers_iff_of_not_trimmed htrim]
    exact iff_of_false (not_mem_candidates_json htrim (environmentName?_json h)) (by simp)

/-- The two namings of a format agree on a file exactly if its name is one that answers. -/
theorem mem_candidates_iff {format : Format} {file default name : String}
    (h : format.environmentName? file default = some name) :
    file ∈ format.candidates name default ↔ format.Answers file default name := by
  cases format with
  | classic => exact mem_candidates_iff_classic h
  | json => exact mem_candidates_iff_json h

end Format

namespace Loader

variable {loader : Loader} {tree : FileTree}

theorem exists_of_mapM_eq_error {α β ε : Type} {f : α → Except ε β} {items : List α} {e : ε}
    (h : items.mapM f = .error e) : ∃ item ∈ items, f item = .error e := by
  obtain ⟨before, item, after, rfl, -, he⟩ := mapM_eq_error_iff.mp h
  exact ⟨item, List.mem_append_right _ List.mem_cons_self, he⟩

theorem malformedFile_of_ofMember {file key : String} {value : Json} {e : Error}
    (h : Entry.ofMember file key value = .error e) : ∃ reason, e = .malformedFile file reason := by
  unfold Entry.ofMember at h
  split at h
  · exact ⟨_, (Except.error.inj h).symm⟩
  · split at h
    · exact ⟨_, (Except.error.inj h).symm⟩
    · cases h

/-- What is wrong with a JSON file is reported with the file's path. -/
theorem malformedFile_of_ofJson {content file : String} {complaint : String → String} {e : Error}
    (h : Entry.ofJson content file complaint = .error e) :
    ∃ reason, e = .malformedFile file reason := by
  rw [Entry.ofJson] at h
  split at h
  · obtain ⟨member, -, hmember⟩ := exists_of_mapM_eq_error h
    exact malformedFile_of_ofMember hmember
  · exact ⟨_, (Except.error.inj h).symm⟩

/-- What is wrong with a file is reported with its path. -/
theorem error_of_readFile {format : Format} {path : String} {e : Error}
    (h : loader.readFile tree format path = .error e) :
    (∃ failure, e = .unreadable path failure) ∨ ∃ reason, e = .malformedFile path reason := by
  rw [readFile] at h
  split at h
  · next content _ =>
    cases format with
    | classic => cases h
    | json =>
      rw [Format.declarationText] at h
      cases hjson : Entry.ofJson content path loader.complaint with
      | ok entries =>
        rw [hjson] at h
        cases h
      | error failure =>
        rw [hjson] at h
        cases h
        exact .inr (malformedFile_of_ofJson hjson)
  · next failure _ =>
    cases h
    exact .inl ⟨failure, rfl⟩

/-- A file that is read is never reported as missing. -/
theorem readFile_ne_sourceNotFound {format : Format} {path name : String} :
    loader.readFile tree format path ≠ .error (.sourceNotFound name) := by
  intro h
  obtain ⟨_, he⟩ | ⟨_, he⟩ := error_of_readFile h <;> cases he

theorem loadFrom?_eq_none_iff {name dir : String} :
    loader.loadFrom? tree name dir = none ↔
      ∀ candidate ∈ loader.candidates name, tree.isFile (Path.join dir candidate.2) = false := by
  simp [loadFrom?, List.findSome?_eq_none_iff]

theorem loadFrom?_ne_sourceNotFound {name other dir : String} :
    loader.loadFrom? tree name dir ≠ some (.error (.sourceNotFound other)) := by
  intro h
  obtain ⟨candidate, -, hcandidate⟩ := List.exists_of_findSome?_eq_some h
  dsimp only at hcandidate
  split at hcandidate
  · exact readFile_ne_sourceNotFound (Option.some.inj hcandidate)
  · cases hcandidate

/-- Loading from one directory finds nothing exactly if it has none of the file names. -/
theorem load_eq_sourceNotFound_iff {name other dir : String} :
    loader.load tree { dir } name = .error (.sourceNotFound other) ↔ name = other ∧
      ∀ candidate ∈ loader.candidates name, tree.isFile (Path.join dir candidate.2) = false := by
  have hload : loader.load tree { dir } name =
      (loader.loadFrom? tree name dir).getD (.error (.sourceNotFound name)) := by
    simp [load, visits, visit?, Visit.path]
  rw [hload, ← loadFrom?_eq_none_iff]
  cases hfrom : loader.loadFrom? tree name dir with
  | none => simp
  | some outcome =>
    refine iff_of_false (fun he => ?_) (by simp)
    rw [Option.getD_some] at he
    exact loadFrom?_ne_sourceNotFound (hfrom.trans (congrArg some he))

theorem mem_candidates {name file : String} {format : Format} :
    (format, file) ∈ loader.candidates name ↔
      format ∈ loader.formats ∧ file ∈ format.candidates name loader.defaultEnvironment := by
  simp only [candidates, List.mem_flatMap, List.mem_map, Prod.mk.injEq]
  constructor
  · rintro ⟨other, hmem, found, hfound, rfl, rfl⟩
    exact ⟨hmem, hfound⟩
  · rintro ⟨hmem, hfound⟩
    exact ⟨format, hmem, file, hfound, rfl, rfl⟩

theorem visits_eq_cons (tree : FileTree) (dir : String) :
    ∃ visit rest, tree.visits dir = visit :: rest ∧ visit.below = [] := by
  unfold FileTree.visits
  split
  · next failure entries _ =>
    cases failure with
    | none => exact ⟨_, _, rfl, rfl⟩
    | some failure => exact ⟨_, _, rfl, rfl⟩
  · exact ⟨_, _, rfl, rfl⟩
  · exact ⟨_, _, rfl, rfl⟩

/-- What claims a file is a format of the loader that names the file's environment. -/
theorem of_claim?_eq_some {dir file : String} {below : List String} {entry : DeclarationFile}
    (h : loader.claim? dir below file = some entry) :
    entry.format ∈ loader.formats ∧ entry.path = Path.join dir file ∧
      entry.below = below ++ [file] ∧
      entry.format.environmentName? file loader.defaultEnvironment = some entry.environment := by
  obtain ⟨format, hmem, hformat⟩ := List.exists_of_findSome?_eq_some h
  rw [Option.map_eq_some_iff] at hformat
  obtain ⟨environment, henvironment, rfl⟩ := hformat
  exact ⟨hmem, rfl, rfl, henvironment⟩

theorem list_flat {dir : String} {visit : Visit} {rest : List Visit}
    (h : tree.visits dir = visit :: rest) :
    loader.list tree { dir } =
      (loader.filesOf dir visit).map fun files => files.mergeSort before := by
  cases hfiles : loader.filesOf dir visit <;>
    simp [list, h, hfiles, bind, Except.bind, pure, Except.pure, Except.map]

/-- The entries of a directory that is listed alone are files that a format claims. -/
theorem claim?_of_mem_list {dir : String} {listing : List DeclarationFile}
    {entry : DeclarationFile} (h : loader.list tree { dir } = .ok listing)
    (hmem : entry ∈ listing) :
    ∃ file, loader.claim? dir [] file = some entry := by
  obtain ⟨visit, rest, hvisits, hbelow⟩ := visits_eq_cons tree dir
  rw [list_flat hvisits, filesOf] at h
  split at h
  · cases h
  · rw [← Except.ok.inj h, List.mem_mergeSort, List.mem_filterMap] at hmem
    obtain ⟨file, -, hclaim⟩ := hmem
    rw [Visit.path, hbelow] at hclaim
    exact ⟨file, hclaim⟩

/-- An entry of a listing that is a regular file is found when it is loaded by the environment it is
listed with, if its name answers to it. If not, the file itself is not looked for, and whether
anything is found is up to the other files of the directory. -/
theorem list_loads {loader : Loader} {tree : FileTree} {dir : String}
    {listing : List DeclarationFile} {entry : DeclarationFile}
    (listed : loader.list tree { dir } = .ok listing) (mem : entry ∈ listing)
    (regular : tree.isFile entry.path = true) :
    ∃ file, entry.below = [file] ∧ entry.path = Path.join dir file ∧
      entry.format ∈ loader.formats ∧
      ((entry.format, file) ∈ loader.candidates entry.environment ↔
        entry.format.Answers file loader.defaultEnvironment entry.environment) ∧
      (entry.format.Answers file loader.defaultEnvironment entry.environment →
        ∀ name, loader.load tree { dir } entry.environment ≠ .error (.sourceNotFound name)) ∧
      (loader.load tree { dir } entry.environment = .error (.sourceNotFound entry.environment) ↔
        ∀ candidate ∈ loader.candidates entry.environment,
          tree.isFile (Path.join dir candidate.2) = false) := by
  obtain ⟨file, hclaim⟩ := claim?_of_mem_list listed mem
  obtain ⟨hformat, hpath, hbelow, hname⟩ := of_claim?_eq_some hclaim
  have hcandidates : (entry.format, file) ∈ loader.candidates entry.environment ↔
      entry.format.Answers file loader.defaultEnvironment entry.environment := by
    rw [mem_candidates, and_iff_right hformat, Format.mem_candidates_iff hname]
  refine ⟨file, hbelow, hpath, hformat, hcandidates, fun answers name missing => ?_, ?_⟩
  · have hnone := (load_eq_sourceNotFound_iff.mp missing).2 _ (hcandidates.mpr answers)
    rw [← hpath, regular] at hnone
    cases hnone
  · rw [load_eq_sourceNotFound_iff, and_iff_right rfl]

def oneFile (name text : String) : FileTree :=
  { root := .directory none [(name, .file (.ok text))] }

/-- The file of `oneFile` is all that is listed if a format claims it. -/
theorem list_oneFile {name text : String} {entry : DeclarationFile}
    (h : loader.claim? "." [] name = some entry) :
    loader.list (oneFile name text) {} = .ok [entry] := by
  have hvisits : (oneFile name text).visits "." =
      [{ below := [], files := [name], failure := none }] := by cbv
  rw [show ({} : Place) = { dir := "." } from rfl, list_flat hvisits]
  simp [filesOf, Visit.path, h, Except.map]

theorem list_loads_dotted :
    ({} : Loader).list (oneFile ".env.dev" "A=1\n") {} =
        .ok [⟨"dev", .classic, [".env.dev"], "./.env.dev"⟩] ∧
      (oneFile ".env.dev" "A=1\n").isFile "./.env.dev" = true ∧
      ({} : Loader).load (oneFile ".env.dev" "A=1\n") {} "dev" ≠
        .error (.sourceNotFound "dev") := by
  have hlisted : ({} : Loader).list (oneFile ".env.dev" "A=1\n") {} =
      .ok [⟨"dev", .classic, [".env.dev"], "./.env.dev"⟩] := list_oneFile (by cbv)
  have hregular : (oneFile ".env.dev" "A=1\n").isFile "./.env.dev" = true := by cbv
  obtain ⟨file, hbelow, -, -, -, hfound, -⟩ := list_loads hlisted List.mem_cons_self hregular
  obtain rfl : ".env.dev" = file := (List.cons.inj hbelow).1
  exact ⟨hlisted, hregular, hfound (.inl ⟨by decide, by decide⟩) "dev"⟩

/-- The default environment is not looked for in `.env.default`, though the file is listed as one
that holds it. -/
theorem list_disagrees_explicitDefault :
    ({} : Loader).list (oneFile ".env.default" "A=1\n") {} =
        .ok [⟨"default", .classic, [".env.default"], "./.env.default"⟩] ∧
      (oneFile ".env.default" "A=1\n").isFile "./.env.default" = true ∧
      ({} : Loader).load (oneFile ".env.default" "A=1\n") {} "default" =
        .error (.sourceNotFound "default") :=
  ⟨list_oneFile (by cbv), by cbv, by cbv⟩

end Loader
end LayeredEnv
