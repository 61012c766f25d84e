import LayeredEnv.Proofs.Loading.Content
import LayeredEnv.Proofs.Loading.Listing

namespace LayeredEnv

namespace FileNode

def subdirectories (entries : List (String × FileNode)) : List (String × FileNode) :=
  (entries.mergeSort byName).filter (·.2.isDirectory)

theorem mem_subdirectories {entries : List (String × FileNode)} {entry : String × FileNode} :
    entry ∈ subdirectories entries ↔ entry ∈ entries ∧ entry.2.isDirectory = true := by
  rw [subdirectories, List.mem_filter, List.mem_mergeSort]

theorem sizeOf_lt_of_mem_subdirectories {failure : Option ReadFailure}
    {entries : List (String × FileNode)} {entry : String × FileNode}
    (h : entry ∈ subdirectories entries) :
    sizeOf entry.2 < sizeOf (directory failure entries) := by
  have hentries : sizeOf entry < sizeOf entries :=
    List.sizeOf_lt_of_mem (mem_subdirectories.mp h).1
  have hentry : sizeOf entry = 1 + sizeOf entry.1 + sizeOf entry.2 := rfl
  rw [directory.sizeOf_spec]
  omega

/-- Induction over directories: what holds of the directories in one holds of itself. -/
@[elab_as_elim]
theorem directoryInduction {motive : FileNode → Prop}
    (directory : ∀ failure entries, (∀ entry ∈ subdirectories entries, motive entry.2) →
      motive (directory failure entries))
    (other : ∀ node : FileNode, node.isDirectory = false → motive node) (node : FileNode) :
    motive node := by
  match node with
  | .directory failure entries =>
    exact directory failure entries fun entry h => directoryInduction directory other entry.2
  | .file _ => exact other _ rfl
  | .link _ => exact other _ rfl
termination_by sizeOf node
decreasing_by exact sizeOf_lt_of_mem_subdirectories h

theorem visitsBelow_eq_map (below : List String) (entries : List (String × FileNode)) :
    visitsBelow below entries =
      entries.map fun entry => (entry.1, entry.2.visits (below ++ [entry.1])) := by
  induction entries with
  | nil => rfl
  | cons entry entries ih => rw [visitsBelow, ih, List.map_cons]

theorem visits_of_not_isDirectory {node : FileNode} (h : node.isDirectory = false)
    (below : List String) : node.visits below = [] := by
  cases node with
  | directory => cases h
  | file | link => rw [visits] <;> simp

theorem flatMap_visits_filter (below : List String) (entries : List (String × FileNode)) :
    (entries.filter (·.2.isDirectory)).flatMap (fun entry => entry.2.visits (below ++ [entry.1])) =
      entries.flatMap fun entry => entry.2.visits (below ++ [entry.1]) := by
  induction entries with
  | nil => rfl
  | cons entry entries ih =>
    rw [List.filter_cons, List.flatMap_cons]
    cases h : entry.2.isDirectory with
    | true => rw [if_pos rfl, List.flatMap_cons, ih]
    | false =>
      rw [if_neg Bool.false_ne_true, ih, visits_of_not_isDirectory h, List.nil_append]

theorem visits_closed (below : List String) (failure : ReadFailure)
    (entries : List (String × FileNode)) :
    (directory (some failure) entries).visits below =
      [{ below, files := [], failure := some failure }] := by
  rw [visits]
  exact Option.some_ne_none failure

/-- A directory is visited before the directories in it. -/
theorem visits_directory (below : List String) (entries : List (String × FileNode)) :
    (directory none entries).visits below =
      { below, files := filesOf entries, failure := none } ::
        (subdirectories entries).flatMap fun entry => entry.2.visits (below ++ [entry.1]) := by
  have hsort : (visitsBelow below entries).mergeSort byName = (entries.mergeSort byName).map
      fun entry => (entry.1, entry.2.visits (below ++ [entry.1])) := by
    rw [visitsBelow_eq_map]
    refine (List.map_mergeSort ?_).symm
    exact fun _ _ _ _ => rfl
  rw [visits, hsort, List.flatMap_map, subdirectories, flatMap_visits_filter]

theorem pairwise_subdirectories (entries : List (String × FileNode)) :
    (subdirectories entries).Pairwise fun a b => a.1 ≤ b.1 := by
  have hsorted : (entries.mergeSort byName).Pairwise fun a b => byName a b = true := by
    refine List.pairwise_mergeSort (fun a b c hab hbc => ?_) (fun a b => ?_) entries
    · simp only [byName, decide_eq_true_eq] at hab hbc ⊢
      exact String.le_trans hab hbc
    · simp only [byName, Bool.or_eq_true, decide_eq_true_eq]
      exact String.le_total ..
  exact (hsorted.imp fun h => of_decide_eq_true h).filter _

end FileNode

/-- A directory that is searched: its path, and why it cannot be listed, if it cannot. -/
abbrev Searched : Type := String × Option ReadFailure

mutual

/-- The directories of a walk from the one at a path, in order: that directory, and if it can be
listed the walks from the directories in it, one after the other in the order of their names. -/
inductive Walk : String → FileNode → List Searched → Prop
  | closed {path : String} {failure : ReadFailure} {entries : List (String × FileNode)} :
    Walk path (.directory (some failure) entries) [(path, some failure)]
  | opened {path : String} {entries subs : List (String × FileNode)} {dirs : List Searched}
      (perm : subs.Perm (entries.filter (·.2.isDirectory)))
      (sorted : subs.Pairwise fun a b => a.1 ≤ b.1) (below : Walks path subs dirs) :
    Walk path (.directory none entries) ((path, none) :: dirs)

inductive Walks : String → List (String × FileNode) → List Searched → Prop
  | nil {path : String} : Walks path [] []
  | cons {path name : String} {node : FileNode} {subs : List (String × FileNode)}
      {dirs more : List Searched} (first : Walk (Path.join path name) node dirs)
      (rest : Walks path subs more) : Walks path ((name, node) :: subs) (dirs ++ more)

end

/-- The directories to be searched from a path, in order: the one at the path alone, or a walk from
there, which ends at once if there is no directory. -/
inductive Order (tree : FileTree) (dir : String) : (recursive : Bool) → List Searched → Prop
  | alone : Order tree dir false [(dir, none)]
  | walk {node : FileNode} {dirs : List Searched} (h : tree.lookup dir = .ok node)
      (walk : Walk dir node dirs) : Order tree dir true dirs
  | notADirectory {node : FileNode} (h : tree.lookup dir = .ok node)
      (hnode : node.isDirectory = false) : Order tree dir true [(dir, some .notADirectory)]
  | unreachable {failure : ReadFailure} (h : tree.lookup dir = .error failure) :
      Order tree dir true [(dir, some failure)]

namespace Loader

variable (loader : Loader) (tree : FileTree) (name : String)

/-- The search in a directory, which is found at `path`: first all candidates, then its listing,
then one directory in it after the other until something comes out. -/
def search (path : String) : FileNode → Option (Except Error String)
  | .directory none entries =>
    (loader.loadFrom? tree name path).or <|
      (FileNode.subdirectories entries).attach.findSome? fun ⟨entry, _⟩ =>
        search (Path.join path entry.1) entry.2
  | .directory (some failure) _ =>
    (loader.loadFrom? tree name path).or (some (.error (.unreadable path failure)))
  | _ => (loader.loadFrom? tree name path).or (some (.error (.unreadable path .notADirectory)))
termination_by node => sizeOf node
decreasing_by exact FileNode.sizeOf_lt_of_mem_subdirectories ‹_›

def searchFrom (place : Place) : Option (Except Error String) :=
  if place.recursive then
    match tree.lookup place.dir with
    | .ok node => loader.search tree name place.dir node
    | .error failure => (loader.loadFrom? tree name place.dir).or
        (some (.error (.unreadable place.dir failure)))
  else loader.loadFrom? tree name place.dir

variable (upper : Char → List Char)

def Lacks (dir : String) : Prop :=
  ∀ format ∈ loader.formats, ∀ file ∈ format.fileNames name loader.defaultEnvironment,
    ¬tree.HasFile (Path.join dir file)

/-- The outcome of a directory is that of the first regular file in it, in the order of the formats
and for each of them in that of its file names. -/
inductive Hit (dir : String) (outcome : Except Error String) : Prop
  | file {earlier later : List Format} {format : Format}
      (hformats : loader.formats = earlier ++ format :: later)
      (preferred : ∀ other ∈ earlier, ∀ file ∈ other.fileNames name loader.defaultEnvironment,
        ¬tree.HasFile (Path.join dir file))
      {skipped others : List String} {file : String}
      (hnames : format.fileNames name loader.defaultEnvironment = skipped ++ file :: others)
      (missing : ∀ file ∈ skipped, ¬tree.HasFile (Path.join dir file))
      (yields : loader.Yields upper tree format (Path.join dir file) outcome) : Hit dir outcome

/-- The outcome of searching directories one after the other: that of the first one with a file for
the environment. A directory that cannot be listed ends the search after its own files. -/
inductive FirstHit (dirs : List Searched) : Except Error String → Prop
  | file {before after : List Searched} {dir : String} {failure : Option ReadFailure}
      {outcome : Except Error String} (hdirs : dirs = before ++ (dir, failure) :: after)
      (passed : ∀ searched ∈ before, loader.Lacks tree name searched.1 ∧ searched.2 = none)
      (hit : loader.Hit tree name upper dir outcome) : FirstHit dirs outcome
  | unlisted {before after : List Searched} {dir : String} {failure : ReadFailure}
      (hdirs : dirs = before ++ (dir, some failure) :: after)
      (passed : ∀ searched ∈ before, loader.Lacks tree name searched.1 ∧ searched.2 = none)
      (lacks : loader.Lacks tree name dir) : FirstHit dirs (.error (.unreadable dir failure))
  | nowhere
      (passed : ∀ searched ∈ dirs, loader.Lacks tree name searched.1 ∧ searched.2 = none) :
      FirstHit dirs (.error (.sourceNotFound name))

def fileOutcome? (dir : String) (format : Format) (file : String) :
    Option (Except Error String) :=
  if tree.isFile (Path.join dir file) then some (loader.readFile tree format (Path.join dir file))
  else none

def outcome? (searched : Searched) : Option (Except Error String) :=
  (loader.loadFrom? tree name searched.1).or
    (searched.2.map fun failure => .error (.unreadable searched.1 failure))

def directories (place : Place) : List Searched :=
  (visits tree place).map fun visit => (visit.path place.dir, visit.failure)

variable {loader tree name upper} {path dir : String} {dirs : List Searched} {place : Place}
  {outcome : Except Error String}

theorem load_eq_findSome? : loader.load tree place name =
    ((directories tree place).findSome? (loader.outcome? tree name)).getD
      (.error (.sourceNotFound name)) := by
  rw [load, directories, List.findSome?_map]
  rfl

theorem findSome?_cons_eq_or {α β : Type} (f : α → Option β) (item : α) (items : List α) :
    (item :: items).findSome? f = (f item).or (items.findSome? f) := by
  rw [List.findSome?_cons]
  cases f item <;> rfl

theorem findSome?_flatMap {α β γ : Type} (f : β → Option γ) (below : α → List β)
    (items : List α) :
    (items.flatMap below).findSome? f = items.findSome? fun item => (below item).findSome? f := by
  induction items with
  | nil => rfl
  | cons item items ih => rw [List.flatMap_cons, List.findSome?_append, ih, findSome?_cons_eq_or]

/-- The candidates are tried format by format. -/
theorem loadFrom?_eq_findSome? : loader.loadFrom? tree name dir =
    loader.formats.findSome? fun format =>
      (format.fileNames name loader.defaultEnvironment).findSome?
        (loader.fileOutcome? tree dir format) := by
  rw [loadFrom?, candidates, findSome?_flatMap]
  simp only [List.findSome?_map, Format.candidates_eq_fileNames]
  rfl

theorem fileOutcome?_eq_none_iff {format : Format} {file : String} :
    loader.fileOutcome? tree dir format file = none ↔ ¬tree.HasFile (Path.join dir file) := by
  rw [fileOutcome?, ite_eq_right_iff, ← FileTree.isFile_iff]
  simp

theorem fileOutcome?_eq_some_iff (hu : Entry.Uppercases upper) {format : Format} {file : String} :
    loader.fileOutcome? tree dir format file = some outcome ↔
      loader.Yields upper tree format (Path.join dir file) outcome := by
  rw [fileOutcome?, Option.ite_none_right_eq_some, Option.some.injEq, FileTree.isFile_iff,
    yields_iff hu]

theorem lacks_iff : loader.loadFrom? tree name dir = none ↔ loader.Lacks tree name dir := by
  simp only [loadFrom?_eq_findSome?, List.findSome?_eq_none_iff, fileOutcome?_eq_none_iff, Lacks]

theorem hit_iff (hu : Entry.Uppercases upper) :
    loader.loadFrom? tree name dir = some outcome ↔ loader.Hit tree name upper dir outcome := by
  simp only [loadFrom?_eq_findSome?, List.findSome?_eq_some_iff, List.findSome?_eq_none_iff,
    fileOutcome?_eq_none_iff, fileOutcome?_eq_some_iff hu]
  constructor
  · rintro ⟨earlier, format, later, hformats, ⟨skipped, file, others, hnames, yields, missing⟩,
      preferred⟩
    exact .file hformats preferred hnames missing yields
  · rintro ⟨hformats, preferred, hnames, missing, yields⟩
    exact ⟨_, _, _, hformats, ⟨_, _, _, hnames, yields, missing⟩, preferred⟩

theorem outcome?_eq_none_iff {searched : Searched} :
    loader.outcome? tree name searched = none ↔
      loader.Lacks tree name searched.1 ∧ searched.2 = none := by
  rw [outcome?, Option.or_eq_none_iff, lacks_iff, Option.map_eq_none_iff]

theorem outcome?_eq_some_iff (hu : Entry.Uppercases upper) {failure : Option ReadFailure} :
    loader.outcome? tree name (dir, failure) = some outcome ↔
      loader.Hit tree name upper dir outcome ∨
        loader.Lacks tree name dir ∧ ∃ reason, failure = some reason ∧
          outcome = .error (.unreadable dir reason) := by
  rw [outcome?, Option.or_eq_some_iff, hit_iff hu, lacks_iff, Option.map_eq_some_iff]
  simp only [eq_comm (a := outcome)]

/-- The first directory with an outcome is the first hit. -/
theorem FirstHit.of_findSome? (hu : Entry.Uppercases upper)
    (h : dirs.findSome? (loader.outcome? tree name) = some outcome) :
    loader.FirstHit tree name upper dirs outcome := by
  obtain ⟨before, ⟨dir, failure⟩, after, hdirs, hdir, hbefore⟩ := List.findSome?_eq_some_iff.mp h
  have passed : ∀ searched ∈ before, loader.Lacks tree name searched.1 ∧ searched.2 = none :=
    fun searched hm => outcome?_eq_none_iff.mp (hbefore searched hm)
  obtain hit | ⟨lacks, reason, rfl, rfl⟩ := (outcome?_eq_some_iff hu).mp hdir
  · exact .file hdirs passed hit
  · exact .unlisted hdirs passed lacks

theorem findSome?_of_passed {before after : List Searched} {searched : Searched}
    (hdirs : dirs = before ++ searched :: after)
    (passed : ∀ searched ∈ before, loader.Lacks tree name searched.1 ∧ searched.2 = none)
    (h : loader.outcome? tree name searched = some outcome) :
    dirs.findSome? (loader.outcome? tree name) = some outcome :=
  List.findSome?_eq_some_iff.mpr ⟨before, searched, after, hdirs, h,
    fun searched hm => outcome?_eq_none_iff.mpr (passed searched hm)⟩

theorem FirstHit.getD_eq (hu : Entry.Uppercases upper)
    (h : loader.FirstHit tree name upper dirs outcome) :
    (dirs.findSome? (loader.outcome? tree name)).getD (.error (.sourceNotFound name)) =
      outcome := by
  cases h with
  | file hdirs passed hit =>
    rw [findSome?_of_passed hdirs passed ((outcome?_eq_some_iff hu).mpr (.inl hit))]
    rfl
  | unlisted hdirs passed lacks =>
    rw [findSome?_of_passed hdirs passed
      ((outcome?_eq_some_iff hu).mpr (.inr ⟨lacks, _, rfl, rfl⟩))]
    rfl
  | nowhere passed =>
    rw [List.findSome?_eq_none_iff.mpr fun searched hm =>
      outcome?_eq_none_iff.mpr (passed searched hm)]
    rfl

theorem firstHit_getD (hu : Entry.Uppercases upper) (loader : Loader) (tree : FileTree)
    (name : String) (dirs : List Searched) : loader.FirstHit tree name upper dirs
      ((dirs.findSome? (loader.outcome? tree name)).getD (.error (.sourceNotFound name))) := by
  cases h : dirs.findSome? (loader.outcome? tree name) with
  | some outcome => exact .of_findSome? hu h
  | none =>
    exact .nowhere fun searched hm =>
      outcome?_eq_none_iff.mp (List.findSome?_eq_none_iff.mp h searched hm)

theorem load_eq_iff_firstHit (hu : Entry.Uppercases upper) :
    loader.load tree place name = outcome ↔
      loader.FirstHit tree name upper (directories tree place) outcome := by
  rw [load_eq_findSome?]
  constructor
  · rintro rfl
    exact firstHit_getD hu loader tree name _
  · exact FirstHit.getD_eq hu

theorem walks_flatMap {below : List String} : ∀ subs : List (String × FileNode),
    (∀ sub ∈ subs, ∀ below : List String, Walk (below.foldl Path.join dir) sub.2
      ((sub.2.visits below).map fun visit => (visit.path dir, visit.failure))) →
    Walks (below.foldl Path.join dir) subs
      ((subs.flatMap fun sub => sub.2.visits (below ++ [sub.1])).map
        fun visit => (visit.path dir, visit.failure))
  | [], _ => .nil
  | (name, node) :: subs, h => by
    rw [List.flatMap_cons, List.map_append]
    rw [List.forall_mem_cons] at h
    have hfirst := h.1 (below ++ [name])
    rw [List.foldl_append] at hfirst
    exact .cons hfirst (walks_flatMap subs h.2)

/-- The visits of a directory are a walk from it. -/
theorem walk_visits {node : FileNode} (h : node.isDirectory = true) (dir : String) :
    ∀ below : List String, Walk (below.foldl Path.join dir) node
      ((node.visits below).map fun visit => (visit.path dir, visit.failure)) := by
  induction node using FileNode.directoryInduction with
  | directory failure entries ih =>
    intro below
    cases failure with
    | some failure =>
      rw [FileNode.visits_closed]
      exact .closed
    | none =>
      rw [FileNode.visits_directory, List.map_cons]
      refine .opened ?_ (FileNode.pairwise_subdirectories entries)
        (walks_flatMap _ fun sub hm => ih sub hm (FileNode.mem_subdirectories.mp hm).2)
      exact (List.mergeSort_perm entries _).filter _
  | other node hnode => cases h.symm.trans hnode

theorem search_opened (path : String) (entries : List (String × FileNode)) :
    loader.search tree name path (.directory none entries) =
      (loader.loadFrom? tree name path).or
        ((FileNode.subdirectories entries).findSome? fun entry =>
          loader.search tree name (Path.join path entry.1) entry.2) := by
  conv_rhs => rw [← List.attach_map_subtype_val (FileNode.subdirectories entries)]
  rw [search, List.findSome?_map]
  rfl

theorem findSome?_search {below : List String} : ∀ subs : List (String × FileNode),
    (∀ sub ∈ subs, ∀ below : List String,
      loader.search tree name (below.foldl Path.join dir) sub.2 =
        ((sub.2.visits below).map fun visit => (visit.path dir, visit.failure)).findSome?
          (loader.outcome? tree name)) →
    (subs.findSome? fun sub =>
      loader.search tree name (Path.join (below.foldl Path.join dir) sub.1) sub.2) =
        ((subs.flatMap fun sub => sub.2.visits (below ++ [sub.1])).map
          fun visit => (visit.path dir, visit.failure)).findSome? (loader.outcome? tree name)
  | [], _ => rfl
  | (name, node) :: subs, h => by
    rw [List.forall_mem_cons] at h
    have hfirst := h.1 (below ++ [name])
    rw [List.foldl_append] at hfirst
    rw [List.flatMap_cons, List.map_append, List.findSome?_append, ← hfirst,
      ← findSome?_search subs h.2, findSome?_cons_eq_or]
    rfl

/-- The search goes through the directories of its walk. -/
theorem search_eq_findSome? {node : FileNode} (h : node.isDirectory = true) (dir : String) :
    ∀ below : List String, loader.search tree name (below.foldl Path.join dir) node =
      (((node.visits below).map fun visit => (visit.path dir, visit.failure)).findSome?
        (loader.outcome? tree name)) := by
  induction node using FileNode.directoryInduction with
  | directory failure entries ih =>
    intro below
    cases failure with
    | some failure =>
      rw [FileNode.visits_closed, search, List.map_singleton, List.findSome?_singleton]
      rfl
    | none =>
      rw [search_opened,
        findSome?_search _ fun sub hm => ih sub hm (FileNode.mem_subdirectories.mp hm).2,
        FileNode.visits_directory, List.map_cons, findSome?_cons_eq_or, outcome?, Option.map_none,
        Option.or_none]
      rfl
  | other node hnode => cases h.symm.trans hnode

theorem search_of_not_isDirectory {node : FileNode} (h : node.isDirectory = false) :
    loader.search tree name path node = (loader.loadFrom? tree name path).or
      (some (.error (.unreadable path .notADirectory))) := by
  cases node with
  | directory => cases h
  | file | link => rw [search] <;> simp

theorem directories_alone (dir : String) : directories tree { dir } = [(dir, none)] := rfl

theorem directories_walk {node : FileNode} (hlookup : tree.lookup dir = .ok node)
    (hnode : node.isDirectory = true) : directories tree { dir, recursive := true } =
      (node.visits []).map fun visit => (visit.path dir, visit.failure) := by
  cases node with
  | directory failure entries => rw [directories, visits, if_pos rfl, FileTree.visits, hlookup]
  | file | link => cases hnode

theorem directories_notADirectory {node : FileNode} (hlookup : tree.lookup dir = .ok node)
    (hnode : node.isDirectory = false) :
    directories tree { dir, recursive := true } = [(dir, some .notADirectory)] := by
  rw [directories, visits, if_pos rfl, FileTree.visits, hlookup]
  cases node with
  | directory => cases hnode
  | file | link => rfl

theorem directories_unreachable {failure : ReadFailure}
    (hlookup : tree.lookup dir = .error failure) :
    directories tree { dir, recursive := true } = [(dir, some failure)] := by
  rw [directories, visits, if_pos rfl, FileTree.visits, hlookup]
  rfl

theorem order_directories (tree : FileTree) (dir : String) (recursive : Bool) :
    Order tree dir recursive (directories tree { dir, recursive }) := by
  cases recursive with
  | false => exact .alone
  | true =>
    cases hlookup : tree.lookup dir with
    | error failure =>
      rw [directories_unreachable hlookup]
      exact .unreachable hlookup
    | ok node =>
      cases hnode : node.isDirectory with
      | true =>
        rw [directories_walk hlookup hnode]
        exact .walk hlookup (walk_visits hnode dir [])
      | false =>
        rw [directories_notADirectory hlookup hnode]
        exact .notADirectory hlookup hnode

/-- Searching into the depth gives what the list of directories gives. -/
theorem searchFrom_eq_findSome? (loader : Loader) (tree : FileTree) (name : String)
    (place : Place) : loader.searchFrom tree name place =
      (directories tree place).findSome? (loader.outcome? tree name) := by
  obtain ⟨dir, recursive⟩ := place
  cases recursive with
  | false =>
    rw [directories_alone, List.findSome?_singleton, outcome?, Option.map_none, Option.or_none]
    rfl
  | true =>
    rw [searchFrom, if_pos rfl]
    cases hlookup : tree.lookup dir with
    | error failure =>
      rw [directories_unreachable hlookup, List.findSome?_singleton]
      rfl
    | ok node =>
      cases hnode : node.isDirectory with
      | true => rw [directories_walk hlookup hnode, ← search_eq_findSome? hnode dir []]; rfl
      | false =>
        rw [directories_notADirectory hlookup hnode, List.findSome?_singleton]
        exact search_of_not_isDirectory hnode

/-- What a directory has by itself counts also if those below it are searched. -/
theorem load_recursive_of_loadFrom? (h : loader.loadFrom? tree name dir = some outcome) :
    loader.load tree { dir, recursive := true } name = outcome := by
  obtain ⟨visit, rest, hvisits, hbelow⟩ := visits_eq_cons tree dir
  have hdirs : directories tree { dir, recursive := true } =
      (dir, visit.failure) :: rest.map fun visit => (visit.path dir, visit.failure) := by
    rw [directories, visits, if_pos rfl, hvisits, List.map_cons, Visit.path, hbelow]
    rfl
  rw [load_eq_findSome?, hdirs, findSome?_cons_eq_or, outcome?, h]
  rfl

theorem load_alone : loader.load tree { dir } name =
    (loader.loadFrom? tree name dir).getD (.error (.sourceNotFound name)) := by
  rw [load_eq_findSome?, directories_alone, List.findSome?_singleton, outcome?, Option.map_none,
    Option.or_none]

/-- Loading gives the first hit in the order of the directories, formats and file names: what the
content of that file is converted to, or why it is not. It is what the search into the depth finds,
and what is found in a directory alone does not change if those below it are searched as well. -/
theorem load_returns_first_hit {upper : Char → List Char} (hu : Entry.Uppercases upper)
    (loader : Loader) (tree : FileTree) (dir name : String) :
    (∀ recursive, ∃ dirs, Order tree dir recursive dirs ∧
      ∀ outcome, loader.load tree { dir, recursive } name = outcome ↔
        loader.FirstHit tree name upper dirs outcome) ∧
    (∀ recursive, loader.load tree { dir, recursive } name =
      (loader.searchFrom tree name { dir, recursive }).getD (.error (.sourceNotFound name))) ∧
    ∀ outcome, loader.load tree { dir } name = outcome →
      outcome ≠ .error (.sourceNotFound name) →
        loader.load tree { dir, recursive := true } name = outcome := by
  refine ⟨fun recursive => ⟨_, order_directories tree dir recursive, fun outcome =>
    load_eq_iff_firstHit hu⟩, fun recursive => ?_, fun outcome hload hfound => ?_⟩
  · rw [load_eq_findSome?, searchFrom_eq_findSome?]
  · rw [load_alone] at hload
    cases hfrom : loader.loadFrom? tree name dir with
    | none =>
      rw [hfrom] at hload
      exact absurd hload.symm hfound
    | some found =>
      rw [hfrom] at hload
      exact load_recursive_of_loadFrom? (hfrom.trans (congrArg some hload))

def twoDirectories : FileTree :=
  { root := .directory none
      [("b", .directory none [(".env", .file (.ok "A=1\n"))]),
        ("a", .directory none [("env.json", .file (.ok "\x7b\"a\":\"x\"\x7d"))])] }

theorem load_returns_first_hit_twoDirectories :
    Entry.Uppercases (fun c => (Entry.upperName? c).getD [c]) ∧
      ∃ dirs, Order twoDirectories "." true dirs ∧
        ({} : Loader).FirstHit twoDirectories "default"
          (fun c => (Entry.upperName? c).getD [c]) dirs (.ok "A=\"x\"\n") := by
  obtain ⟨dirs, order, hload⟩ :=
    (load_returns_first_hit Entry.uppercases_getD {} twoDirectories "." "default").1 true
  have hresult : ({} : Loader).load twoDirectories { recursive := true } "default" =
      .ok "A=\"x\"\n" := by cbv
  exact ⟨Entry.uppercases_getD, dirs, order, (hload _).mp hresult⟩

end Loader
end LayeredEnv
