import LayeredEnv.Proofs.Inclusion.Asked
import LayeredEnv.Proofs.Loading.Listing

namespace LayeredEnv

namespace FileNode

inductive Leads : FileNode → List String → FileNode → Prop where
  | here (node : FileNode) : Leads node [] node
  | into {failure : Option ReadFailure} {entries : List (String × FileNode)} {name : String}
      {child node : FileNode} {names : List String} :
    (name, child) ∈ entries → child.isDirectory = true → Leads child names node →
      Leads (directory failure entries) (name :: names) node

def Reaches (node : FileNode) (below : List String) (visit : Visit) : Prop :=
  ∃ names sub, visit.below = below ++ names ∧ node.Leads names sub ∧ sub.isDirectory = true

theorem isDirectory_of_mem_visits {node : FileNode} {below : List String} {visit : Visit}
    (h : visit ∈ node.visits below) : node.isDirectory = true := by
  cases node with
  | directory => rfl
  | file | link => simp [visits] at h

mutual

theorem reaches_of_mem_visits : ∀ (node : FileNode) (below : List String),
    ∀ visit ∈ node.visits below, node.Reaches below visit
  | directory none entries, below, visit, hm => by
    rw [visits, List.mem_cons] at hm
    obtain rfl | hm := hm
    · exact ⟨[], _, (List.append_nil below).symm, .here _, rfl⟩
    · simp only [List.mem_flatMap, List.mem_mergeSort] at hm
      obtain ⟨⟨name, walk⟩, hwalk, hm⟩ := hm
      obtain ⟨child, hentry, ⟨names, sub, hbelow, hleads, hsub⟩, hdirectory⟩ :=
        reaches_of_mem_visitsBelow entries below name walk hwalk visit hm
      refine ⟨name :: names, sub, ?_, .into hentry hdirectory hleads, hsub⟩
      rw [hbelow, List.append_assoc, List.singleton_append]
  | directory (some failure) entries, below, visit, hm => by
    obtain rfl : visit = _ := List.mem_singleton.mp (by simpa [visits] using hm)
    exact ⟨[], _, (List.append_nil below).symm, .here _, rfl⟩
  | file _, _, _, hm => by simp [visits] at hm
  | link _, _, _, hm => by simp [visits] at hm

theorem reaches_of_mem_visitsBelow : ∀ (entries : List (String × FileNode)) (below : List String)
    (name : String) (walk : List Visit), (name, walk) ∈ visitsBelow below entries →
    ∀ visit ∈ walk, ∃ child, (name, child) ∈ entries ∧
      child.Reaches (below ++ [name]) visit ∧ child.isDirectory = true
  | [], _, _, _, hm, _, _ => by simp [visitsBelow] at hm
  | (other, node) :: entries, below, name, walk, hm, visit, hvisit => by
    rw [visitsBelow, List.mem_cons, Prod.mk.injEq] at hm
    obtain ⟨rfl, rfl⟩ | hm := hm
    · exact ⟨node, List.mem_cons_self, reaches_of_mem_visits node _ visit hvisit,
        isDirectory_of_mem_visits hvisit⟩
    · obtain ⟨child, hentry, hreaches⟩ :=
        reaches_of_mem_visitsBelow entries below name walk hm visit hvisit
      exact ⟨child, List.mem_cons_of_mem _ hentry, hreaches⟩

end

end FileNode
namespace Path

/-- A name in a directory: it stands for something there, not for the directory itself, for the one
above or for what is further down. -/
structure IsEntry (file : String) : Prop where
  no_slash : '/' ∉ file.toList
  ne_empty : file ≠ ""
  ne_here : file ≠ "."
  ne_above : file ≠ ".."

theorem IsEntry.of_length {file : String} (hlength : 2 < file.toList.length)
    (hslash : '/' ∉ file.toList) : IsEntry file := by
  refine ⟨hslash, ?_, ?_, ?_⟩ <;> rintro rfl <;> simp at hlength

end Path

namespace Place

/-- The names lead to the directory of the place, or, if those below count, to one that is reached
from there through directories. -/
def Leads (place : Place) (tree : FileTree) (names : List String) : Prop :=
  names = [] ∨ place.recursive = true ∧ ∃ node sub, tree.lookup place.dir = .ok node ∧
    node.Leads names sub ∧ sub.isDirectory = true

/-- The path is that of an entry of such a directory. -/
def Has (place : Place) (tree : FileTree) (path : String) : Prop :=
  ∃ names file, path = Path.join (names.foldl Path.join place.dir) file ∧
    place.Leads tree names ∧ Path.IsEntry file

end Place

namespace Format

/-- The file names of an environment are entries of a directory if its name has no slash. -/
theorem isEntry_of_mem_candidates {format : Format} {file name default : String}
    (hname : '/' ∉ name.toList) (hm : file ∈ format.candidates name default) :
    Path.IsEntry file := by
  have hsought : '/' ∉ (soughtName name).toList := fun h => hname (mem_of_mem_soughtName h)
  cases format with
  | classic =>
    rw [mem_candidates_classic] at hm
    split at hm
    · subst hm
      exact .of_length (by decide) (by decide)
    · obtain he | he := hm <;> refine .of_length ?_ ?_ <;> rw [he] <;> simp [hsought]
  | json =>
    rw [mem_candidates_json] at hm
    split at hm
    · subst hm
      exact .of_length (by decide) (by decide)
    · obtain he | he := hm <;> refine .of_length ?_ ?_ <;> rw [he] <;> simp [hsought]

end Format

namespace Loader

variable {loader : Loader} {tree : FileTree} {place : Place} {name : String}

def looks (loader : Loader) (tree : FileTree) (place : Place) (name : String) : List String :=
  (visits tree place).flatMap fun visit =>
    (loader.candidates name).map fun candidate => Path.join (visit.path place.dir) candidate.2

theorem findSome?_congr {α β : Type} {f g : α → Option β} {items : List α}
    (h : ∀ item ∈ items, f item = g item) : items.findSome? f = items.findSome? g := by
  induction items with
  | nil => rfl
  | cons item items ih =>
    rw [List.forall_mem_cons] at h
    rw [List.findSome?_cons, List.findSome?_cons, h.1, ih h.2]

theorem loadFrom?_congr {other : FileTree} {dir : String}
    (h : ∀ candidate ∈ loader.candidates name,
      other.isFile (Path.join dir candidate.2) = tree.isFile (Path.join dir candidate.2) ∧
        other.read (Path.join dir candidate.2) = tree.read (Path.join dir candidate.2)) :
    loader.loadFrom? other name dir = loader.loadFrom? tree name dir := by
  refine findSome?_congr fun candidate hm => ?_
  obtain ⟨hfile, hread⟩ := h candidate hm
  dsimp only
  rw [hfile, readFile, readFile, hread]

/-- What is loaded depends on the directories that are visited, and on nothing but the paths that
are tried in them. -/
theorem load_congr {other : FileTree} (hvisits : visits other place = visits tree place)
    (h : ∀ path ∈ loader.looks tree place name,
      other.isFile path = tree.isFile path ∧ other.read path = tree.read path) :
    loader.load other place name = loader.load tree place name := by
  have hvisit : ∀ visit ∈ visits tree place,
      loader.visit? other name place.dir visit = loader.visit? tree name place.dir visit := by
    intro visit hm
    have hfrom : loader.loadFrom? other name (visit.path place.dir) =
        loader.loadFrom? tree name (visit.path place.dir) :=
      loadFrom?_congr fun candidate hc =>
        h _ (List.mem_flatMap.mpr ⟨visit, hm, List.mem_map_of_mem hc⟩)
    rw [visit?, visit?, hfrom]
  rw [load, load, hvisits, findSome?_congr hvisit]

/-- A visited directory is that of the place, or is reached from there through directories. -/
theorem leads_of_mem_visits {visit : Visit} (h : visit ∈ visits tree place) :
    place.Leads tree visit.below := by
  rw [visits] at h
  split at h
  · next hrecursive =>
    unfold FileTree.visits at h
    split at h
    · next hlookup =>
      obtain ⟨names, sub, hbelow, hleads, hsub⟩ := FileNode.reaches_of_mem_visits _ [] visit h
      rw [List.nil_append] at hbelow
      exact .inr ⟨hrecursive, _, sub, hlookup, hbelow ▸ hleads, hsub⟩
    · rw [List.mem_singleton] at h
      exact .inl (h ▸ rfl)
    · rw [List.mem_singleton] at h
      exact .inl (h ▸ rfl)
  · rw [List.mem_singleton] at h
    exact .inl (h ▸ rfl)

theorem has_of_mem_looks {path : String} (hname : '/' ∉ name.toList)
    (h : path ∈ loader.looks tree place name) : place.Has tree path := by
  obtain ⟨visit, hvisit, hpath⟩ := List.mem_flatMap.mp h
  obtain ⟨⟨format, file⟩, hcandidate, rfl⟩ := List.mem_map.mp hpath
  exact ⟨visit.below, file, rfl, leads_of_mem_visits hvisit,
    Format.isEntry_of_mem_candidates hname (mem_candidates.mp hcandidate).2⟩

end Loader

namespace Include

theorem IsSourceName.no_slash {name : String} (h : IsSourceName name) : '/' ∉ name.toList := by
  intro hm
  exact absurd (h.2 '/' hm) (by decide)

/-- The names that merging the directives of a text asks for, whatever the provider has, are made of
letters, digits and `-`, `_`, `.`, `$` and `%`. A loader that is asked for such a name visits its
directory, and those that are reached from there through directories, and looks at entries of these
alone. What else a provider knows has no bearing on the merge, and what else there is in a file tree
none on what is loaded. -/
theorem includes_stay_below {text : String} {limit : ℕ} {tokens : TokenTree}
    (read : tokenize text limit = .ok tokens) (provider : Provider) (origin : String) :
    (∀ provide : String → Except Error String,
      (∀ name, Asks provider limit origin tokens name → provide name = provider.provide name) →
      merge ⟨provide, provider.depth⟩ limit origin tokens =
        merge provider limit origin tokens) ∧
    ∀ name, Asks provider limit origin tokens name → IsSourceName name ∧
      ∀ (loader : Loader) (tree : FileTree) (place : Place),
        (∀ visit ∈ Loader.visits tree place, place.Leads tree visit.below) ∧
        (∀ path ∈ loader.looks tree place name, place.Has tree path) ∧
        ∀ other : FileTree, Loader.visits other place = Loader.visits tree place →
          (∀ path ∈ loader.looks tree place name,
            other.isFile path = tree.isFile path ∧ other.read path = tree.read path) →
          loader.load other place name = loader.load tree place name := by
  refine ⟨fun provide hsame => merge_congr hsame, fun name hasks => ?_⟩
  have hname : IsSourceName name := isSourceName_of_asks read hasks
  refine ⟨hname, fun loader tree place => ⟨fun visit hvisit => ?_, fun path hpath => ?_,
    fun other hvisits hsame => ?_⟩⟩
  · exact Loader.leads_of_mem_visits hvisit
  · -- a name without a slash cannot lead out, for no file name is made of dots alone
    exact Loader.has_of_mem_looks hname.no_slash hpath
  · exact Loader.load_congr hvisits hsame

theorem includes_stay_below_leaf :
    Asks nestedSources.provider 20 "main" (.ofTokens [.leaf .includeFlag "leaf"]) "leaf" ∧
      IsSourceName "leaf" ∧
      ∀ path ∈ ({} : Loader).looks (Loader.oneFile ".env.leaf" "C=3") {} "leaf",
        Place.Has {} (Loader.oneFile ".env.leaf" "C=3") path := by
  have hasks : Asks nestedSources.provider 20 "main" (.ofTokens [.leaf .includeFlag "leaf"])
      "leaf" := AsksFrom.head rfl (by decide)
  have hread : tokenize (directive "leaf") 20 = .ok (.ofTokens [.leaf .includeFlag "leaf"]) :=
    tokenize_directive (by decide) (by decide) 20
  obtain ⟨hname, hload⟩ := (includes_stay_below hread nestedSources.provider "main").2 "leaf" hasks
  exact ⟨hasks, hname, (hload {} (Loader.oneFile ".env.leaf" "C=3") {}).2.1⟩

end Include
end LayeredEnv
