import LayeredEnv.Error

namespace LayeredEnv

inductive FileNode where
  /-- A regular file with its text, or why it cannot be read. -/
  | file (content : Except ReadFailure String)
  /-- A directory with what its names stand for, and why it cannot be listed if it cannot. -/
  | directory (failure : Option ReadFailure) (entries : List (String × FileNode))
  | link (target : String)

structure Visit where
  /-- The names that lead there from where the walk began. -/
  below : List String
  /-- The names in it that are no directories. -/
  files : List String
  failure : Option ReadFailure

namespace FileNode

def empty : FileNode := directory none []

def isDirectory : FileNode → Bool
  | directory .. => true
  | _ => false

def entry? (node : FileNode) (name : String) : Option FileNode :=
  match node with
  | directory _ entries => entries.lookup name
  | _ => none

def descend? (node : FileNode) : List String → Option FileNode
  | [] => some node
  | name :: names => (node.entry? name).bind (·.descend? names)

/-- Sets what the names lead to; directories on the way are made where there are none. -/
def put (node : FileNode) (names : List String) (new : FileNode) : FileNode :=
  match names with
  | [] => new
  | name :: names =>
    let others := match node with
      | directory _ entries => entries.filter (·.1 != name)
      | _ => []
    directory none ((name, ((node.entry? name).getD empty).put names new) :: others)

mutual

def size : FileNode → Nat
  | directory _ entries => sizeBelow entries
  | _ => 0

def sizeBelow : List (String × FileNode) → Nat
  | [] => 0
  | (_, node) :: entries => 1 + node.size + sizeBelow entries

end

def byName {α : Type} (a b : String × α) : Bool := a.1 ≤ b.1

mutual

/-- The directory and every one below it, each before those below it and neighbours in the order
of their names. -/
def visits (below : List String) : FileNode → List Visit
  | directory none entries =>
    { below, files := filesOf entries, failure := none } ::
      ((visitsBelow below entries).mergeSort byName).flatMap (·.2)
  | directory failure _ => [{ below, files := [], failure }]
  | _ => []

def visitsBelow (below : List String) : List (String × FileNode) → List (String × List Visit)
  | [] => []
  | (name, node) :: entries => (name, node.visits (below ++ [name])) :: visitsBelow below entries

def filesOf (entries : List (String × FileNode)) : List String :=
  (entries.filter fun entry => !entry.2.isDirectory).map (·.1)

end

end FileNode

structure FileTree where
  root : FileNode
  workingDirectory : List String := []

namespace Path

def names (path : String) : List String :=
  go [] path.toList
where
  go (name : List Char) : List Char → List String
    | [] => [.ofList name.reverse]
    | c :: cs => if c == '/' then .ofList name.reverse :: go [] cs else go (c :: name) cs

def isAbsolute (path : String) : Bool := path.startsWith "/"

/-- The path of what lies at `path` seen from `dir`; an absolute path is the same from anywhere. -/
def join (dir path : String) : String :=
  if isAbsolute path || dir.isEmpty then path
  else if dir.endsWith "/" then dir ++ path
  else dir ++ "/" ++ path

end Path

namespace FileTree

def maxLinks : Nat := 40

/-- Follows names from a directory, given by the names that lead to it from the root; gives the
names that lead to what they stand for, which is no link. Every name but the last has to stand for
a directory, or for a link to one. -/
def resolve (tree : FileTree) (links : Nat) (here : List String) :
    List String → Except ReadFailure (List String)
  | [] => .ok here
  | name :: names =>
    match tree.root.descend? here with
    | some (.directory _ entries) =>
      if name == "" || name == "." then tree.resolve links here names
      else if name == ".." then tree.resolve links here.dropLast names
      else match entries.lookup name with
        | none => .error .notFound
        | some (.link target) =>
          match links with
          | 0 => .error .tooManyLinks
          | rest + 1 =>
            tree.resolve rest (if Path.isAbsolute target then [] else here)
              (Path.names target ++ names)
        | some _ => tree.resolve links (here ++ [name]) names
    | some _ => .error .notADirectory
    | none => .error .notFound
termination_by names => (links, names.length)

def lookup (tree : FileTree) (path : String) : Except ReadFailure FileNode := do
  if path.isEmpty then throw .notFound
  let start := if Path.isAbsolute path then [] else tree.workingDirectory
  match tree.root.descend? (← tree.resolve maxLinks start (Path.names path)) with
  | some node => return node
  | none => throw .notFound

def isFile (tree : FileTree) (path : String) : Bool :=
  match tree.lookup path with
  | .ok (.file _) => true
  | _ => false

def read (tree : FileTree) (path : String) : Except ReadFailure String := do
  match ← tree.lookup path with
  | .file content => content
  | .directory .. => throw .isADirectory
  | .link _ => throw .tooManyLinks

/-- The names that lead from the root to the file that a path stands for, which need not exist in
its directory. -/
def place (tree : FileTree) (path : String) : Except ReadFailure (List String) := do
  let names := Path.names path
  let start := if Path.isAbsolute path then [] else tree.workingDirectory
  match tree.resolve maxLinks start names, names.getLast? with
  | .ok place, _ => return place
  | .error .notFound, some name => return (← tree.resolve maxLinks start names.dropLast) ++ [name]
  | .error failure, _ => throw failure

def write (tree : FileTree) (path text : String) : Except ReadFailure FileTree := do
  if path.isEmpty then throw .notFound
  let place ← tree.place path
  match tree.root.descend? place with
  | some (.directory ..) => throw .isADirectory
  | _ => return { tree with root := tree.root.put place (.file (.ok text)) }

/-- The walk from the directory that a path leads to; it always begins with that directory. -/
def visits (tree : FileTree) (dir : String) : List Visit :=
  match tree.lookup dir with
  | .ok (.directory failure entries) => (FileNode.directory failure entries).visits []
  | .ok _ => [{ below := [], files := [], failure := some .notADirectory }]
  | .error failure => [{ below := [], files := [], failure := some failure }]

end FileTree
end LayeredEnv
