import LayeredEnv.FileTree
import LayeredEnv.Format
import LayeredEnv.Provider

namespace LayeredEnv

structure Place where
  dir : String := "."
  recursive : Bool := false

structure DeclarationFile where
  environment : String
  format : Format
  /-- The names that lead to the file from the listed directory. -/
  below : List String
  path : String

/-- The formats that are looked for, the preferred ones first. -/
structure Loader where
  formats : List Format := Format.all
  defaultEnvironment : String := "default"
  /-- What the JSON parser says of a text that is no object. -/
  complaint : String → String := Entry.notAnObject

namespace Visit

def path (visit : Visit) (dir : String) : String := visit.below.foldl Path.join dir

end Visit

namespace Loader

def candidates (loader : Loader) (name : String) : List (Format × String) :=
  loader.formats.flatMap fun format =>
    (format.candidates name loader.defaultEnvironment).map fun file => (format, file)

def readFile (loader : Loader) (tree : FileTree) (format : Format) (path : String) :
    Except Error String :=
  match tree.read path with
  | .ok content => format.declarationText content path loader.complaint
  | .error failure => .error (.unreadable path failure)

def loadFrom? (loader : Loader) (tree : FileTree) (name dir : String) :
    Option (Except Error String) :=
  (loader.candidates name).findSome? fun (format, file) =>
    let path := Path.join dir file
    if tree.isFile path then some (loader.readFile tree format path) else none

/-- The outcome of a visit; a directory that cannot be listed ends the search. -/
def visit? (loader : Loader) (tree : FileTree) (name dir : String) (visit : Visit) :
    Option (Except Error String) :=
  let path := visit.path dir
  (loader.loadFrom? tree name path).or
    (visit.failure.map fun failure => .error (.unreadable path failure))

/-- The directories to search. A directory that is searched alone is never listed. -/
def visits (tree : FileTree) (place : Place) : List Visit :=
  if place.recursive then tree.visits place.dir
  else [{ below := [], files := [], failure := none }]

def load (loader : Loader) (tree : FileTree) (place : Place) (name : String) :
    Except Error String :=
  ((visits tree place).findSome? (loader.visit? tree name place.dir)).getD
    (.error (.sourceNotFound name))

/-- A format gives at most three names to a file, which bounds the names that have a text. -/
def provider (loader : Loader) (tree : FileTree) (place : Place) : Provider :=
  ⟨loader.load tree place, 3 * loader.formats.length * tree.root.size⟩

/-- The file of a name in a directory, if one of the formats claims it; the first one does. -/
def claim? (loader : Loader) (dir : String) (below : List String) (file : String) :
    Option DeclarationFile :=
  loader.formats.findSome? fun format =>
    (format.environmentName? file loader.defaultEnvironment).map fun environment =>
      { environment, format, below := below ++ [file], path := Path.join dir file }

def filesOf (loader : Loader) (dir : String) (visit : Visit) :
    Except Error (List DeclarationFile) :=
  let path := visit.path dir
  match visit.failure with
  | some failure => .error (.unreadable path failure)
  | none => .ok (visit.files.filterMap (loader.claim? path visit.below))

/-- The order of a listing: by environment, then by path, name for name. -/
def before (a b : DeclarationFile) : Bool :=
  a.environment < b.environment || (a.environment == b.environment && !b.below.lex a.below (· < ·))

def list (loader : Loader) (tree : FileTree) (place : Place) :
    Except Error (List DeclarationFile) := do
  let visits := tree.visits place.dir
  let files ← (if place.recursive then visits else visits.take 1).mapM (loader.filesOf place.dir)
  return files.flatten.mergeSort before

end Loader
end LayeredEnv
