import LayeredEnv.CommandLine.Run

namespace LayeredEnv.Program

def readFailure : IO.Error → ReadFailure
  | .permissionDenied .. => .permissionDenied
  | .inappropriateType .. => .notADirectory
  | _ => .notFound

def readText (path : String) : IO (Except ReadFailure String) := do
  try
    match String.fromUTF8? (← IO.FS.readBinFile path) with
    | some text => return .ok text
    | none => return .error .invalidData
  catch error => return .error (readFailure error)

/-- A directory. The names that are wanted have their texts; a link to a file counts as the file,
and other links lead nowhere. -/
partial def readDirectory (wanted : String → Bool) (recursive : Bool) (path : String) :
    IO FileNode := do
  let here ← IO.currentDir
  let file (name : String) : IO FileNode := do
    if wanted name then .file <$> readText (Path.join path name) else return .file (.ok "")
  try
    let nodes ← (← (here / path).readDir).toList.mapM fun entry => do
      let name := entry.fileName
      let node ← match (← entry.path.symlinkMetadata).type with
        | .dir =>
          if recursive then readDirectory wanted recursive (Path.join path name)
          else pure FileNode.empty
        | .file => file name
        | _ =>
          let isFile ← try pure ((← entry.path.metadata).type == .file) catch _ => pure false
          if isFile then file name else pure (.link "")
      return (name, node)
    return .directory none nodes
  catch error => return .directory (some (readFailure error)) []

def placeOf (here : List String) (path : String) : List String :=
  (Path.names path).foldl
    (fun place name =>
      if name == "" || name == "." then place
      else if name == ".." then place.dropLast
      else place ++ [name])
    (if Path.isAbsolute path then [] else here)

def surroundings (args : CommandLine.Arguments) : IO Surroundings := do
  let here := placeOf [] (← IO.currentDir).toString
  let home := (← IO.getEnv "HOME").toList.map fun home => ("HOME", home)
  let settingsPath := expandPath (fun name => List.lookup name home) Config.settingsPath
  let settings ← readText settingsPath
  let config := CommandLine.configured args (.load settings.toOption)
  let named ← ("PATH" :: PathExpansion.names config.dir).filterMapM fun name => do
    return (← IO.getEnv name).map fun value => (name, value)
  let bindings := home ++ named
  let place := config.place fun name => List.lookup name bindings
  let isKnown (name : String) : Bool :=
    Format.all.any fun format => (format.environmentName? name "").isSome
  let isCommand := !args.command.isEmpty
  let start ← if isCommand then readDirectory (fun _ => true) false "." else pure .empty
  let root := FileNode.empty.put here start
  let root ← if place.dir.isEmpty then pure root
    else do
      let found ← readDirectory (fun name => isCommand || isKnown name) place.recursive place.dir
      pure (root.put (placeOf here place.dir) found)
  return { tree := { root := root.put (placeOf here settingsPath) (.file settings)
                     workingDirectory := here }
           bindings }

def execute (words : List String) : IO UInt32 := do
  let world ← match CommandLine.Arguments.parse words with
    | .ok args => surroundings args
    | .error _ => pure { tree := { root := .empty }, bindings := [] }
  let outcome := CommandLine.run world words
  (← IO.getStdout).putStr outcome.stdout
  (← IO.getStderr).putStr outcome.stderr
  return outcome.code.toUInt32

end LayeredEnv.Program

def main (words : List String) : IO UInt32 := LayeredEnv.Program.execute words
