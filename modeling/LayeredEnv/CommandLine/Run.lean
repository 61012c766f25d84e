import LayeredEnv.CommandLine.Arguments
import LayeredEnv.Compile
import LayeredEnv.Config
import LayeredEnv.Shell.Quote
import LayeredEnv.Shell.Run

namespace LayeredEnv

structure Surroundings where
  tree : FileTree
  bindings : List (String × String)

namespace Surroundings

def find? (world : Surroundings) (name : String) : Option String := world.bindings.lookup name

end Surroundings

structure Outcome where
  code : Nat := 0
  stdout : String := ""
  stderr : String := ""
  deriving DecidableEq, Repr

namespace CommandLine

/-- What is left to do when nothing can fail any more. -/
inductive Action where
  | print (text : String)
  | command (environment : Environment) (line : String)

def printed (environment : Environment) : OutputFormat → Except Error String
  | .dotenv =>
    return String.join (environment.bindings.map fun (name, value) =>
      name ++ "=" ++ quote value ++ "\n")
  | .shell => do
    let lines ← environment.bindings.mapM fun (name, value) =>
      match Shell.quote? value with
      | some word => .ok ("export " ++ name ++ "=" ++ word ++ "\n")
      | none => .error .unquotable
    return String.join lines
  | .json => return Json.prettyStrings environment.bindings ++ "\n"

def listed (files : List DeclarationFile) : String :=
  String.join (files.map fun file =>
    file.environment ++ "\t" ++ file.format.name ++ "\t" ++ file.path ++ "\n")

/-- A command with an environment; no program can be given a NUL. -/
def command (environment : Environment) (words : List String) : Except Error Action :=
  let line := " ".intercalate words
  if (line :: environment.bindings.map (·.2)).any (·.contains '\x00') then
    .error (.unreadable "sh" .nulByte)
  else .ok (.command environment line)

def configured (args : Arguments) (config : Config) : Config :=
  { config with
    dir := args.dir.getD config.dir
    recursive := args.recursive || config.recursive }

def action (world : Surroundings) (args : Arguments) (config : Config) : Except Error Action := do
  let config := configured args config
  if args.dumpConfig then return .print config.toToml
  let place := config.place world.find?
  if args.list then return .print (listed (← config.loader.list world.tree place))
  let environment ← Compile.environment (args.env.getD config.defaultEnvironment)
    (config.loader.provider world.tree place) config.noProgressLimit
  if let some text := args.expand then
    let lookup : Lookup Unit := fun name => pure (environment.get? name)
    let value ← (expand text lookup ()).1
    return .print (value.getD "" ++ "\n")
  if args.command.isEmpty then
    return .print (← printed environment (args.format.getD .dotenv))
  command environment args.command

def perform (world : Surroundings) : Action → Outcome
  | .print text => { stdout := text }
  | .command environment line =>
    let inherited := world.bindings.filter fun (name, _) => (environment.get? name).isNone
    let ending := Shell.runLine world.tree (inherited ++ environment.bindings) line
    { code := ending.status.getD 1, stdout := ending.out, stderr := ending.err }

def version : String := "zenv 0.1.0\n"

def help : String :=
  "Compile layered .env declaration files with shell-style expansion\n\n"
    ++ "Usage: zenv [OPTIONS] [-- <COMMAND>...]\n\n"
    ++ "Arguments:\n"
    ++ "  [COMMAND]...  Command to run with the compiled environment\n\n"
    ++ "Options:\n"
    ++ "  -e, --env <ENV>        Environment to compile "
    ++ "[default: the configured default environment]\n"
    ++ "  -d, --dir <DIR>        Directory holding the declaration files\n"
    ++ "  -r, --recursive        Search subdirectories when the directory has no match\n"
    ++ "      --format <FORMAT>  How to print the compiled environment [default: dotenv] "
    ++ "[possible values: dotenv, shell, json]\n"
    ++ "  -v, --verbose...       Log more; repeat for more detail\n"
    ++ "      --expand <TEXT>    Expand one expression against the compiled environment\n"
    ++ "      --list             List the environments found in the directory\n"
    ++ "      --dump-config      Print the merged configuration\n"
    ++ "  -h, --help             Print help\n"
    ++ "  -V, --version          Print version\n"

def usage : String :=
  "error: invalid arguments\n\nUsage: zenv [OPTIONS] [-- <COMMAND>...]\n\n"
    ++ "For more information, try '--help'.\n"

def run (world : Surroundings) (words : List String) : Outcome :=
  match Arguments.parse words with
  | .error .misuse => { code := 2, stderr := usage }
  | .error .help => { stdout := help }
  | .error .version => { stdout := version }
  | .ok args =>
    let settings := world.tree.read (expandPath world.find? Config.settingsPath)
    match action world args (.load settings.toOption) with
    | .ok action => perform world action
    | .error error => { code := 1, stderr := "zenv: " ++ error.message ++ "\n" }

end CommandLine
end LayeredEnv
