import LayeredEnv.Loader
import LayeredEnv.LogLevel
import LayeredEnv.PathExpansion
import LayeredEnv.Token.Tokenize
import LayeredEnv.Toml.Parser
import LayeredEnv.Toml.Writer

namespace LayeredEnv

structure Config where
  defaultEnvironment : String := "default"
  /-- The directory with the declaration files, before expansion. -/
  dir : String := "."
  recursive : Bool := false
  formats : List String := ["classic", "json"]
  /-- How many steps without progress the tokenizer may take. -/
  noProgressLimit : Nat := 20
  logLevel : String := "warn"
  /-- The log file; an empty text means none. -/
  logFile : String := "~/.local/share/zenv/zenv.log"
  deriving DecidableEq, Repr

/-- A user's settings; what is not set leaves the configuration as it is. -/
structure Overlay where
  defaultEnvironment : Option String := none
  dir : Option String := none
  recursive : Option Bool := none
  /-- Whether the formats stand in place of the configured ones. -/
  replaceFormats : Bool := false
  formats : List String := []
  removedFormats : List String := []
  noProgressLimit : Option Nat := none
  logLevel : Option String := none
  logFile : Option String := none

namespace Overlay

/-- Reads one section into the settings. The fields can be given in the order of `names`, at least
the first `required` of them. -/
def inSection (entries : Toml.Entries) (name : String) (names : List String) (required : Nat)
    (read : Toml.Entries → Overlay → Option Overlay) (overlay : Overlay) : Option Overlay :=
  match entries.lookup name with
  | none => some overlay
  | some value => (value.record? names required).bind (read · overlay)

def readSettings (fields : Toml.Entries) (overlay : Overlay) : Option Overlay := do
  return { overlay with
    defaultEnvironment := ← Toml.field? fields "default_environment" Toml.string? }

def readLoader (fields : Toml.Entries) (overlay : Overlay) : Option Overlay := do
  return { overlay with
    dir := ← Toml.field? fields "dir" Toml.string?
    recursive := ← Toml.field? fields "recursive" Toml.boolean?
    replaceFormats := (← Toml.field? fields "replace" Toml.boolean?).getD false
    formats := (← Toml.field? fields "formats" Toml.strings?).getD []
    removedFormats := (← Toml.field? fields "remove_formats" Toml.strings?).getD [] }

def readTokenizer (fields : Toml.Entries) (overlay : Overlay) : Option Overlay := do
  return { overlay with
    noProgressLimit := ← Toml.field? fields "no_progress_limit" Toml.natural? }

def readLogging (fields : Toml.Entries) (overlay : Overlay) : Option Overlay := do
  return { overlay with
    logLevel := ← Toml.field? fields "level" Toml.string?
    logFile := ← Toml.field? fields "file" Toml.string? }

/-- Reads settings; unknown keys and sections are skipped, but one field of a wrong kind makes the
whole text unreadable. -/
def ofToml? (text : String) : Option Overlay := do
  let entries ← Toml.parse? text
  let overlay ← inSection entries "settings" ["default_environment"] 1 readSettings {}
  let overlay ← inSection entries "loader"
    ["dir", "recursive", "replace", "formats", "remove_formats"] 2 readLoader overlay
  let overlay ← inSection entries "tokenizer" ["no_progress_limit"] 1 readTokenizer overlay
  inSection entries "logging" ["level", "file"] 2 readLogging overlay

end Overlay

namespace Config

/-- Formats that are added to configured ones come after them, each once. -/
def mergeFormats (formats : List String) (overlay : Overlay) : List String :=
  if overlay.replaceFormats then overlay.formats
  else
    overlay.formats.foldl
      (fun formats name => if formats.contains name then formats else formats ++ [name])
      (formats.filter fun name => !overlay.removedFormats.contains name)

def apply (config : Config) (overlay : Overlay) : Config where
  defaultEnvironment := overlay.defaultEnvironment.getD config.defaultEnvironment
  dir := overlay.dir.getD config.dir
  recursive := overlay.recursive.getD config.recursive
  formats := mergeFormats config.formats overlay
  noProgressLimit := overlay.noProgressLimit.getD config.noProgressLimit
  logLevel := overlay.logLevel.getD config.logLevel
  logFile := overlay.logFile.getD config.logFile

/-- The configuration of a user's settings file; without one, or with one that cannot be read, the
defaults hold. -/
def load (settings : Option String) : Config :=
  match settings.bind Overlay.ofToml? with
  | some overlay => ({} : Config).apply overlay
  | none => {}

def settingsPath : String := "~/.config/zenv/config.toml"

def loader (config : Config) : Loader where
  formats := Format.ofNames config.formats
  defaultEnvironment := config.defaultEnvironment

def place (config : Config) (lookup : String → Option String) : Place where
  dir := expandPath lookup config.dir
  recursive := config.recursive

def level (config : Config) (verbosity : Nat) : LogLevel :=
  .configured config.logLevel verbosity

def toToml (config : Config) : String :=
  "[settings]\ndefault_environment = " ++ Toml.quote config.defaultEnvironment
    ++ "\n\n[loader]\ndir = " ++ Toml.quote config.dir
    ++ "\nrecursive = " ++ (if config.recursive then "true" else "false")
    ++ "\nformats = " ++ Toml.quoteAll config.formats
    ++ "\n\n[tokenizer]\nno_progress_limit = " ++ toString config.noProgressLimit
    ++ "\n\n[logging]\nlevel = " ++ Toml.quote config.logLevel
    ++ "\nfile = " ++ Toml.quote config.logFile ++ "\n"

end Config
end LayeredEnv
