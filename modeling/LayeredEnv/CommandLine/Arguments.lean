import LayeredEnv.Text.Class

namespace LayeredEnv.CommandLine

inductive OutputFormat where
  /-- Lines `NAME="value"`. -/
  | dotenv
  /-- Lines `export NAME=value`. -/
  | shell
  | json
  deriving DecidableEq, Repr

namespace OutputFormat

def ofName? : String → Option OutputFormat
  | "dotenv" => some dotenv
  | "shell" => some shell
  | "json" => some json
  | _ => none

end OutputFormat

structure Arguments where
  env : Option String := none
  dir : Option String := none
  recursive : Bool := false
  format : Option OutputFormat := none
  verbosity : Nat := 0
  expand : Option String := none
  list : Bool := false
  dumpConfig : Bool := false
  command : List String := []
  deriving DecidableEq, Repr

namespace Arguments

inductive Stop where
  | misuse
  | help
  | version
  deriving DecidableEq, Repr

inductive Setting where
  | env
  | dir
  | format
  | expand

inductive Switch where
  | recursive
  | verbose
  | list
  | dumpConfig
  | help
  | version

def ofLong? : String → Option (Setting ⊕ Switch)
  | "env" => some (.inl .env)
  | "dir" => some (.inl .dir)
  | "format" => some (.inl .format)
  | "expand" => some (.inl .expand)
  | "recursive" => some (.inr .recursive)
  | "verbose" => some (.inr .verbose)
  | "list" => some (.inr .list)
  | "dump-config" => some (.inr .dumpConfig)
  | "help" => some (.inr .help)
  | "version" => some (.inr .version)
  | _ => none

def ofShort? : Char → Option (Setting ⊕ Switch)
  | 'e' => some (.inl .env)
  | 'd' => some (.inl .dir)
  | 'r' => some (.inr .recursive)
  | 'v' => some (.inr .verbose)
  | 'h' => some (.inr .help)
  | 'V' => some (.inr .version)
  | _ => none

def fresh {α : Type} (field : Option α) (value : α) : Except Stop (Option α) :=
  if field.isSome then throw .misuse else return some value

def put (args : Arguments) (value : String) : Setting → Except Stop Arguments
  | .env => return { args with env := ← fresh args.env value }
  | .dir => return { args with dir := ← fresh args.dir value }
  | .expand => return { args with expand := ← fresh args.expand value }
  | .format =>
    match OutputFormat.ofName? value with
    | some format => return { args with format := ← fresh args.format format }
    | none => throw .misuse

def switch (args : Arguments) : Switch → Except Stop Arguments
  | .recursive => if args.recursive then throw .misuse else return { args with recursive := true }
  | .verbose => return { args with verbosity := min (args.verbosity + 1) 255 }
  | .list => if args.list then throw .misuse else return { args with list := true }
  | .dumpConfig =>
    if args.dumpConfig then throw .misuse else return { args with dumpConfig := true }
  | .help => throw .help
  | .version => throw .version

def check (args : Arguments) : Except Stop Arguments :=
  if args.list && args.expand.isSome || args.dumpConfig && (args.expand.isSome || args.list) then
    throw .misuse
  else return args

/-- Options of one letter each, the last of which can have its value behind it, with or without an
equals sign. The result also names an option that still needs its value. -/
def cluster (args : Arguments) : List Char → Except Stop (Arguments × Option Setting)
  | [] => return (args, none)
  | c :: cs =>
    match ofShort? c, cs with
    | none, _ => throw .misuse
    | some (.inr switch), cs => do (← args.switch switch).cluster cs
    | some (.inl setting), [] => return (args, some setting)
    | some (.inl setting), '=' :: value => return (← args.put (.ofList value) setting, none)
    | some (.inl setting), value => return (← args.put (.ofList value) setting, none)

def long (args : Arguments) (cs : List Char) : Except Stop (Arguments × Option Setting) :=
  let (name, value) := match Text.splitAtFirst '=' cs with
    | some (name, value) => (name, some value)
    | none => (cs, none)
  match ofLong? (.ofList name), value with
  | some (.inl setting), some value => return (← args.put (.ofList value) setting, none)
  | some (.inl setting), none => return (args, some setting)
  | some (.inr switch), none => return (← args.switch switch, none)
  | _, _ => throw .misuse

/-- Reads arguments one after the other; `pending` is an option that needs its value. Words of a
command come after two dashes only. -/
def read (args : Arguments) (pending : Option Setting) : List String → Except Stop Arguments
  | [] => if pending.isSome then throw .misuse else args.check
  | word :: words =>
    match pending, word.toList with
    | none, ['-', '-'] => check { args with command := words }
    | none, '-' :: '-' :: cs => do
      let (args, pending) ← args.long cs
      args.read pending words
    | none, '-' :: c :: cs => do
      let (args, pending) ← args.cluster (c :: cs)
      args.read pending words
    | none, _ => throw .misuse
    | some _, '-' :: _ :: _ => throw .misuse
    | some setting, _ => do (← args.put word setting).read none words

def parse (words : List String) : Except Stop Arguments := ({} : Arguments).read none words

end Arguments
end LayeredEnv.CommandLine
