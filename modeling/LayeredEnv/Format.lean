import LayeredEnv.Entry

namespace LayeredEnv

inductive Format where
  /-- Declaration text in `.env`, `.env.NAME` and `NAME.env`. -/
  | classic
  /-- Entries in `env.json`, `NAME.env.json` and `env.NAME.json`. -/
  | json
  deriving DecidableEq, Repr

namespace Format

def name : Format → String
  | classic => "classic"
  | json => "json"

def all : List Format := [classic, json]

def ofName? (name : String) : Option Format := all.find? (·.name == name)

/-- The formats of the names; names of no format are skipped. -/
def ofNames (names : List String) : List Format := names.filterMap ofName?

def candidates (format : Format) (environment default : String) : List String :=
  let environment := String.ofList (Text.trim Text.isWhitespace environment.toList)
  match format with
  | classic =>
    if environment == default then [".env"] else [".env." ++ environment, environment ++ ".env"]
  | json =>
    if environment == default then ["env.json"]
    else [environment ++ ".env.json", "env." ++ environment ++ ".json"]

/-- An environment name in a file name: not empty and in one line. -/
def namePart? (part : Option (List Char)) : Option String :=
  part.bind fun cs => if cs.isEmpty || cs.contains '\n' then none else some (.ofList cs)

def environmentName? (format : Format) (fileName default : String) : Option String :=
  let cs := fileName.toList
  match format with
  | classic =>
    if fileName == ".env" then some default
    else (namePart? (Text.dropFront ".env.".toList cs)).or
      (namePart? (Text.dropBack ".env".toList cs))
  | json =>
    if fileName == "env.json" then some default
    else (namePart? (Text.dropBack ".env.json".toList cs)).or
      (namePart? ((Text.dropFront "env.".toList cs).bind (Text.dropBack ".json".toList)))

def declarationText (format : Format) (content file : String)
    (complaint : String → String := Entry.notAnObject) : Except Error String :=
  match format with
  | classic => .ok content
  | json => (Entry.ofJson content file complaint).map Entry.declarations

end Format
end LayeredEnv
