import LayeredEnv.Shell.Builtin

namespace LayeredEnv.Shell

inductive Sink where
  | out
  | err
  | file (path : String)
  | nowhere

structure State where
  tree : FileTree
  bindings : List (String × String)
  exported : List String
  arguments : List String := []
  status : Nat := 0
  input : String := ""
  stdout : Sink := .out
  stderr : Sink := .err
  out : String := ""
  err : String := ""

inductive Stop where
  | exit
  | killed
  deriving DecidableEq, Repr

/-- A step of a script. What it changed counts even if the script ends there. -/
abbrev Step := ExceptT Stop (StateM State)

/-- The process number that scripts see; it stands for the shell alone. -/
def processId : Nat := 4242

namespace Step

def setStatus (status : Nat) : Step Unit := modify ({ · with status })

def write (sink : Sink) (text : String) : Step Unit :=
  modify fun state =>
    match sink with
    | .out => { state with out := state.out ++ text }
    | .err => { state with err := state.err ++ text }
    | .nowhere => state
    | .file path =>
      let before := match state.tree.read path with
        | .ok before => before
        | .error _ => ""
      match state.tree.write path (before ++ text) with
      | .ok tree => { state with tree }
      | .error _ => state

def complain (status : Nat) (message : String) : Step Unit := do
  write (← get).stderr ("sh: 1: " ++ message ++ "\n")
  setStatus status

def fail {α : Type} (message : String) : Step α := do
  complain 2 message
  throw .exit

def report (result : Result) : Step Unit := do
  write (← get).stdout result.out
  write (← get).stderr result.err
  setStatus result.status

def setVariable (name value : String) : Step Unit :=
  modify fun state =>
    { state with bindings := (name, value) :: state.bindings.filter (·.1 != name) }

/-- Runs a step of which only the output, the files and the status remain. An exit ends this step
alone. -/
def subshell (step : Step Unit) : Step Unit := do
  let before ← get
  let result ← observing step
  modify fun after =>
    { before with tree := after.tree, status := after.status, out := after.out, err := after.err }
  match result with
  | .error .killed => throw .killed
  | _ => return
where
  observing (step : Step Unit) : Step (Except Stop Unit) := fun state =>
    let (result, state) := step state
    (.ok result, state)

def capture (step : Step Unit) : Step String := do
  let before ← get
  set { before with out := "", stdout := .out }
  subshell step
  let out := (← get).out
  modify ({ · with out := before.out, stdout := before.stdout })
  return out

end Step

def State.parameter? (state : State) (name : String) : Option String :=
  match name with
  | "?" => some (toString state.status)
  | "$" => some (toString processId)
  | "#" => some (toString state.arguments.length)
  | "@" | "*" => if state.arguments.isEmpty then none else some (" ".intercalate state.arguments)
  | "0" => some "sh"
  | name =>
    match name.toNat? with
    | some index => state.arguments[index - 1]?
    | none => state.bindings.lookup name

end LayeredEnv.Shell
