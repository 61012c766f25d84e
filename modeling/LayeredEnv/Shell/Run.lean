import LayeredEnv.Shell.Arithmetic
import LayeredEnv.Shell.Glyph
import LayeredEnv.Shell.Script
import LayeredEnv.Shell.State

namespace LayeredEnv.Shell

open Step

def splitParameter (body : List Char) : Option (String × List Char) :=
  match body with
  | [] => none
  | c :: rest =>
    if Word.isNameStart c then
      some (.ofList (c :: rest.takeWhile Word.isNameChar), rest.dropWhile Word.isNameChar)
    else if Word.isSpecial c then some (.ofList [c], rest)
    else none

def dropFinalBreaks (text : String) : String :=
  .ofList (Text.dropEndWhile (· == '\n') text.toList)

def redirectTo (redirect : Redirect) (target : String) : Step Unit := do
  let state ← get
  let connect (sink : Sink) : Step Unit :=
    if redirect.stream == 2 then modify ({ · with stderr := sink })
    else modify ({ · with stdout := sink })
  match redirect.operator, target with
  | "<", path =>
    match Builtin.readInput state.tree state.input path with
    | .ok input => modify ({ · with input })
    | .error _ => complain 2 ("cannot open " ++ path ++ ": No such file")
  | ">&", "1" => connect state.stdout
  | ">&", "2" => connect state.stderr
  | ">&", _ => connect .nowhere
  | "<&", _ => return
  | _, "/dev/null" => connect .nowhere
  | _, "/dev/stdout" => connect state.stdout
  | _, "/dev/stderr" => connect state.stderr
  | operator, path =>
    let before := match operator, state.tree.read path with
      | ">>", .ok before => before
      | _, _ => ""
    match state.tree.write path before with
    | .ok tree =>
      modify ({ · with tree })
      connect (.file path)
    | .error _ => complain 2 ("cannot create " ++ path ++ ": Directory nonexistent")

def exportAll (args : List String) : Step Unit :=
  args.forM fun arg => do
    let (name, value) := match Text.splitAtFirst '=' arg.toList with
      | some (name, value) => (String.ofList name, some (String.ofList value))
      | none => (arg, none)
    if let some value := value then setVariable name value
    modify fun state => { state with exported := name :: state.exported }
    setStatus 0

def harmless : List String := ["0", "CHLD", "CONT", "URG", "WINCH", "17", "18", "23", "28"]

/-- Sends a signal, of which only the shell itself can be the target. -/
def kill (args : List String) : Step Unit := do
  let (signal, targets) := match args with
    | "-s" :: signal :: targets => (signal, targets)
    | "--" :: targets => ("TERM", targets)
    | first :: targets =>
      if first.startsWith "-" then (String.ofList (first.toList.drop 1), targets)
      else ("TERM", args)
    | [] => ("TERM", [])
  if targets != [toString processId] then complain 1 "kill: No such process"
  else if harmless.contains signal then setStatus 0
  else throw .killed

def exitWith (args : List String) : Step Unit :=
  match args with
  | [] => throw .exit
  | status :: _ =>
    match status.toNat? with
    | some status => do
      setStatus (status % 256)
      throw .exit
    | none => fail ("exit: Illegal number: " ++ status)

mutual

/-- Runs a script. A loop that uses up the fuel ends there. -/
def run : (fuel : Nat) → Script → Step Unit
  | 0, _ => throw .exit
  | fuel + 1, script => do
    match script with
    | .nothing => return
    | .sequence first second =>
      run fuel first
      run fuel second
    | .both first second =>
      run fuel first
      if (← get).status == 0 then run fuel second
    | .either first second =>
      run fuel first
      if (← get).status != 0 then run fuel second
    | .negate body =>
      run fuel body
      setStatus (if (← get).status == 0 then 1 else 0)
    | .subshell body => subshell (run fuel body)
    | .pipe first second =>
      let input ← capture (run fuel first)
      subshell do
        modify ({ · with input })
        run fuel second
    | .branch condition yes no =>
      run fuel condition
      if (← get).status == 0 then run fuel yes
      else
        setStatus 0
        run fuel no
    | .loop negated condition body =>
      run fuel condition
      if ((← get).status == 0) != negated then
        run fuel body
        run fuel script
      else setStatus 0
    | .each name words body =>
      setStatus 0
      (← fieldsOf fuel words).forM fun value => do
        setVariable name value
        run fuel body
    | .redirected body redirects => redirected fuel redirects (run fuel body)
    | .simple assignments words redirects =>
      let fields ← fieldsOf fuel words
      redirected fuel redirects do
        let values ← assignments.mapM fun (name, word) => do
          return (name, Glyph.text (← expand fuel word))
        match fields with
        | [] =>
          values.forM fun (name, value) => setVariable name value
          if words.isEmpty then setStatus 0
        | name :: args =>
          let before ← get
          values.forM fun (name, value) => setVariable name value
          modify fun state => { state with exported := values.map (·.1) ++ state.exported }
          call fuel name args
          if !values.isEmpty then
            modify ({ · with bindings := before.bindings, exported := before.exported })

def redirected : (fuel : Nat) → List Redirect → Step Unit → Step Unit
  | 0, _, _ => throw .exit
  | fuel + 1, redirects, step => do
    let before ← get
    setStatus 0
    redirects.forM fun redirect => do
      let target := Glyph.text (← expand fuel redirect.target)
      if (← get).status == 0 then redirectTo redirect target
    if redirects.isEmpty || (← get).status == 0 then
      setStatus before.status
      step
    modify ({ · with stdout := before.stdout, stderr := before.stderr, input := before.input })

def call : (fuel : Nat) → String → List String → Step Unit
  | 0, _, _ => throw .exit
  | fuel + 1, name, args => do
    match name with
    | "exit" => exitWith args
    | "kill" => kill args
    | "export" => exportAll args
    | "unset" =>
      modify fun state =>
        { state with bindings := state.bindings.filter fun binding => !args.contains binding.1 }
      setStatus 0
    | "shift" =>
      modify fun state => { state with arguments := state.arguments.tail }
      setStatus 0
    | "set" =>
      if args.head? == some "--" then modify fun state => { state with arguments := args.tail }
      setStatus 0
    | "eval" => runText fuel (" ".intercalate args)
    | "command" =>
      match args with
      | [] => setStatus 0
      | name :: args => call fuel name args
    | "exec" =>
      match args with
      | [] => setStatus 0
      | name :: args =>
        call fuel name args
        throw .exit
    | "sh" =>
      match args with
      | "-c" :: text :: arguments =>
        subshell do
          modify fun state =>
            { state with
              bindings := state.bindings.filter fun binding => state.exported.contains binding.1
              arguments := arguments.tail }
          runArgument fuel text
      | _ => complain 127 "sh: unknown arguments"
    | "printenv" =>
      let state ← get
      match args with
      | [name] =>
        match state.bindings.lookup name with
        | some value => report { out := value ++ "\n" }
        | none => setStatus 1
      | _ => complain 127 "printenv: unknown arguments"
    | name =>
      let state ← get
      match Builtin.find? state.tree state.input name with
      | some builtin => report (builtin args)
      | none => complain 127 (name ++ ": not found")

def runText : (fuel : Nat) → String → Step Unit
  | 0, _ => throw .exit
  | fuel + 1, text =>
    match Script.parse? text with
    | some script => run fuel script
    | none => fail "Syntax error"

/-- Runs a line that is given to a new shell, which takes a sign in front for an option. -/
def runArgument : (fuel : Nat) → String → Step Unit
  | 0, _ => throw .exit
  | fuel + 1, text =>
    if text.startsWith "-" || text.startsWith "+" then fail "-c requires an argument"
    else runText fuel text

def fieldsOf : (fuel : Nat) → List Word → Step (List String)
  | 0, _ => throw .exit
  | fuel + 1, words => do
    let fields ← words.mapM fun word => do
      let tree := (← get).tree
      return (Glyph.fields (← expand fuel word)).flatMap (Glyph.names tree)
    return fields.flatten

def expand : (fuel : Nat) → Word → Step (List Glyph)
  | 0, _ => throw .exit
  | fuel + 1, word => do
    return (← word.mapM (expandPart fuel)).flatten

def expandPart : (fuel : Nat) → Part → Step (List Glyph)
  | 0, _ => throw .exit
  | fuel + 1, part => do
    match part.piece with
    | .text content => return Glyph.ofText part.quoted content
    | .command text =>
      return Glyph.ofValue part.quoted (dropFinalBreaks (← capture (runText fuel text)))
    | .arithmetic text =>
      let glyphs ← expandText fuel true text
      let state ← get
      let number (name : String) : Int :=
        ((state.parameter? name).bind Builtin.integer?).getD 0
      match Arithmetic.value? number (Glyph.text glyphs) with
      | some n => return Glyph.ofValue part.quoted (toString n)
      | none => fail "arithmetic expression: syntax error"
    | .parameter body =>
      let state ← get
      match body.toList with
      | '#' :: c :: rest =>
        let value := (state.parameter? (.ofList (c :: rest))).getD ""
        return Glyph.ofValue part.quoted (toString value.length)
      | cs =>
        match splitParameter cs with
        | none => fail "Bad substitution"
        | some (name, operation) => parameter fuel part.quoted name operation

def expandText : (fuel : Nat) → Bool → String → Step (List Glyph)
  | 0, _, _ => throw .exit
  | fuel + 1, quoted, text =>
    match Word.ofText? text with
    | none => fail "Bad substitution"
    | some word => do
      let glyphs ← expand fuel word
      return if quoted then Glyph.ofText true (Glyph.text glyphs)
        else glyphs.map fun
          | .char c false => if Glyph.isBlank c then .blank c else .char c false
          | glyph => glyph

def parameter : (fuel : Nat) → (quoted : Bool) → String → List Char → Step (List Glyph)
  | 0, _, _, _ => throw .exit
  | fuel + 1, quoted, name, operation => do
    let value := (← get).parameter? name
    let plain : List Glyph := Glyph.ofValue quoted (value.getD "")
    let isPresent (colon : Bool) : Bool := if colon then (value.getD "") != "" else value.isSome
    let strip (side : Side) (extent : Extent) (text : List Char) : Step (List Glyph) := do
      let pattern := Glyph.pattern (← expandText fuel false (.ofList text))
      match Glob.strip (value.getD "") pattern side extent with
      | .ok value => return Glyph.ofValue quoted value
      | .error _ => return plain
    let choose (colon : Bool) (operator : Char) (text : List Char) : Step (List Glyph) := do
      match operator with
      | '-' => if isPresent colon then return plain else expandText fuel quoted (.ofList text)
      | '+' => if isPresent colon then expandText fuel quoted (.ofList text) else return []
      | '=' =>
        if isPresent colon then return plain
        else
          let glyphs ← expandText fuel quoted (.ofList text)
          setVariable name (Glyph.text glyphs)
          return glyphs
      | _ =>
        if isPresent colon then return plain
        else fail (name ++ ": " ++ Glyph.text (← expandText fuel quoted (.ofList text)))
    let isChoice (c : Char) : Bool := "-=+?".toList.contains c
    match operation with
    | [] => return plain
    | '%' :: '%' :: text => strip .back .longest text
    | '%' :: text => strip .back .shortest text
    | '#' :: '#' :: text => strip .front .longest text
    | '#' :: text => strip .front .shortest text
    | ':' :: c :: text => if isChoice c then choose true c text else fail "Bad substitution"
    | c :: text => if isChoice c then choose false c text else fail "Bad substitution"

end

def maxSteps : Nat := 10000

structure Ending where
  status : Option Nat
  out : String
  err : String

def runLine (tree : FileTree) (environment : List (String × String)) (line : String) : Ending :=
  let state : State :=
    { tree, bindings := environment, exported := environment.map (·.1) }
  let (result, state) := runArgument maxSteps line state
  { status := if result matches .error .killed then none else some state.status
    out := state.out
    err := state.err }

end LayeredEnv.Shell
