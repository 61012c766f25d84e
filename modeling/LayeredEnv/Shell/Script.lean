import LayeredEnv.Shell.Word

namespace LayeredEnv.Shell

structure Redirect where
  stream : Nat
  operator : String
  target : Word
  deriving Repr

/-- A script. What a simple command does depends on the values of its words. -/
inductive Script where
  | nothing
  | simple (assignments : List (String × Word)) (words : List Word) (redirects : List Redirect)
  | subshell (body : Script)
  | redirected (body : Script) (redirects : List Redirect)
  | sequence (first second : Script)
  | both (first second : Script)
  | either (first second : Script)
  | pipe (first second : Script)
  | negate (body : Script)
  | branch (condition yes no : Script)
  /-- The body runs as long as the condition succeeds, or with `negated` fails. -/
  | loop (negated : Bool) (condition body : Script)
  | each (name : String) (words : List Word) (body : Script)

namespace Script

def keyword? : Token → Option String
  | .word word => word.plain?
  | _ => none

def closers : List String := ["\x7d", "then", "elif", "else", "fi", "do", "done"]

def atClose : List Token → Bool
  | [] => true
  | .operator text :: _ => text == ")"
  | token :: _ => closers.any fun word => keyword? token == some word

def skipNewlines : List Token → List Token
  | .operator "\n" :: rest => skipNewlines rest
  | tokens => tokens

def expect (word : String) : List Token → Option (List Token)
  | token :: rest => if keyword? token == some word then some rest else none
  | [] => none

def redirects : List Token → List Redirect × List Token
  | .redirect stream operator :: .word target :: rest =>
    let (others, rest) := redirects rest
    ({ stream, operator, target } :: others, rest)
  | tokens => ([], tokens)

/-- Adds the tokens of a simple command. Words assign as long as they come first. -/
def simpleCommand (assignments : List (String × Word)) (words : List Word)
    (streams : List Redirect) : List Token → Script × List Token
  | .word word :: rest =>
    match words, word.assignment? with
    | [], some assigned => simpleCommand (assignments ++ [assigned]) words streams rest
    | _, _ => simpleCommand assignments (words ++ [word]) streams rest
  | .redirect stream operator :: .word target :: rest =>
    simpleCommand assignments words (streams ++ [{ stream, operator, target }]) rest
  | tokens => (.simple assignments words streams, tokens)

def wordsOfLine : List Token → List Word × List Token
  | .word word :: rest =>
    let (words, rest) := wordsOfLine rest
    (word :: words, rest)
  | tokens => ([], tokens)

def separator? : List Token → Option (List Token)
  | .operator text :: rest => if text == ";" || text == "\n" || text == "&" then some rest else none
  | _ => none

mutual

/-- Commands with separators between them, up to what ends a list. Each of the readers gets by with
fuel of some turns for each token. -/
def list : (fuel : Nat) → List Token → Option (Script × List Token)
  | 0, _ => none
  | fuel + 1, tokens => do
    let tokens := skipNewlines tokens
    if atClose tokens then return (.nothing, tokens)
    let (first, rest) ← chain fuel tokens
    match separator? rest with
    | some rest =>
      let (second, rest) ← list fuel rest
      return (.sequence first second, rest)
    | none => if atClose rest then return (first, rest) else none

/-- Pipelines, each of which may hang on the status of those before it. -/
def chain : (fuel : Nat) → List Token → Option (Script × List Token)
  | 0, _ => none
  | fuel + 1, tokens => do
    let (first, rest) ← pipeline fuel tokens
    chained fuel first rest

def chained : (fuel : Nat) → Script → List Token → Option (Script × List Token)
  | 0, _, _ => none
  | fuel + 1, first, tokens =>
    match tokens with
    | .operator text :: rest =>
      if text == "&&" || text == "||" then do
        let (second, rest) ← pipeline fuel (skipNewlines rest)
        chained fuel (if text == "&&" then .both first second else .either first second) rest
      else some (first, tokens)
    | _ => some (first, tokens)

def pipeline : (fuel : Nat) → List Token → Option (Script × List Token)
  | 0, _ => none
  | fuel + 1, tokens =>
    match expect "!" tokens with
    | some rest => (pipeline fuel rest).map fun (body, rest) => (.negate body, rest)
    | none => do
      let (first, rest) ← command fuel tokens
      match rest with
      | .operator "|" :: rest =>
        let (second, rest) ← pipeline fuel (skipNewlines rest)
        return (.pipe first second, rest)
      | rest => return (first, rest)

def command : (fuel : Nat) → List Token → Option (Script × List Token)
  | 0, _ => none
  | fuel + 1, tokens => do
    match tokens with
    | .operator "(" :: rest =>
      let (body, rest) ← list fuel rest
      match rest with
      | .operator ")" :: rest => return withRedirects (.subshell body) rest
      | _ => none
    | .operator _ :: _ => none
    | [] => none
    | .redirect .. :: _ => simple tokens
    | token :: rest =>
      match keyword? token with
      | some "\x7b" =>
        let (body, rest) ← list fuel rest
        return withRedirects body (← expect "\x7d" rest)
      | some "if" =>
        let (body, rest) ← branches fuel rest
        return withRedirects body rest
      | some "while" =>
        let (body, rest) ← loopBody fuel false rest
        return withRedirects body rest
      | some "until" =>
        let (body, rest) ← loopBody fuel true rest
        return withRedirects body rest
      | some "for" =>
        match rest with
        | name :: rest =>
          let name ← keyword? name
          let (words, rest) := wordsOfLine (← expect "in" (skipNewlines rest))
          let rest ← separator? rest
          let (body, rest) ← list fuel (← expect "do" (skipNewlines rest))
          return withRedirects (.each name words body) (← expect "done" rest)
        | [] => none
      | some word => if closers.contains word then none else simple tokens
      | none => simple tokens
where
  withRedirects (body : Script) (tokens : List Token) : Script × List Token :=
    match redirects tokens with
    | ([], rest) => (body, rest)
    | (streams, rest) => (.redirected body streams, rest)
  simple (tokens : List Token) : Option (Script × List Token) :=
    match simpleCommand [] [] [] tokens with
    | (_, .redirect .. :: _) => none
    | result => some result

def branches : (fuel : Nat) → List Token → Option (Script × List Token)
  | 0, _ => none
  | fuel + 1, tokens => do
    let (condition, rest) ← list fuel tokens
    let (yes, rest) ← list fuel (← expect "then" rest)
    match expect "elif" rest with
    | some rest =>
      let (no, rest) ← branches fuel rest
      return (.branch condition yes no, rest)
    | none =>
      match expect "else" rest with
      | some rest =>
        let (no, rest) ← list fuel rest
        return (.branch condition yes no, ← expect "fi" rest)
      | none => return (.branch condition yes .nothing, ← expect "fi" rest)

def loopBody : (fuel : Nat) → (negated : Bool) → List Token → Option (Script × List Token)
  | 0, _, _ => none
  | fuel + 1, negated, tokens => do
    let (condition, rest) ← list fuel tokens
    let (body, rest) ← list fuel (← expect "do" rest)
    return (.loop negated condition body, ← expect "done" rest)

end

def parse? (text : String) : Option Script := do
  let tokens ← Token.scan (text.length + 1) text.toList
  match ← list (8 * tokens.length + 8) tokens with
  | (script, []) => return script
  | _ => none

end Script
end LayeredEnv.Shell
