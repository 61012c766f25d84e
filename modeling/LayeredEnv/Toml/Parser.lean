import LayeredEnv.Toml.Entries
import LayeredEnv.Toml.Scalar

namespace LayeredEnv.Toml

def skipBlanks (cs : List Char) : List Char := cs.dropWhile Text.isBlank

def skipComment : List Char → List Char
  | '#' :: rest => rest.dropWhile isPlain
  | cs => cs

def skipLines : (fuel : Nat) → List Char → List Char
  | 0, cs => cs
  | fuel + 1, cs =>
    match cs with
    | '#' :: _ => skipLines fuel (skipComment cs)
    | c :: rest =>
      if Text.isBlank c then skipLines fuel rest
      else match lineBreak? cs with
        | some rest => skipLines fuel rest
        | none => cs
    | [] => []

def endOfLine? (cs : List Char) : Option (List Char) :=
  match skipComment (skipBlanks cs) with
  | [] => some []
  | rest => lineBreak? rest

/-- How many arrays and inline tables may be in each other, and keys in a key with dots. -/
def depthLimit : Nat := 79

def isKeyChar (c : Char) : Bool := Text.isAlphanumeric c || c == '-' || c == '_'

def simpleKey? (cs : List Char) : Option (String × List Char) :=
  match cs with
  | '"' :: _ | '\'' :: _ => lineString? cs
  | cs =>
    match cs.takeWhile isKeyChar with
    | [] => none
    | key => some (.ofList key, cs.dropWhile isKeyChar)

def key? : (fuel : Nat) → List Char → Option (List String × List Char)
  | 0, _ => none
  | fuel + 1, cs => do
    let (key, rest) ← simpleKey? (skipBlanks cs)
    match skipBlanks rest with
    | '.' :: rest =>
      let (keys, rest) ← key? fuel rest
      return (key :: keys, rest)
    | rest => return ([key], rest)

def assigned? (cs : List Char) : Option (List String × List Char) := do
  let (path, rest) ← key? depthLimit cs
  return (path, ← expect '=' rest)

mutual

/-- A value at the front of a text, with at most `depth` arrays and inline tables in each other.
Fuel of twice the length is enough. -/
def value (depth : Nat) : (fuel : Nat) → List Char → Option (Toml × List Char)
  | 0, _ => none
  | fuel + 1, cs =>
    match cs, depth with
    | '[' :: rest, depth + 1 => elements depth fuel [] rest
    | '{' :: rest, depth + 1 =>
      match skipBlanks rest with
      | '}' :: rest => some (.table .inline [], rest)
      | rest => pairs depth fuel [] rest
    | cs, _ => scalarValue? cs

def elements (depth : Nat) : (fuel : Nat) → (done : List Toml) → List Char →
    Option (Toml × List Char)
  | 0, _, _ => none
  | fuel + 1, done, cs =>
    match skipLines cs.length cs with
    | ']' :: rest => some (.array false done.reverse, rest)
    | cs =>
      match value depth fuel cs with
      | none => none
      | some (element, rest) =>
        match skipLines rest.length rest with
        | ',' :: rest => elements depth fuel (element :: done) rest
        | ']' :: rest => some (.array false (element :: done).reverse, rest)
        | _ => none

def pairs (depth : Nat) : (fuel : Nat) → (done : Entries) → List Char → Option (Toml × List Char)
  | 0, _, _ => none
  | fuel + 1, done, cs =>
    match assigned? cs with
    | none => none
    | some (path, rest) =>
      match value depth fuel (skipBlanks rest) with
      | none => none
      | some (entry, rest) =>
        match Entries.put path entry .inline done with
        | none => none
        | some done =>
          match skipBlanks rest with
          | ',' :: rest => pairs depth fuel done rest
          | '}' :: rest => some (.table .inline done, rest)
          | _ => none

end

/-- The lines of a document. `header` leads to the table that they add to, and `done` has what was
read before. Each turn takes a character, so that their number is fuel enough. -/
def lines : (fuel : Nat) → (header : List String) → (done : Entries) → List Char → Option Entries
  | 0, _, _, _ => none
  | fuel + 1, header, done, cs =>
    match skipBlanks cs with
    | [] => some done
    | '#' :: rest => do lines fuel header done (← endOfLine? ('#' :: rest))
    | '[' :: '[' :: rest => do
      let (path, rest) ← key? depthLimit rest
      let rest ← endOfLine? (← expect ']' (← expect ']' rest))
      lines fuel path (← Entries.openElement path done) rest
    | '[' :: rest => do
      let (path, rest) ← key? depthLimit rest
      let rest ← endOfLine? (← expect ']' rest)
      lines fuel path (← Entries.openTable path done) rest
    | cs =>
      match lineBreak? cs with
      | some rest => lines fuel header done rest
      | none => do
        let (path, rest) ← assigned? cs
        let rest := skipBlanks rest
        let (entry, rest) ← value depthLimit (2 * rest.length + 2) rest
        let rest ← endOfLine? rest
        lines fuel header (← Entries.putUnder header path entry done) rest

def parse? (text : String) : Option Entries :=
  let cs := match text.toList with
    | '\ufeff' :: rest => rest
    | cs => cs
  lines (cs.length + 1) [] [] cs

end LayeredEnv.Toml
