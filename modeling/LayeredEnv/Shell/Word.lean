import LayeredEnv.Text.Class

namespace LayeredEnv.Shell

/-- What a part of a word stands for. Scripts and expressions inside are kept as they are written
until they are needed. -/
inductive Piece where
  | text (content : String)
  /-- A parameter with braces, without them. -/
  | parameter (body : String)
  | command (script : String)
  | arithmetic (expression : String)
  deriving DecidableEq, Repr

structure Part where
  piece : Piece
  quoted : Bool := false
  deriving DecidableEq, Repr

abbrev Word := List Part

inductive Token where
  | word (word : Word)
  | operator (text : String)
  | redirect (stream : Nat) (operator : String)
  deriving DecidableEq, Repr

namespace Word

def isNameStart (c : Char) : Bool := c.isAlpha || c == '_'

def isNameChar (c : Char) : Bool := c.isAlphanum || c == '_'

def isSpecial (c : Char) : Bool := c.isDigit || "?$#@*!-".toList.contains c

def endsWord (c : Char) : Bool := " \t\n;&|<>()".toList.contains c

/-- What comes before the bracket that closes `depth` open ones, and what comes after it. Quoted
brackets do not count. As below, the length of the text is fuel enough. -/
def upToClosing (opening closing : Char) : (fuel : Nat) → (depth : Nat) → List Char →
    Option (List Char × List Char)
  | 0, _, _ => none
  | fuel + 1, depth, cs =>
    match cs with
    | [] => none
    | '\\' :: c :: rest => prepend ['\\', c] (upToClosing opening closing fuel depth rest)
    | c :: rest =>
      if c == '\'' || c == '"' then
        match Text.splitAtFirst c rest with
        | none => none
        | some (quoted, rest) =>
          prepend (c :: quoted ++ [c]) (upToClosing opening closing fuel depth rest)
      else if c == closing then
        match depth with
        | 0 | 1 => some ([], rest)
        | depth + 1 => prepend [c] (upToClosing opening closing fuel depth rest)
      else
        prepend [c]
          (upToClosing opening closing fuel (if c == opening then depth + 1 else depth) rest)
where
  prepend (front : List Char) : Option (List Char × List Char) → Option (List Char × List Char) :=
    Option.map fun (taken, rest) => (front ++ taken, rest)

/-- What a dollar sign and the text behind it stand for; one that begins nothing is text. -/
def dollar (quoted : Bool) (cs : List Char) : Option (Part × List Char) :=
  let made (piece : List Char → Piece) : List Char × List Char → Part × List Char :=
    fun (body, rest) => ({ piece := piece body, quoted }, rest)
  match cs with
  | '\x7b' :: rest =>
    (upToClosing '\x7b' '\x7d' rest.length 1 rest).map (made fun body => .parameter (.ofList body))
  | '(' :: '(' :: rest =>
    match upToClosing '(' ')' rest.length 1 rest with
    | some (body, ')' :: rest) => some (made (fun body => .arithmetic (.ofList body)) (body, rest))
    | _ => none
  | '(' :: rest =>
    (upToClosing '(' ')' rest.length 1 rest).map (made fun body => .command (.ofList body))
  | c :: rest =>
    if isNameStart c then
      some (made (fun body => .parameter (.ofList body))
        (c :: rest.takeWhile isNameChar, rest.dropWhile isNameChar))
    else if isSpecial c then some (made (fun body => .parameter (.ofList body)) ([c], rest))
    else some ({ piece := .text "$", quoted }, c :: rest)
  | [] => some ({ piece := .text "$", quoted }, [])

def inQuotes : (fuel : Nat) → (done : Word) → List Char → Option (Word × List Char)
  | 0, _, _ => none
  | fuel + 1, done, cs =>
    let literal (content : List Char) : Part := { piece := .text (.ofList content), quoted := true }
    match cs with
    | [] => none
    | '"' :: rest => some (done ++ [literal []], rest)
    | '\\' :: '\n' :: rest => inQuotes fuel done rest
    | '\\' :: c :: rest =>
      if "$`\"\\".toList.contains c then inQuotes fuel (done ++ [literal [c]]) rest
      else inQuotes fuel (done ++ [literal ['\\', c]]) rest
    | '$' :: rest =>
      match dollar true rest with
      | none => none
      | some (part, rest) => inQuotes fuel (done ++ [part]) rest
    | '\x60' :: rest =>
      match Text.splitAtFirst '\x60' rest with
      | none => none
      | some (body, rest) =>
        inQuotes fuel (done ++ [{ piece := .command (.ofList body), quoted := true }]) rest
    | c :: rest => inQuotes fuel (done ++ [literal [c]]) rest

def parts (ends : Char → Bool) : (fuel : Nat) → (done : Word) → List Char →
    Option (Word × List Char)
  | 0, _, _ => none
  | fuel + 1, done, cs =>
    let literal (content : List Char) (quoted : Bool) : Part :=
      { piece := .text (.ofList content), quoted }
    match cs with
    | [] => some (done, [])
    | '\'' :: rest =>
      match Text.splitAtFirst '\'' rest with
      | none => none
      | some (body, rest) => parts ends fuel (done ++ [literal body true]) rest
    | '"' :: rest =>
      match inQuotes (rest.length + 1) [] rest with
      | none => none
      | some (quoted, rest) => parts ends fuel (done ++ quoted) rest
    | '\\' :: '\n' :: rest => parts ends fuel done rest
    | '\\' :: c :: rest => parts ends fuel (done ++ [literal [c] true]) rest
    | '$' :: rest =>
      match dollar false rest with
      | none => none
      | some (part, rest) => parts ends fuel (done ++ [part]) rest
    | '\x60' :: rest =>
      match Text.splitAtFirst '\x60' rest with
      | none => none
      | some (body, rest) =>
        parts ends fuel (done ++ [{ piece := .command (.ofList body) }]) rest
    | c :: rest =>
      if ends c then some (done, c :: rest)
      else parts ends fuel (done ++ [literal [c] false]) rest

def ofText? (text : String) : Option Word :=
  (parts (fun _ => false) (text.length + 1) [] text.toList).map (·.1)

def plain? (word : Word) : Option String :=
  (word.mapM fun (part : Part) =>
    match part with
    | ⟨.text content, false⟩ => some content
    | _ => none).map String.join

def assignment? (word : Word) : Option (String × Word) :=
  let equals : Part := { piece := .text "=" }
  let name := word.takeWhile (· != equals)
  match plain? name, word.dropWhile (· != equals) with
  | some text, _ :: value =>
    match text.toList with
    | c :: cs => if isNameStart c && cs.all isNameChar then some (text, value) else none
    | [] => none
  | _, _ => none

end Word

namespace Token

def operators : List String := ["&&", "||", ";;", ";", "&", "|", "(", ")", "\n"]

def redirections : List String := [">>", ">&", ">|", ">", "<&", "<"]

def firstOf (texts : List String) (cs : List Char) : Option (String × List Char) :=
  texts.findSome? fun text => (Text.dropFront text.toList cs).map (text, ·)

def redirection? (cs : List Char) : Option (Token × List Char) :=
  let digits := cs.takeWhile Char.isDigit
  (firstOf redirections (cs.drop digits.length)).map fun (text, rest) =>
    let stream := (String.ofList digits).toNat?.getD (if text.startsWith "<" then 0 else 1)
    (.redirect stream text, rest)

def scan : (fuel : Nat) → List Char → Option (List Token)
  | 0, _ => none
  | fuel + 1, cs =>
    match cs.dropWhile Text.isBlank with
    | [] => some []
    | '#' :: rest => scan fuel (rest.dropWhile (· != '\n'))
    | '\\' :: '\n' :: rest => scan fuel rest
    | cs =>
      match redirection? cs with
      | some (token, rest) => (scan fuel rest).map (token :: ·)
      | none =>
        match firstOf operators cs with
        | some (text, rest) => (scan fuel rest).map (.operator text :: ·)
        | none =>
          match Word.parts Word.endsWord (cs.length + 1) [] cs with
          | some (parts, rest) => (scan fuel rest).map (.word parts :: ·)
          | none => none

end Token
end LayeredEnv.Shell
