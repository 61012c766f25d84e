import LayeredEnv.Json.Basic
import LayeredEnv.Text.Number

namespace LayeredEnv.Json

def isSpace (c : Char) : Bool := c == ' ' || c == '\n' || c == '\r' || c == '\t'

def skipSpace (cs : List Char) : List Char := cs.dropWhile isSpace

def codeUnit (cs : List Char) : Option (Nat × List Char) := Text.fixedHex 4 cs

/-- A character after `\u`: a code unit, or a pair of surrogates with an escape between them. -/
def unicodeEscape (cs : List Char) : Option (Char × List Char) := do
  let (high, rest) ← codeUnit cs
  if high < 0xD800 || 0xE000 ≤ high then return (.ofNat high, rest)
  if 0xDC00 ≤ high then none
  match rest with
  | '\\' :: 'u' :: rest =>
    let (low, rest) ← codeUnit rest
    if low < 0xDC00 || 0xE000 ≤ low then none
    return (.ofNat (0x10000 + (high - 0xD800) * 0x400 + (low - 0xDC00)), rest)
  | _ => none

def simpleEscape? : Char → Option Char
  | '"' => some '"'
  | '\\' => some '\\'
  | '/' => some '/'
  | 'b' => some '\x08'
  | 'f' => some '\x0c'
  | 'n' => some '\n'
  | 'r' => some '\r'
  | 't' => some '\t'
  | _ => none

/-- The rest of a string literal, read in front of `done`, which is reversed. Each turn takes a
character, so that their number is fuel enough. -/
def stringBody : (fuel : Nat) → (done : List Char) → List Char → Option (String × List Char)
  | 0, _, _ => none
  | _ + 1, _, [] => none
  | fuel + 1, done, c :: rest =>
    match c with
    | '"' => some (.ofList done.reverse, rest)
    | '\\' =>
      match rest with
      | 'u' :: rest => (unicodeEscape rest).bind fun (c, rest) => stringBody fuel (c :: done) rest
      | e :: rest => (simpleEscape? e).bind fun c => stringBody fuel (c :: done) rest
      | [] => none
    | c => if c < ' ' then none else stringBody fuel (c :: done) rest

def stringLiteral (cs : List Char) : Option (String × List Char) := stringBody (cs.length + 1) [] cs

def numberLiteral (cs : List Char) : Option (String × List Char) := do
  let unsigned := match cs with
    | '-' :: rest => rest
    | cs => cs
  let (whole, rest) ← Text.someDigits unsigned
  if 1 < whole.length && whole.head? == some '0' then none
  let (fraction, rest) ← match rest with
    | '.' :: rest => Text.someDigits rest
    | rest => some ([], rest)
  let (exponent, rest) ← match rest with
    | 'e' :: rest | 'E' :: rest =>
      let (negative, rest) := match rest with
        | '-' :: rest => (true, rest)
        | '+' :: rest => (false, rest)
        | rest => (false, rest)
      (Text.someDigits rest).map fun (digits, rest) =>
        let n : Int := Text.decimalValue digits
        (if negative then -n else n, rest)
    | rest => some (0, rest)
  let digits := Text.decimalValue (whole ++ fraction)
  if Text.isOutOfRange digits (exponent - fraction.length) then none
  return (.ofList (cs.take (cs.length - rest.length)), rest)

/-- Adds a member; one with the same key keeps its place and takes the new value. -/
def putMember (key : String) (value : Json) : List (String × Json) → List (String × Json)
  | [] => [(key, value)]
  | (k, v) :: rest => if k == key then (k, value) :: rest else (k, v) :: putMember key value rest

mutual

/-- A value at the front of a text, with at most `depth` arrays and objects in each other. Fuel of
twice the length is enough. -/
def value (depth : Nat) : (fuel : Nat) → List Char → Option (Json × List Char)
  | 0, _ => none
  | fuel + 1, cs =>
    match skipSpace cs with
    | '"' :: rest => (stringLiteral rest).map fun (text, rest) => (.string text, rest)
    | '[' :: rest =>
      match depth with
      | 0 => none
      | depth + 1 =>
        match skipSpace rest with
        | ']' :: rest => some (.array [], rest)
        | rest => elements depth fuel [] rest
    | '{' :: rest =>
      match depth with
      | 0 => none
      | depth + 1 =>
        match skipSpace rest with
        | '}' :: rest => some (.object [], rest)
        | rest => members depth fuel [] rest
    | 't' :: rest => (Text.dropFront "rue".toList rest).map (.bool true, ·)
    | 'f' :: rest => (Text.dropFront "alse".toList rest).map (.bool false, ·)
    | 'n' :: rest => (Text.dropFront "ull".toList rest).map (.null, ·)
    | rest => (numberLiteral rest).map fun (text, rest) => (.number text, rest)

def elements (depth : Nat) : (fuel : Nat) → (done : List Json) → List Char →
    Option (Json × List Char)
  | 0, _, _ => none
  | fuel + 1, done, cs =>
    match value depth fuel cs with
    | none => none
    | some (element, rest) =>
      match skipSpace rest with
      | ',' :: rest => elements depth fuel (element :: done) rest
      | ']' :: rest => some (.array (element :: done).reverse, rest)
      | _ => none

def members (depth : Nat) : (fuel : Nat) → (done : List (String × Json)) → List Char →
    Option (Json × List Char)
  | 0, _, _ => none
  | fuel + 1, done, cs =>
    match skipSpace cs with
    | '"' :: rest =>
      match stringLiteral rest with
      | none => none
      | some (key, rest) =>
        match skipSpace rest with
        | ':' :: rest =>
          match value depth fuel rest with
          | none => none
          | some (member, rest) =>
            let done := putMember key member done
            match skipSpace rest with
            | ',' :: rest => members depth fuel done rest
            | '}' :: rest => some (.object done, rest)
            | _ => none
        | _ => none
    | _ => none

end

def depthLimit : Nat := 127

/-- The value that a whole text stands for; of a text that is no JSON nothing else is said. -/
def parse? (text : String) : Option Json :=
  let cs := text.toList
  match value depthLimit (2 * cs.length + 2) cs with
  | some (result, rest) => if (skipSpace rest).isEmpty then some result else none
  | none => none

end LayeredEnv.Json
