import LayeredEnv.Text.Class

namespace LayeredEnv.Shell.Arithmetic

/-- The binary operators with their precedence, longer ones before those that they begin with. -/
def operators : List (String × Nat) :=
  [("||", 1), ("&&", 2), ("==", 3), ("!=", 3), ("<=", 4), (">=", 4), ("<", 4), (">", 4), ("+", 5),
    ("-", 5), ("*", 6), ("/", 6), ("%", 6)]

def ofBool (b : Bool) : Int := if b then 1 else 0

/-- The value of an operation; a division by zero has none. -/
def apply (operator : String) (a b : Int) : Option Int :=
  match operator with
  | "||" => some (ofBool (a != 0 || b != 0))
  | "&&" => some (ofBool (a != 0 && b != 0))
  | "==" => some (ofBool (a == b))
  | "!=" => some (ofBool (a != b))
  | "<=" => some (ofBool (a ≤ b))
  | ">=" => some (ofBool (a ≥ b))
  | "<" => some (ofBool (a < b))
  | ">" => some (ofBool (a > b))
  | "+" => some (a + b)
  | "-" => some (a - b)
  | "*" => some (a * b)
  | "/" => if b == 0 then none else some (a.tdiv b)
  | "%" => if b == 0 then none else some (a.tmod b)
  | _ => none

def skipSpace (cs : List Char) : List Char := cs.dropWhile Text.isWhitespace

def operator? (cs : List Char) : Option (String × Nat × List Char) :=
  operators.findSome? fun (text, precedence) =>
    (Text.dropFront text.toList cs).map (text, precedence, ·)

mutual

/-- An operand with its sign. Fuel of some turns for each character is enough. -/
def operand (lookup : String → Int) : (fuel : Nat) → List Char → Option (Int × List Char)
  | 0, _ => none
  | fuel + 1, cs =>
    match skipSpace cs with
    | '-' :: rest => (operand lookup fuel rest).map fun (n, rest) => (-n, rest)
    | '+' :: rest => operand lookup fuel rest
    | '!' :: rest => (operand lookup fuel rest).map fun (n, rest) => (ofBool (n == 0), rest)
    | '(' :: rest => do
      let (n, rest) ← expression lookup fuel 1 rest
      match skipSpace rest with
      | ')' :: rest => return (n, rest)
      | _ => none
    | c :: rest =>
      if c.isDigit then
        (String.ofList (c :: rest.takeWhile Char.isDigit)).toNat?.map fun n =>
          ((n : Int), rest.dropWhile Char.isDigit)
      else if c.isAlpha || c == '_' then
        let isName (c : Char) : Bool := c.isAlphanum || c == '_'
        some (lookup (.ofList (c :: rest.takeWhile isName)), rest.dropWhile isName)
      else none
    | [] => none

def expression (lookup : String → Int) : (fuel : Nat) → (precedence : Nat) → List Char →
    Option (Int × List Char)
  | 0, _, _ => none
  | fuel + 1, precedence, cs => do
    let (first, rest) ← operand lookup fuel cs
    joined lookup fuel precedence first rest

def joined (lookup : String → Int) : (fuel : Nat) → (precedence : Nat) → Int → List Char →
    Option (Int × List Char)
  | 0, _, _, _ => none
  | fuel + 1, precedence, first, cs =>
    match operator? (skipSpace cs) with
    | none => some (first, skipSpace cs)
    | some (operator, strength, rest) =>
      if strength < precedence then some (first, skipSpace cs)
      else do
        let (second, rest) ← expression lookup fuel (strength + 1) rest
        joined lookup fuel precedence (← apply operator first second) rest

end

def value? (lookup : String → Int) (text : String) : Option Int :=
  let cs := text.toList
  if (skipSpace cs).isEmpty then some 0
  else
    match expression lookup (4 * cs.length + 4) 1 cs with
    | some (n, []) => some n
    | _ => none

end LayeredEnv.Shell.Arithmetic
