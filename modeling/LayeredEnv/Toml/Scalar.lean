import LayeredEnv.Text.Number
import LayeredEnv.Toml.Basic

namespace LayeredEnv.Toml

/-- The characters that may stand for themselves: no control characters but the tab. -/
def isPlain (c : Char) : Bool := c == '\t' || (' ' ≤ c && c != '\x7f')

def lineBreak? : List Char → Option (List Char)
  | '\n' :: rest => some rest
  | '\r' :: '\n' :: rest => some rest
  | _ => none

def dropLineBreak (cs : List Char) : List Char := (lineBreak? cs).getD cs

def scalar? (n : Nat) : Option Char := if n.isValidChar then some (.ofNat n) else none

def escape? : List Char → Option (Char × List Char)
  | 'b' :: rest => some ('\x08', rest)
  | 't' :: rest => some ('\t', rest)
  | 'n' :: rest => some ('\n', rest)
  | 'f' :: rest => some ('\x0c', rest)
  | 'r' :: rest => some ('\r', rest)
  | '"' :: rest => some ('"', rest)
  | '\\' :: rest => some ('\\', rest)
  | 'u' :: rest => hex 4 rest
  | 'U' :: rest => hex 8 rest
  | _ => none
where
  hex (length : Nat) (cs : List Char) : Option (Char × List Char) :=
    (Text.fixedHex length cs).bind fun (n, rest) => (scalar? n).map (·, rest)

/-- The rest of a string in one line, up to `mark`. Backslashes escape if the mark is the double
quote. As in the readers below, each turn takes a character, so that the length of the text is
fuel enough, and `done` has what was read, reversed. -/
def lineString (mark : Char) : (fuel : Nat) → (done : List Char) → List Char →
    Option (String × List Char)
  | 0, _, _ => none
  | _ + 1, _, [] => none
  | fuel + 1, done, c :: rest =>
    if c == mark then some (.ofList done.reverse, rest)
    else if c == '\\' && mark == '"' then
      (escape? rest).bind fun (c, rest) => lineString mark fuel (c :: done) rest
    else if isPlain c then lineString mark fuel (c :: done) rest
    else none

/-- What follows a backslash that ends its line: blanks and line breaks are skipped. -/
def afterJoin? (cs : List Char) : Option (List Char) :=
  (lineBreak? (cs.dropWhile Text.isBlank)).map skip
where
  skip : List Char → List Char
    | '\r' :: '\n' :: rest => skip rest
    | c :: rest => if c == ' ' || c == '\t' || c == '\n' then skip rest else c :: rest
    | [] => []

/-- The rest of a string that may span lines, up to three marks; up to two more marks in front of
them belong to the string. -/
def blockString (mark : Char) : (fuel : Nat) → (done : List Char) → List Char →
    Option (String × List Char)
  | 0, _, _ => none
  | _ + 1, _, [] => none
  | fuel + 1, done, c :: rest =>
    if c == mark then
      let marks := 1 + (rest.takeWhile (· == mark)).length
      if marks < 3 then blockString mark fuel (c :: done) rest
      else
        let inner := min (marks - 3) 2
        some (.ofList (done.reverse ++ List.replicate inner mark), rest.drop (inner + 2))
    else if c == '\\' && mark == '"' then
      match afterJoin? rest with
      | some rest => blockString mark fuel done rest
      | none => (escape? rest).bind fun (c, rest) => blockString mark fuel (c :: done) rest
    else
      match lineBreak? (c :: rest) with
      | some rest => blockString mark fuel ('\n' :: done) rest
      | none => if isPlain c then blockString mark fuel (c :: done) rest else none

def lineString? : List Char → Option (String × List Char)
  | '"' :: rest => lineString '"' (rest.length + 1) [] rest
  | '\'' :: rest => lineString '\'' (rest.length + 1) [] rest
  | _ => none

def anyString? : List Char → Option (String × List Char)
  | '"' :: '"' :: '"' :: rest => blockString '"' (rest.length + 1) [] (dropLineBreak rest)
  | '\'' :: '\'' :: '\'' :: rest => blockString '\'' (rest.length + 1) [] (dropLineBreak rest)
  | cs => lineString? cs

/-- The longest run of digits at the front, where an underscore may stand between two. -/
def underscored (isDigit : Char → Bool) : List Char → List Char × List Char
  | [] => ([], [])
  | '_' :: c :: rest =>
    if isDigit c then
      let (digits, rest) := underscored isDigit rest
      (c :: digits, rest)
    else ([], '_' :: c :: rest)
  | c :: rest =>
    if isDigit c then
      let (digits, rest) := underscored isDigit rest
      (c :: digits, rest)
    else ([], c :: rest)

def digits? (isDigit : Char → Bool) : List Char → Option (List Char × List Char)
  | [] => none
  | c :: rest =>
    if isDigit c then
      let (digits, rest) := underscored isDigit rest
      some (c :: digits, rest)
    else none

def sign : List Char → Bool × List Char
  | '-' :: rest => (true, rest)
  | '+' :: rest => (false, rest)
  | cs => (false, cs)

/-- The digits of a whole number; a zero at the front stands alone. -/
def whole? : List Char → Option (List Char × List Char)
  | '0' :: rest => some (['0'], rest)
  | cs => digits? Text.isDigit cs

def cutOff (cs rest : List Char) : String := .ofList (cs.take (cs.length - rest.length))

def maxInteger : Nat := 9223372036854775807

def inBase (base : Nat) (isDigit : Char → Bool) (cs : List Char) : Option (Toml × List Char) := do
  let (digits, rest) ← digits? isDigit cs
  let n := Text.valueInBase base digits
  if maxInteger < n then none else some (.integer n, rest)

def integer? : List Char → Option (Toml × List Char)
  | '0' :: 'x' :: rest => inBase 16 (fun c => (Text.hexValue? c).isSome) rest
  | '0' :: 'o' :: rest => inBase 8 (fun c => '0' ≤ c && c ≤ '7') rest
  | '0' :: 'b' :: rest => inBase 2 (fun c => c == '0' || c == '1') rest
  | cs => do
    let (negative, rest) := sign cs
    let (digits, rest) ← whole? rest
    let n := Text.decimalValue digits
    if negative then
      if maxInteger + 1 < n then none else some (.integer (-n), rest)
    else if maxInteger < n then none
    else some (.integer n, rest)

def exponent? : List Char → Option (Int × List Char)
  | [] => some (0, [])
  | c :: rest =>
    if c == 'e' || c == 'E' then do
      let (negative, rest) := sign rest
      let (digits, rest) ← digits? Text.isDigit rest
      let n : Int := Text.decimalValue digits
      return (if negative then -n else n, rest)
    else some (0, c :: rest)

def decimal? (cs : List Char) : Option (Toml × List Char) := do
  let (negative, rest) := sign cs
  let (whole, afterWhole) ← whole? rest
  let (fraction, afterFraction) ← match afterWhole with
    | '.' :: rest => digits? Text.isDigit rest
    | rest => some ([], rest)
  let (exponent, rest) ← exponent? afterFraction
  if rest.length == afterWhole.length then none
  if !negative &&
      Text.isOutOfRange (Text.decimalValue (whole ++ fraction)) (exponent - fraction.length) then
    none
  return (.float (cutOff cs rest), rest)

def special? (cs : List Char) : Option (Toml × List Char) := do
  let rest := (sign cs).2
  let rest ← (Text.dropFront "inf".toList rest).or (Text.dropFront "nan".toList rest)
  return (.float (cutOff cs rest), rest)

def fixedDigits (length low high : Nat) (cs : List Char) : Option (Nat × List Char) :=
  let digits := cs.take length
  let n := Text.decimalValue digits
  if digits.length == length && digits.all Text.isDigit && low ≤ n && n ≤ high then
    some (n, cs.drop length)
  else none

def expect (c : Char) : List Char → Option (List Char)
  | d :: rest => if c == d then some rest else none
  | [] => none

def isLeapYear (year : Nat) : Bool := year % 4 == 0 && (year % 100 != 0 || year % 400 == 0)

def daysIn (year month : Nat) : Nat :=
  if month == 2 then if isLeapYear year then 29 else 28
  else if [4, 6, 9, 11].contains month then 30
  else 31

def date? (cs : List Char) : Option (List Char) := do
  let (year, rest) ← fixedDigits 4 0 9999 cs
  let (month, rest) ← fixedDigits 2 1 12 (← expect '-' rest)
  let (_, rest) ← fixedDigits 2 1 (daysIn year month) (← expect '-' rest)
  return rest

def time? (cs : List Char) : Option (List Char) := do
  let (_, rest) ← fixedDigits 2 0 23 cs
  let (_, rest) ← fixedDigits 2 0 59 (← expect ':' rest)
  let (_, rest) ← fixedDigits 2 0 60 (← expect ':' rest)
  match rest with
  | '.' :: fraction => return ((Text.someDigits fraction).map (·.2)).getD rest
  | rest => return rest

/-- What follows an offset from universal time such as `Z` or `-07:00`, if there is one. -/
def dropOffset (cs : List Char) : List Char :=
  match cs with
  | 'Z' :: rest | 'z' :: rest => rest
  | '+' :: rest | '-' :: rest =>
    (do
      let (_, rest) ← fixedDigits 2 0 23 rest
      let (_, rest) ← fixedDigits 2 0 59 (← expect ':' rest)
      some rest).getD cs
  | cs => cs

def datetime? (cs : List Char) : Option (Toml × List Char) :=
  let dated := (date? cs).map fun rest =>
    match rest with
    | c :: time =>
      if c == 'T' || c == 't' || c == ' ' then ((time? time).map dropOffset).getD rest else rest
    | [] => rest
  (dated.or (time? cs)).map fun rest => (.datetime (cutOff cs rest), rest)

def scalarValue? (cs : List Char) : Option (Toml × List Char) :=
  match cs with
  | '"' :: _ | '\'' :: _ => (anyString? cs).map fun (text, rest) => (.string text, rest)
  | 't' :: rest => (Text.dropFront "rue".toList rest).map (.boolean true, ·)
  | 'f' :: rest => (Text.dropFront "alse".toList rest).map (.boolean false, ·)
  | cs => (datetime? cs).or ((decimal? cs).or ((special? cs).or (integer? cs)))

end LayeredEnv.Toml
