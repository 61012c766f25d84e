import LayeredEnv.FileTree
import LayeredEnv.Operator.Slice

namespace LayeredEnv.Shell

structure Result where
  status : Nat := 0
  out : String := ""
  err : String := ""

namespace Builtin

def ofBool (b : Bool) : Result := { status := if b then 0 else 1 }

def isOctal (c : Char) : Bool := '0' ≤ c && c ≤ '7'

def octalValue (digits : List Char) : Nat := digits.foldl (fun n c => 8 * n + (c.toNat - 48)) 0

/-- The text with its escapes replaced, up to one that ends all output; the flag tells whether
there was one. An octal escape has a zero in front where `zero` says so. The length of the text is
fuel enough. -/
def unescape (zero : Bool) : (fuel : Nat) → List Char → List Char × Bool
  | 0, _ => ([], false)
  | fuel + 1, cs =>
    let next (front rest : List Char) : List Char × Bool :=
      let (text, ends) := unescape zero fuel rest
      (front ++ text, ends)
    match cs with
    | [] => ([], false)
    | '\\' :: c :: rest =>
      match c with
      | 'a' => next ['\x07'] rest
      | 'b' => next ['\x08'] rest
      | 'c' => ([], true)
      | 'f' => next ['\x0c'] rest
      | 'n' => next ['\n'] rest
      | 'r' => next ['\r'] rest
      | 't' => next ['\t'] rest
      | 'v' => next ['\x0b'] rest
      | '\\' => next ['\\'] rest
      | c =>
        let digits := if zero then (rest.take 3).takeWhile isOctal
          else ((c :: rest).take 3).takeWhile isOctal
        if zero && c == '0' then next [.ofNat (octalValue digits)] (rest.drop digits.length)
        else if !zero && !digits.isEmpty then
          next [.ofNat (octalValue digits)] ((c :: rest).drop digits.length)
        else next ['\\', c] rest
    | c :: rest => next [c] rest

def echo (args : List String) : Result :=
  let (newline, args) := match args with
    | "-n" :: args => (false, args)
    | args => (true, args)
  let text := (" ".intercalate args).toList
  let (text, ends) := unescape true (text.length + 1) text
  { out := .ofList (if newline && !ends then text ++ ['\n'] else text) }

def pad (left zeros : Bool) (width : Nat) (text : List Char) : List Char :=
  let missing := width - text.length
  if left then text ++ List.replicate missing ' '
  else if zeros then
    match text with
    | '-' :: digits => '-' :: List.replicate missing '0' ++ digits
    | digits => List.replicate missing '0' ++ digits
  else List.replicate missing ' ' ++ text

def isNumeric (text : String) : Bool :=
  let digits := (Slice.splitSign (text.toList.dropWhile Char.isWhitespace)).2
  digits.all Char.isDigit && (!digits.isEmpty || text.isEmpty)

/-- What a directive makes of an argument, and whether the argument suits it; none for a directive
that is not known. -/
def convert (letter : Char) (precision : Option Nat) (arg : String) : Option (List Char × Bool) :=
  let number := ((Slice.readInteger arg.toList).toOption.join.getD 0).toInt
  let inBase (base : Nat) : List Char :=
    (if number < 0 then ['-'] else []) ++ Nat.toDigits base number.natAbs
  match letter with
  | 's' => some (arg.toList.take (precision.getD arg.length), true)
  | 'b' => some ((unescape true (arg.length + 1) arg.toList).1, true)
  | 'c' => some (arg.toList.take 1, true)
  | 'd' | 'i' | 'u' => some (inBase 10, isNumeric arg)
  | 'o' => some (inBase 8, isNumeric arg)
  | 'x' => some (inBase 16, isNumeric arg)
  | 'X' => some ((inBase 16).map Char.toUpper, isNumeric arg)
  | _ => none

structure Formatted where
  out : List Char
  isClean : Bool
  rest : List String

def Formatted.prepend (text : List Char) (isClean : Bool) (result : Formatted) : Formatted :=
  { result with out := text ++ result.out, isClean := isClean && result.isClean }

def format : (fuel : Nat) → List Char → List String → Option Formatted
  | 0, _, args => some ⟨[], true, args⟩
  | fuel + 1, cs, args =>
    match cs with
    | [] => some ⟨[], true, args⟩
    | '%' :: '%' :: rest => (format fuel rest args).map (.prepend ['%'] true)
    | '%' :: rest =>
      let flags := rest.takeWhile fun c => "-0+ #".toList.contains c
      let rest := rest.drop flags.length
      let width := rest.takeWhile Char.isDigit
      let rest := rest.drop width.length
      let (precision, rest) := match rest with
        | '.' :: rest =>
          let digits := rest.takeWhile Char.isDigit
          (some ((String.ofList digits).toNat?.getD 0), rest.drop digits.length)
        | rest => (none, rest)
      match rest with
      | [] => none
      | letter :: rest =>
        match convert letter precision (args.head?.getD "") with
        | none => none
        | some (text, isClean) =>
          let width := (String.ofList width).toNat?.getD 0
          (format fuel rest args.tail).map
            (.prepend (pad (flags.contains '-') (flags.contains '0') width text) isClean)
    | c :: rest => (format fuel rest args).map (.prepend [c] true)

/-- Passes over a format as long as arguments are left that it takes. -/
def formatAll (cs : List Char) : (fuel : Nat) → List String → Option Formatted
  | 0, args => some ⟨[], true, args⟩
  | fuel + 1, args =>
    match format (cs.length + 1) cs args with
    | none => none
    | some result =>
      if result.rest.isEmpty || result.rest.length == args.length then some result
      else (formatAll cs fuel result.rest).map (.prepend result.out result.isClean)

def printf (args : List String) : Result :=
  match args with
  | [] => { status := 2, err := "sh: 1: printf: usage: printf format [arg ...]\n" }
  | template :: args =>
    let (cs, _) := unescape false (template.length + 1) template.toList
    match formatAll cs (args.length + 1) args with
    | some result =>
      if result.isClean then { out := .ofList result.out }
      else { status := 1, out := .ofList result.out, err := "sh: 1: printf: not a number\n" }
    | none => { status := 2, err := "sh: 1: printf: " ++ template ++ ": invalid directive\n" }

def integer? (text : String) : Option Int :=
  match text.toList with
  | '-' :: digits => (String.ofList digits).toNat?.map fun n => -(n : Int)
  | '+' :: digits => (String.ofList digits).toNat?.map Int.ofNat
  | _ => text.toNat?.map Int.ofNat

def isKind (tree : FileTree) (path : String) (p : FileNode → Bool) : Bool :=
  match tree.lookup path with
  | .ok node => p node
  | .error _ => false

def unary (tree : FileTree) (operator operand : String) : Option Bool :=
  match operator with
  | "-n" => some !operand.isEmpty
  | "-z" => some operand.isEmpty
  | "-e" | "-r" | "-w" => some (isKind tree operand fun _ => true)
  | "-f" => some (tree.isFile operand)
  | "-d" | "-x" => some (isKind tree operand FileNode.isDirectory)
  | "-s" => some (match tree.read operand with
    | .ok text => !text.isEmpty
    | .error _ => false)
  | _ => none

def binary (operator first second : String) : Option Bool :=
  let compare (p : Int → Int → Bool) : Option Bool := do
    return p (← integer? first) (← integer? second)
  match operator with
  | "=" => some (first == second)
  | "!=" => some (first != second)
  | "<" => some (first < second)
  | ">" => some (second < first)
  | "-eq" => compare (· == ·)
  | "-ne" => compare (· != ·)
  | "-lt" => compare (· < ·)
  | "-le" => compare (· ≤ ·)
  | "-gt" => compare (· > ·)
  | "-ge" => compare (· ≥ ·)
  | _ => none

/-- The truth of a condition; `-a` and `-o` join conditions, and the latter binds less. -/
def condition (tree : FileTree) : (fuel : Nat) → List String → Option Bool
  | 0, _ => none
  | fuel + 1, args =>
    match args with
    | [] => some false
    | [text] => some !text.isEmpty
    | ["!", text] => some text.isEmpty
    | [operator, operand] => unary tree operator operand
    | [first, operator, second] =>
      (binary operator first second).or
        (if first == "!" then (condition tree fuel [operator, second]).map (!·)
        else joined fuel args)
    | "!" :: args => (condition tree fuel args).map (!·)
    | args => joined fuel args
where
  joined (fuel : Nat) (args : List String) : Option Bool :=
    let split (operator : String) : Option (List String × List String) :=
      match args.span (· != operator) with
      | (before, _ :: after) => some (before, after)
      | _ => none
    match split "-o" with
    | some (before, after) => do
      return (← condition tree fuel before) || (← condition tree fuel after)
    | none => do
      let (before, after) ← split "-a"
      return (← condition tree fuel before) && (← condition tree fuel after)

def test (tree : FileTree) (args : List String) : Result :=
  match condition tree (args.length + 1) args with
  | some b => ofBool b
  | none => { status := 2, err := "sh: 1: test: unexpected operator\n" }

def bracket (tree : FileTree) (args : List String) : Result :=
  if args.getLast? == some "]" then test tree args.dropLast
  else { status := 2, err := "sh: 1: [: missing ]\n" }

def readInput (tree : FileTree) (input path : String) : Except ReadFailure String :=
  if path == "-" then .ok input
  else if path == "/dev/null" then .ok ""
  else tree.read path

def cat (tree : FileTree) (input : String) (paths : List String) : Result :=
  (if paths.isEmpty then ["-"] else paths).foldl
    (fun result path =>
      match readInput tree input path with
      | .ok text => { result with out := result.out ++ text }
      | .error failure =>
        { result with
          status := 1, err := result.err ++ "cat: " ++ path ++ ": " ++ failure.message ++ "\n" })
    {}

def count (input : String) (args : List String) : Result :=
  match args with
  | ["-l"] => { out := toString (input.toList.count '\n') ++ "\n" }
  | ["-c"] => { out := toString input.utf8ByteSize ++ "\n" }
  | ["-m"] => { out := toString input.length ++ "\n" }
  | ["-w"] =>
    { out := toString ((input.toList.splitBy fun a b => a.isWhitespace == b.isWhitespace).filter
        fun run => !(run.head?.getD ' ').isWhitespace).length ++ "\n" }
  | _ => { status := 1, err := "wc: unknown arguments\n" }

def find? (tree : FileTree) (input name : String) : Option (List String → Result) :=
  match name with
  | ":" | "true" | "sleep" => some fun _ => {}
  | "false" => some fun _ => ofBool false
  | "echo" => some echo
  | "printf" => some printf
  | "test" => some (test tree)
  | "[" => some (bracket tree)
  | "cat" => some (cat tree input)
  | "wc" => some (count input)
  | _ => none

end Builtin
end LayeredEnv.Shell
