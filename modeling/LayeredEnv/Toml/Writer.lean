import LayeredEnv.Text.Class

namespace LayeredEnv.Toml

def longestRun (c : Char) (cs : List Char) : Nat :=
  let runs := cs.splitBy fun a b => a == b
  (runs.map fun run => if run.contains c then run.length else 0).foldl max 0

def needsEscape (c : Char) : Bool := (c < ' ' && c != '\t' && c != '\n') || c == '\x7f'

def hexDigit (n : Nat) : Char := if n < 10 then .ofNat (48 + n) else .ofNat (55 + n)

/-- The escape of a character that no quotes stand for, or the character itself; line feeds stay in
a string of many lines. -/
def escapeChar (isBlock : Bool) (c : Char) : List Char :=
  match c with
  | '\x08' => ['\\', 'b']
  | '\t' => ['\\', 't']
  | '\n' => if isBlock then ['\n'] else ['\\', 'n']
  | '\x0c' => ['\\', 'f']
  | '\r' => ['\\', 'r']
  | '\\' => ['\\', '\\']
  | c =>
    if needsEscape c then ['\\', 'u', '0', '0', hexDigit (c.toNat / 16), hexDigit (c.toNat % 16)]
    else [c]

/-- The text with its escapes. In a string of many lines up to two double quotes may follow each
other; `run` tells how many there are in front. -/
def escapeAll (isBlock : Bool) (run : Nat) : List Char → List Char
  | [] => []
  | '"' :: cs =>
    if run < (if isBlock then 2 else 0) then '"' :: escapeAll isBlock (run + 1) cs
    else '\\' :: '"' :: escapeAll isBlock 0 cs
  | c :: cs => escapeChar isBlock c ++ escapeAll isBlock 0 cs

/-- A string in quotes for many lines; line feeds have it begin on a line of its own. -/
def block (mark : String) (cs content : List Char) : String :=
  mark ++ (if cs.contains '\n' then "\n" else "") ++ .ofList content ++ mark

def quote (text : String) : String :=
  let cs := text.toList
  let isPlain := !cs.any needsEscape
  let isOneLine := isPlain && !cs.contains '\n'
  let singles := longestRun '\'' cs
  let doubles := longestRun '"' cs
  if isOneLine && !cs.contains '\\' && doubles == 0 then
    "\"" ++ .ofList (escapeAll false 0 cs) ++ "\""
  else if isOneLine && singles == 0 then "'" ++ text ++ "'"
  else if isPlain && !cs.contains '\\' && doubles ≤ 2 then block "\"\"\"" cs (escapeAll true 0 cs)
  else if isPlain && singles ≤ 2 then block "'''" cs cs
  else if cs.contains '\n' then block "\"\"\"" cs (escapeAll true 0 cs)
  else "\"" ++ .ofList (escapeAll false 0 cs) ++ "\""

def quoteAll : List String → String
  | [] => "[]"
  | [text] => "[" ++ quote text ++ "]"
  | texts => "[\n" ++ String.join (texts.map fun text => "    " ++ quote text ++ ",\n") ++ "]"

end LayeredEnv.Toml
