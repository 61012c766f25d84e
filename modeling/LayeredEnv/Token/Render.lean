import LayeredEnv.Text.Class
import LayeredEnv.Token.Tree

namespace LayeredEnv.Render

/-- Where literal text stands; each place has special characters of its own. -/
inductive Place where
  | value
  | quoted
  | expression
  deriving DecidableEq, Repr

def isSpecial : Place → Char → Bool
  | .quoted, c => "\\\"$".toList.contains c
  | .value, c => "\\\"$#".toList.contains c
  | .expression, c => "\\\"$\x7d-:/#%|?&+".toList.contains c

def escape (place : Place) (text : List Char) : List Char :=
  text.flatMap fun c => if isSpecial place c then ['\\', c] else [c]

def quoteChars (text : List Char) : List Char := '"' :: escape .quoted text ++ ['"']

def blanks (escaped : Bool) (text : List Char) : List Char :=
  if escaped then text.flatMap (['\\', ·]) else text

/-- Unquoted text of a value; `first` and `last` tell whether it stands at an end of the value,
where blanks are trimmed unless they are escaped. -/
def valueText (first last : Bool) (text : List Char) : List Char :=
  let body := Text.trim Text.isBlank text
  if body.isEmpty then blanks (first || last) text
  else
    blanks first (text.takeWhile Text.isBlank) ++ escape .value body ++
      blanks last (Text.takeEndWhile Text.isBlank text)

/-- Literal text; outside of quotes a text with line breaks is quoted. -/
def literal (place : Place) (first last : Bool) (text : List Char) : List Char :=
  if place != .quoted && text.any Text.isLineBreak then quoteChars text
  else
    match place with
    | .value => valueText first last text
    | place => escape place text

mutual

def token (place : Place) (first last : Bool) : Token → List Char
  | .node kind value isLength children =>
    match kind with
    | .text => literal place first last value.toList
    | .quoted => '"' :: tokens .quoted true true children ++ ['"']
    | .interpolation =>
      "$\x7b".toList ++ (if isLength then ['#'] else []) ++ value.toList ++
        tokens .expression false false children ++ "\x7d".toList
    | .expression => value.toList ++ tokens .expression true true children
    | .comment => "# ".toList ++ value.toList
    | .main | .assignment | .includeFlag | .preserveFlag => []

/-- The text of sibling tokens. With `edges` they fill their parent, of which `first` tells whether
the start has come. -/
def tokens (place : Place) (edges first : Bool) : List Token → List Char
  | [] => []
  | t :: ts => token place first (edges && ts.isEmpty) t ++ tokens place edges false ts

end

def line (t : Token) : List Char :=
  (match t.kind with
  | .includeFlag => "#/include \"".toList ++ t.value.toList ++ ['"']
  | .preserveFlag => "#/preserve".toList
  | .comment => "# ".toList ++ t.value.toList
  | .assignment => t.value.toList ++ '=' :: tokens .value true true t.children
  | _ => token .value false false t) ++ ['\n']

def lines (ts : List Token) : List Char := ts.flatMap line

end Render

def TokenTree.render (tree : TokenTree) : String := .ofList (Render.lines tree.topTokens)

/-- A quoted literal whose value is exactly `value`. -/
def quote (value : String) : String := .ofList (Render.quoteChars value.toList)

end LayeredEnv
