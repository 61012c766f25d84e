import LayeredEnv.FileTree
import LayeredEnv.Pattern.Glob

namespace LayeredEnv.Shell

/-- A character of an expanded word, or what decides how the word falls into fields. -/
inductive Glyph where
  /-- A character; a quoted one has no meaning in patterns. -/
  | char (c : Char) (quoted : Bool)
  /-- A blank of an unquoted value, where a field ends. -/
  | blank (c : Char)
  /-- Quotes, which make a field even if it is empty. -/
  | mark
  deriving DecidableEq, Repr

namespace Glyph

def isBlank (c : Char) : Bool := c == ' ' || c == '\t' || c == '\n'

def ofText (quoted : Bool) (text : String) : List Glyph :=
  (if quoted then [.mark] else []) ++ text.toList.map (.char · quoted)

def ofValue (quoted : Bool) (value : String) : List Glyph :=
  if quoted then ofText true value
  else value.toList.map fun c => if isBlank c then .blank c else .char c false

def text (glyphs : List Glyph) : String :=
  .ofList (glyphs.filterMap fun
    | .char c _ => some c
    | .blank c => some c
    | .mark => none)

def pattern (glyphs : List Glyph) : String :=
  .ofList (glyphs.flatMap fun
    | .char c true => ['\\', c]
    | .char c false => [c]
    | .blank c => [c]
    | .mark => [])

def fields : List Glyph → List (List Glyph)
  | [] => []
  | .blank _ :: rest => fields rest
  | glyph :: rest =>
    match rest with
    | [] => [[glyph]]
    | .blank _ :: _ => [glyph] :: fields rest
    | _ =>
      match fields rest with
      | [] => [[glyph]]
      | field :: others => (glyph :: field) :: others

def isPattern (glyphs : List Glyph) : Bool :=
  glyphs.any fun glyph => glyph matches .char '*' false | .char '?' false | .char '[' false

/-- The names in the working directory that a field matches as a pattern, or its text if none
does. -/
def names (tree : FileTree) (glyphs : List Glyph) : List String :=
  let entries : List String := match tree.lookup "." with
    | .ok (.directory _ entries) => entries.map (·.1)
    | _ => []
  let isHidden (name : String) : Bool :=
    name.startsWith "." && glyphs.head? != some (.char '.' false)
  let found := match Glob.parse (pattern glyphs).toList with
    | some glob => entries.filter fun name => !isHidden name && Glob.isMatch glob name.toList
    | none => []
  if !isPattern glyphs || found.isEmpty then [text glyphs] else found.mergeSort

end Glyph

end LayeredEnv.Shell
