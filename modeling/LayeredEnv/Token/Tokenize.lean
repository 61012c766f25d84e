import LayeredEnv.Token.Blocks
import LayeredEnv.Token.Tree

namespace LayeredEnv.Tokenize

/-- How many steps in a row may take no character, unless another limit is given. -/
def defaultLimit : Nat := 20

def consumed (source rest : List Char) : List Char := source.take (source.length - rest.length)

def isLineFeed (c : Char) : Bool := c == '\n'

/-- The refusal of a text at the start of `rest`: the line, counted by line feeds, the column,
counted by characters, and the line itself over a caret. -/
def unrecognized (source rest : List Char) : Error :=
  let before := consumed source rest
  let lineStart := Text.takeEndWhile (!isLineFeed ·) before
  let line := Text.dropEndWhile (· == '\r') (lineStart ++ rest.takeWhile (!isLineFeed ·))
  .unrecognizedToken (before.countP isLineFeed + 1) (lineStart.length + 1)
    (.ofList (line ++ '\n' :: List.replicate lineStart.length ' ' ++ ['^']))

/-- Reads `rest`, an end of `source`, into the open blocks. A line break ends a value without being
taken; `idle` counts such steps in a row, and the text is refused when they reach the limit. -/
def run (table : OperatorTable) (limit : Nat) (source : List Char) :
    (idle : Nat) → Blocks → (rest : List Char) → Except Error Blocks
  | _, blocks, [] => .ok blocks
  | idle, blocks, c :: cs =>
    if _h : blocks.depth ≠ 0 ∧ blocks.innermost = .assignment ∧ Text.isLineBreak c then
      if limit ≤ idle + 1 then
        .error (.stuckTokenizer (Text.byteLength (consumed source (c :: cs))) (idle + 1))
      else run table limit source (idle + 1) blocks.close (c :: cs)
    else
      match _h : blocks.step table (c :: cs) with
      | none => .error (unrecognized source (c :: cs))
      | some (blocks, rest) => run table limit source 0 blocks rest
termination_by _ blocks rest => 2 * rest.length + blocks.depth
decreasing_by
  · rw [Blocks.depth_close]
    omega
  · have := Blocks.step_bounds _h
    omega

def tokens (limit : Nat) (source : List Char) (blocks : Blocks) (cursor : List Char) :
    Except Error (List Token) :=
  (run .standard (max limit 1) source 0 blocks cursor).map Blocks.finish

end Tokenize

def tokenize (text : String) (limit : Nat := Tokenize.defaultLimit) : Except Error TokenTree :=
  (Tokenize.tokens limit text.toList {} text.toList).map .ofTokens

/-- Tokenizes a text as the value of one assignment without a name, and returns the number of the
assignment. Leading blanks are dropped, and the value ends at the first line break. -/
def tokenizeValue (text : String) (limit : Nat := Tokenize.defaultLimit) :
    Except Error (TokenTree × Nat) :=
  let blocks : Blocks := Blocks.enter {} { kind := .assignment, value := "" }
  (Tokenize.tokens limit text.toList blocks (text.toList.dropWhile Text.isBlank)).map
    fun tokens => (.ofTokens tokens, 1)

end LayeredEnv
