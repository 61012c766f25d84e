namespace LayeredEnv.Shell

inductive Quoting where
  | bare
  | single
  | double
  deriving DecidableEq, Repr

namespace Quoting

def all : List Quoting := [bare, single, double]

/-- The characters that can be written in a way; some shells give a caret a meaning anywhere but
behind an opening quote, so that none of the ways has it. -/
def allows : Quoting → Char → Bool
  | bare, c => c.isAlphanum || "+-./:@]_".toList.contains c
  | single, c => c != '\'' && c != '^' && c != '\\'
  | double, c => c != '\x60' && c != '$' && c != '!' && c != '^'

def write : Quoting → List Char → List Char
  | bare, chunk => chunk
  | single, chunk => '\'' :: chunk ++ ['\'']
  | double, chunk =>
    '"' :: chunk.flatMap (fun c => if "$`\"\\".toList.contains c then ['\\', c] else [c]) ++ ['"']

def chunk (ways : List Quoting) : List Char → List Quoting × List Char × List Char
  | [] => (ways, [], [])
  | c :: cs =>
    match ways.filter (·.allows c) with
    | [] => (ways, [], c :: cs)
    | fitting =>
      let (ways, taken, rest) := chunk fitting cs
      (ways, c :: taken, rest)

theorem length_of_chunk (ways : List Quoting) (cs : List Char) :
    (chunk ways cs).2.2.length ≤ cs.length := by
  fun_induction chunk ways cs with
  | case1 => exact Nat.le_refl _
  | case2 => exact Nat.le_refl _
  | case3 ways c cs _ _ _ rest h ih =>
    rw [h] at ih
    exact Nat.le_succ_of_le ih

/-- The text in chunks. A caret always begins one, in single quotes. -/
def chunks : List Char → List Char
  | [] => []
  | c :: cs =>
    let ways := if c == '^' then [single] else all.filter (·.allows c)
    let parts := chunk ways cs
    (parts.1.head?.getD single).write (c :: parts.2.1) ++ chunks parts.2.2
termination_by cs => cs.length
decreasing_by exact Nat.lt_succ_of_le (length_of_chunk _ cs)

end Quoting

/-- The text as one word of the shell; no word can hold a NUL. -/
def quote? (text : String) : Option String :=
  let cs := text.toList
  if cs.isEmpty then some "''"
  else if cs.contains '\x00' then none
  else some (.ofList (Quoting.chunks cs))

end LayeredEnv.Shell
