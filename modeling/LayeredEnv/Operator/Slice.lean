import LayeredEnv.Text.Class
import LayeredEnv.Word

namespace LayeredEnv.Slice

open Word (Fault)

/-- The value of decimal digits, held at the largest word. -/
def magnitude (digits : List Char) : Int64 :=
  digits.foldl (fun n c => Word.clampedAdd (Word.clampedMul n 10) (.ofNat (c.toNat - 48))) 0

def splitSign : List Char → Int64 × List Char
  | '-' :: rest => (-1, rest)
  | '+' :: rest => (1, rest)
  | rest => (1, rest)

def readInteger (text : List Char) : Except Fault (Option Int64) := do
  let (sign, rest) := splitSign (text.dropWhile Text.isWhitespace)
  let digits := rest.takeWhile Text.isDigit
  if digits.isEmpty then return none
  return some (← Word.mul sign (magnitude digits))

/-- The index that a number stands for in a text of `length` characters, where it ends at the
latest; a negative one counts from the end. -/
def index (length number : Int64) : Except Fault Int64 :=
  if number < 0 then do return max (← Word.add length number) 0
  else return min number length

/-- The characters from `offset` on, as many as `count` says; a negative count drops as many from
the end. -/
def slice (text : List Char) (offset : Int64) (count : Option Int64) :
    Except Fault (List Char) := do
  let start ← index (.ofNat text.length) offset
  let rest ← Word.dropTo start text
  let stop ← match count with
    | none => pure (.ofNat rest.length)
    | some count => index (.ofNat rest.length) count
  Word.takeTo stop rest

end LayeredEnv.Slice
