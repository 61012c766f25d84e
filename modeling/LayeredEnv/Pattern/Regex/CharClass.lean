import LayeredEnv.Text.Class
import LayeredEnv.Unicode.Age
import LayeredEnv.Unicode.CaseFold
import LayeredEnv.Unicode.Category
import LayeredEnv.Unicode.Property
import LayeredEnv.Unicode.ScriptExtensions
import LayeredEnv.Unicode.Segmentation

namespace LayeredEnv.Regex

abbrev CharClass : Type := Unicode.RangeTable

namespace CharClass

open Unicode.RangeTable (range single unions)

def any : CharClass := Unicode.RangeTable.empty.complement

def ofChars (text : String) : CharClass := unions (text.toList.map single)

def ascii : CharClass := range '\x00' '\x7f'

def asciiDigit : CharClass := range '0' '9'

def asciiLower : CharClass := range 'a' 'z'

def asciiUpper : CharClass := range 'A' 'Z'

def asciiAlpha : CharClass := asciiUpper.union asciiLower

def asciiWord : CharClass := unions [asciiAlpha, asciiDigit, single '_']

def asciiSpace : CharClass := (range '\t' '\r').union (single ' ')

def posix? : String → Option CharClass
  | "alnum" => some (asciiAlpha.union asciiDigit)
  | "alpha" => some asciiAlpha
  | "ascii" => some ascii
  | "blank" => some (ofChars "\t ")
  | "cntrl" => some ((range '\x00' '\x1f').union (single '\x7f'))
  | "digit" => some asciiDigit
  | "graph" => some (range '!' '~')
  | "lower" => some asciiLower
  | "print" => some (range ' ' '~')
  | "punct" => some ((range '!' '~').difference (asciiAlpha.union asciiDigit))
  | "space" => some asciiSpace
  | "upper" => some asciiUpper
  | "word" => some asciiWord
  | "xdigit" => some (unions [asciiDigit, range 'a' 'f', range 'A' 'F'])
  | _ => none

def alphabetic : CharClass := (Unicode.property? "alphabetic").getD .empty

def numeric : CharClass := (Unicode.category? "n").getD .empty

def digit : CharClass := (Unicode.category? "nd").getD .empty

def space : CharClass := (Unicode.property? "whitespace").getD .empty

/-- The characters of words: letters, marks, decimal digits, connectors and joiners. -/
def word : CharClass :=
  let parts := ["m", "nd", "pc"].filterMap Unicode.category?
  unions (alphabetic :: parts ++ (Unicode.property? "joincontrol").toList)

def normalizeName (name : List Char) : String :=
  let lower := name.map Char.toLower
  let (stripped, body) := match lower with
    | 'i' :: 's' :: rest => (true, rest)
    | _ => (false, lower)
  let body := body.filter fun c => c ≤ '\x7f' && c != ' ' && c != '_' && c != '-'
  if stripped && body == ['c'] then "isc" else .ofList body

def category? (name : String) : Option CharClass :=
  match name with
  | "any" => some any
  | "assigned" => (Unicode.category? "cn").map (·.complement)
  | "ascii" => some ascii
  | _ => Unicode.category? name

def property? (name : String) : Option CharClass :=
  let binary := if name == "cf" || name == "sc" || name == "lc" then none
    else Unicode.property? name
  binary.or ((category? name).or (Unicode.script? name))

def propertyValue? (name value : String) : Option CharClass :=
  match name with
  | "generalcategory" | "gc" => category? value
  | "script" | "sc" => Unicode.script? value
  | "scriptextensions" | "scx" => Unicode.scriptExtensions? value
  | "age" => Unicode.age? value
  | "graphemeclusterbreak" | "gcb" => Unicode.graphemeBreak? value
  | "wordbreak" | "wb" => Unicode.wordBreak? value
  | "sentencebreak" | "sb" => Unicode.sentenceBreak? value
  | _ => none

end CharClass
end LayeredEnv.Regex
