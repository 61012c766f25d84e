import LayeredEnv.Assembly
import LayeredEnv.Include
import LayeredEnv.Override

namespace LayeredEnv.Compile

def prepare (text origin : String) (provider : Provider) (limit : Nat := Tokenize.defaultLimit) :
    Except Error TokenTree := do
  match Include.merge provider limit origin (← tokenize text limit) with
  | (.ok (), tree) => return tree.flattenOverrides
  | (.error error, _) => throw error

/-- The variables that a text declares, if it is the text of the source `origin`. -/
def source (text origin : String) (provider : Provider) (limit : Nat := Tokenize.defaultLimit) :
    Except Error Environment := do
  Assembly.assemble .standard (← prepare text origin provider limit).declarations

def environment (name : String) (provider : Provider) (limit : Nat := Tokenize.defaultLimit) :
    Except Error Environment := do
  source (← provider.provide name) name provider limit

/-- The name under which a text without a source takes part in include chains. -/
def inputName : String := "<input>"

def text (text : String) (provider : Provider) (limit : Nat := Tokenize.defaultLimit) :
    Except Error Environment :=
  source text inputName provider limit

end Compile

/-- The value of a text that stands for the right side of an assignment. -/
def expand {σ : Type} (text : String) (lookup : Lookup σ) : Eval σ Value := do
  let (tree, id) ← tokenizeValue text
  (tree.subtree id).resolve .standard lookup

end LayeredEnv
