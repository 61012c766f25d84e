namespace LayeredEnv

inductive ReadFailure where
  | notFound
  | notADirectory
  | invalidData
  | isADirectory
  | tooManyLinks
  | permissionDenied
  /-- A name or value for another program has a NUL. -/
  | nulByte
  deriving DecidableEq, Repr

/-- Every failure ends the whole compilation; there is no partial result. -/
inductive Error where
  | sourceNotFound (name : String)
  /-- No lexical rule applies at the cursor; the excerpt has a caret under it. -/
  | unrecognizedToken (line column : Nat) (excerpt : String)
  /-- The tokenizer stopped advancing at a byte offset. -/
  | stuckTokenizer (offset attempts : Nat)
  /-- The operator sequence of an interpolation is no spelling of the table. -/
  | unknownOperator (name spelling : String)
  | cyclicReference (chain : List String)
  | cyclicInclude (chain : List String)
  /-- Includes are nested deeper than the provider has names for. -/
  | includesTooDeep (chain : List String)
  | duplicateOperator (spelling : String)
  | invalidPattern (pattern : String)
  | malformedFile (file reason : String)
  | unreadable (path : String) (failure : ReadFailure)
  /-- A value with a NUL cannot be a word of the shell. -/
  | unquotable
  deriving DecidableEq, Repr

namespace ReadFailure

def message : ReadFailure → String
  | notFound => "No such file or directory (os error 2)"
  | notADirectory => "Not a directory (os error 20)"
  | invalidData => "stream did not contain valid UTF-8"
  | isADirectory => "Is a directory (os error 21)"
  | tooManyLinks => "Too many levels of symbolic links (os error 40)"
  | permissionDenied => "Permission denied (os error 13)"
  | nulByte => "nul byte found in provided data"

end ReadFailure

namespace Error

def arrows (chain : List String) : String := " -> ".intercalate chain

def message : Error → String
  | sourceNotFound name => "environment \"" ++ name ++ "\" not found"
  | unrecognizedToken line column excerpt =>
    "unrecognized token at line " ++ toString line ++ ", column " ++ toString column ++ ":\n"
      ++ excerpt
  | stuckTokenizer offset attempts =>
    "tokenizer stuck at offset " ++ toString offset ++ " after " ++ toString attempts
      ++ " steps without progress"
  | unknownOperator name spelling =>
    "unrecognized operator sequence \"" ++ spelling ++ "\" in interpolation of " ++ name
  | cyclicReference chain => "cyclic variable reference: " ++ arrows chain
  | cyclicInclude chain => "cyclic include: " ++ arrows chain
  | includesTooDeep chain => "includes nested too deeply: " ++ arrows chain
  | duplicateOperator spelling => "duplicate operator spelling \"" ++ spelling ++ "\""
  | invalidPattern pattern => "invalid pattern \"" ++ pattern ++ "\""
  | malformedFile file reason => "malformed declaration file " ++ file ++ ": " ++ reason
  | unreadable path failure => "failed to read " ++ path ++ ": " ++ failure.message
  | unquotable => "cannot shell-quote string containing nul byte"

end Error

/-- A variable's value; `none` means unset, which differs from empty. -/
abbrev Value := Option String

end LayeredEnv
