import LayeredEnv.Error
import LayeredEnv.Json.Parser
import LayeredEnv.Token.Render

namespace LayeredEnv

structure Entry where
  name : String
  /-- The value; `none` leaves the variable unset. -/
  value : Value
  preserve : Bool
  deriving DecidableEq, Repr

namespace Entry

/-- The lines that declare the entry; one without a value has none. -/
def declaration (entry : Entry) : String :=
  match entry.value with
  | none => ""
  | some value =>
    (if entry.preserve then "#/preserve\n" else "") ++ entry.name ++ "=" ++ quote value ++ "\n"

def declarations (entries : List Entry) : String := String.join (entries.map declaration)

/-- The upper-case form of a character as far as it consists of variable name characters. -/
def upperName? (c : Char) : Option (List Char) :=
  if Text.isNameChar c then some [c]
  else if Text.isLower c then some [c.toUpper]
  else match c with
    | '\u00df' => some ['S', 'S']
    | '\u0131' => some ['I']
    | '\u017f' => some ['S']
    | '\ufb00' => some ['F', 'F']
    | '\ufb01' => some ['F', 'I']
    | '\ufb02' => some ['F', 'L']
    | '\ufb03' => some ['F', 'F', 'I']
    | '\ufb04' => some ['F', 'F', 'L']
    | '\ufb05' => some ['S', 'T']
    | '\ufb06' => some ['S', 'T']
    | _ => none

def variableName? (key : String) : Option String :=
  match key.toList.mapM upperName? with
  | some pieces => if pieces.isEmpty then none else some (.ofList pieces.flatten)
  | none => none

/-- The value and mark of a member: a string alone, or an object with a `value` that is a string or
null, as a missing one is, and a `preserve` that is missing or a truth value. -/
def content? : Json → Option (Value × Bool)
  | .string text => some (some text, false)
  | .object members => do
    let value ← match members.lookup "value" with
      | none | some .null => some none
      | some (.string text) => some (some text)
      | some _ => none
    let preserve ← match members.lookup "preserve" with
      | none => some false
      | some (.bool b) => some b
      | some _ => none
    return (value, preserve)
  | _ => none

/-- Reads one member of the object in `file`; its key is looked at before its value. -/
def ofMember (file : String) (key : String) (value : Json) : Except Error Entry :=
  match variableName? key with
  | none => .error (.malformedFile file ("invalid variable name \"" ++ key ++ "\""))
  | some name =>
    match content? value with
    | none =>
      .error (.malformedFile file
        ("\"" ++ key ++ "\": data did not match any variant of untagged enum RawEntry"))
    | some (value, preserve) => .ok { name, value, preserve }

/-- What is said of a text that is no JSON object, where no parser's own words are given. -/
def notAnObject (_content : String) : String := "json"

/-- Reads the entries of a JSON object, in the order of its members. The words for a text that is
none are the parser's. -/
def ofJson (content file : String) (complaint : String → String := notAnObject) :
    Except Error (List Entry) :=
  match Json.parse? content with
  | some (.object members) => members.mapM fun (key, value) => ofMember file key value
  | _ => .error (.malformedFile file (complaint content))

end Entry
end LayeredEnv
