namespace LayeredEnv

/-- How a table came about, which decides what may add to it. -/
inductive TableOrigin where
  /-- A value in braces; it is closed. -/
  | inline
  /-- A header of its own. -/
  | header
  /-- Headers of tables below it. -/
  | implicit
  /-- Keys with dots. -/
  | dotted
  deriving DecidableEq, Repr

inductive Toml where
  | string (text : String)
  | integer (value : Int)
  | float (text : String)
  | boolean (b : Bool)
  | datetime (text : String)
  /-- An array; one that headers made can grow by more headers. -/
  | array (ofHeaders : Bool) (elements : List Toml)
  | table (origin : TableOrigin) (entries : List (String × Toml))

namespace Toml

abbrev Entries := List (String × Toml)

def string? : Toml → Option String
  | string text => some text
  | _ => none

def boolean? : Toml → Option Bool
  | boolean b => some b
  | _ => none

def natural? : Toml → Option Nat
  | integer (.ofNat n) => some n
  | _ => none

def strings? : Toml → Option (List String)
  | array _ elements => elements.mapM string?
  | _ => none

/-- The fields of a record. Besides a table an array can hold them, in the order of `names` and at
least the first `required` of them; a date stands for a record without fields. -/
def record? (names : List String) (required : Nat) : Toml → Option Entries
  | table _ entries => some entries
  | array _ elements => if elements.length < required then none else some (names.zip elements)
  | datetime _ => some []
  | _ => none

/-- The field of a name, where `decode` reads it; the outer option tells whether it could. -/
def field? {α : Type} (entries : Entries) (name : String) (decode : Toml → Option α) :
    Option (Option α) :=
  match entries.lookup name with
  | none => some none
  | some value => (decode value).map some

end Toml
end LayeredEnv
