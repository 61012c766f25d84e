import LayeredEnv.Toml.Basic

namespace LayeredEnv.Toml.Entries

def replace (key : String) (value : Toml) (entries : Entries) : Entries :=
  entries.map fun (k, v) => if k == key then (k, value) else (k, v)

/-- Changes the table that a path of keys leads to from a table of some origin. Missing tables on
the way are made. With `dotted` the path is that of a key with dots, which leads through no table
that has a header; in an array that headers made the path goes on in the last table. -/
def update (dotted : Bool) (change : TableOrigin → Entries → Option Entries) :
    List String → TableOrigin → Entries → Option Entries
  | [], origin, entries => change origin entries
  | key :: path, _, entries =>
    match entries.lookup key with
    | none =>
      let origin : TableOrigin := if dotted then .dotted else .implicit
      (update dotted change path origin []).map fun inner =>
        entries ++ [(key, .table origin inner)]
    | some (.table .inline _) => none
    | some (.table origin inner) =>
      if dotted && origin == .header then none
      else (update dotted change path origin inner).map fun inner =>
        replace key (.table origin inner) entries
    | some (.array true elements) =>
      match elements.getLast? with
      | some (.table origin inner) =>
        (update dotted change path origin inner).map fun inner =>
          replace key (.array true (elements.dropLast ++ [.table origin inner])) entries
      | _ => none
    | some _ => none

/-- Adds a value under a key with dots. The key is new, and the tables that its dots lead through
come from keys with dots only. -/
def put (path : List String) (value : Toml) (origin : TableOrigin) (entries : Entries) :
    Option Entries :=
  match path.getLast? with
  | none => none
  | some key =>
    let change (origin : TableOrigin) (entries : Entries) : Option Entries :=
      if (origin == .dotted) == (path.length == 1) || (entries.lookup key).isSome then none
      else some (entries ++ [(key, value)])
    update true change path.dropLast origin entries

/-- Opens the table of a header. It is new, or there only because of tables below it. -/
def openTable (path : List String) (entries : Entries) : Option Entries :=
  match path.getLast? with
  | none => none
  | some key =>
    let change (_ : TableOrigin) (entries : Entries) : Option Entries :=
      match entries.lookup key with
      | none => some (entries ++ [(key, .table .header [])])
      | some (.table .implicit inner) => some (replace key (.table .header inner) entries)
      | some _ => none
    update false change path.dropLast .header entries

/-- Opens one more table of an array, which is new or comes from such headers. -/
def openElement (path : List String) (entries : Entries) : Option Entries :=
  match path.getLast? with
  | none => none
  | some key =>
    let change (_ : TableOrigin) (entries : Entries) : Option Entries :=
      match entries.lookup key with
      | none => some (entries ++ [(key, .array true [.table .header []])])
      | some (.array true elements) =>
        some (replace key (.array true (elements ++ [.table .header []])) entries)
      | some _ => none
    update false change path.dropLast .header entries

def putUnder (header path : List String) (value : Toml) (entries : Entries) : Option Entries :=
  update false (put path value) header .header entries

end LayeredEnv.Toml.Entries
