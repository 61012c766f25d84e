import LayeredEnv.Text.Class
import LayeredEnv.Unicode.Category
import LayeredEnv.Unicode.Property

namespace LayeredEnv.PathExpansion

def alphabetic : Unicode.RangeTable := (Unicode.property? "alphabetic").getD .empty

def numbers : Unicode.RangeTable := (Unicode.category? "number").getD .empty

def isNameChar (c : Char) : Bool :=
  if c.toNat < 128 then Text.isAlphanumeric c || c == '_'
  else alphabetic.contains c || numbers.contains c

/-- The name and the default of a reference with braces. A mark of a default that follows no name
is part of the name. -/
def splitDefault (body : List Char) : List Char × Option (List Char) :=
  match splitAtMark body with
  | some ([], _) | none => (body, none)
  | some (name, default) => (name, some default)
where
  splitAtMark : List Char → Option (List Char × List Char)
    | [] => none
    | ':' :: '-' :: cs => some ([], cs)
    | c :: cs => (splitAtMark cs).map fun (before, after) => (c :: before, after)

inductive Piece where
  | literal (text : List Char)
  | reference (name : List Char) (default : Option (List Char))
  deriving DecidableEq, Repr

/-- Cuts the first piece off a text. A dollar sign that begins no reference is text, and so is one
in front of another, which disappears. -/
def piece? : List Char → Option (Piece × List Char)
  | [] => none
  | '$' :: '\x7b' :: cs =>
    match Text.splitAtFirst '\x7d' cs with
    | some (body, rest) => some (.reference (splitDefault body).1 (splitDefault body).2, rest)
    | none => some (.literal ['$', '\x7b'], cs)
  | '$' :: '$' :: cs => some (.literal ['$'], cs)
  | '$' :: cs =>
    match cs.takeWhile isNameChar with
    | [] => some (.literal ['$'], cs)
    | name => some (.reference name none, cs.dropWhile isNameChar)
  | c :: cs => some (.literal [c], cs)

theorem length_of_piece? {cs rest : List Char} {piece : Piece}
    (h : piece? cs = some (piece, rest)) : rest.length < cs.length := by
  unfold piece? at h
  split at h
  · simp at h
  · next cs =>
    split at h
    · next body after hs =>
      obtain ⟨-, rfl⟩ := Prod.mk.inj (Option.some.inj h)
      have := congrArg List.length (Text.eq_of_splitAtFirst hs)
      simp only [List.length_append, List.length_cons] at this ⊢
      omega
    · obtain ⟨-, rfl⟩ := Prod.mk.inj (Option.some.inj h)
      simp only [List.length_cons]
      omega
  · obtain ⟨-, rfl⟩ := Prod.mk.inj (Option.some.inj h)
    simp only [List.length_cons]
    omega
  · next cs _ _ =>
    split at h
    · obtain ⟨-, rfl⟩ := Prod.mk.inj (Option.some.inj h)
      simp
    · obtain ⟨-, rfl⟩ := Prod.mk.inj (Option.some.inj h)
      have := Text.length_dropWhile_le isNameChar cs
      simp only [List.length_cons]
      omega
  · obtain ⟨-, rfl⟩ := Prod.mk.inj (Option.some.inj h)
    simp

def pieces (cs : List Char) : List Piece :=
  match h : piece? cs with
  | none => []
  | some (piece, rest) =>
    have := length_of_piece? h
    piece :: pieces rest
termination_by cs.length

/-- What a piece stands for. A default counts for unset variables only, not for empty ones. -/
def Piece.value? (lookup : String → Option String) : Piece → Option (List Char)
  | literal text => some text
  | reference name default => ((lookup (.ofList name)).map String.toList).or default

def references (lookup : String → Option String) (cs : List Char) : Option (List Char) :=
  ((pieces cs).mapM (Piece.value? lookup)).map List.flatten

def names (path : String) : List String :=
  (pieces path.toList).filterMap fun
    | .reference name _ => some (.ofList name)
    | .literal _ => none

def tilde (home : Option String) (cs : List Char) : List Char :=
  match home, cs with
  | some home, ['~'] => home.toList
  | some home, '~' :: '/' :: rest => home.toList ++ '/' :: rest
  | _, cs => cs

end PathExpansion

/-- The path that a configured text stands for. If a variable cannot be replaced none is; a tilde
that a variable brings to the front is text. -/
def expandPath (lookup : String → Option String) (path : String) : String :=
  let cs := path.toList
  let home := lookup "HOME"
  .ofList <| match PathExpansion.references lookup cs with
    | none => PathExpansion.tilde home cs
    | some expanded => if cs.head? == some '~' then PathExpansion.tilde home expanded else expanded

end LayeredEnv
