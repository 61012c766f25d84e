import LayeredEnv.Error
import LayeredEnv.Pattern.Regex.Search

namespace LayeredEnv.Replacement

/-- One match: the text around it and what its groups captured. A group that took no part in the
match captured nothing. -/
structure Captures where
  before : List Char
  whole : List Char
  after : List Char
  groups : List (Option (List Char))
  names : List (String × Nat)

namespace Captures

def group (captures : Captures) (index : Nat) : List Char :=
  ((captures.groups[index - 1]?).getD none).getD []

def named (captures : Captures) (name : String) : List Char :=
  ((captures.names.lookup name).map captures.group).getD []

def hasGroup (captures : Captures) (index : Nat) : Bool :=
  1 ≤ index && index ≤ captures.groups.length

end Captures

def digitValue (c : Char) : Nat := c.toNat - 48

/-- A group reference of two digits if there is such a group, else of one digit. -/
def groupReference (captures : Captures) : List Char → Option (List Char × List Char)
  | c :: d :: rest =>
    let single :=
      if captures.hasGroup (digitValue c) then some (captures.group (digitValue c), d :: rest)
      else none
    let index := 10 * digitValue c + digitValue d
    if Text.isDigit d && captures.hasGroup index then some (captures.group index, rest)
    else single
  | [c] =>
    if captures.hasGroup (digitValue c) then some (captures.group (digitValue c), []) else none
  | [] => none

def reference (captures : Captures) : List Char → Option (List Char × List Char)
  | [] => none
  | c :: rest =>
    match c with
    | '$' => some (['$'], rest)
    | '&' => some (captures.whole, rest)
    | '\x60' => some (captures.before, rest)
    | '\x27' => some (captures.after, rest)
    | '<' =>
      if captures.names.isEmpty then none
      else (Text.splitAtFirst '>' rest).map fun (name, rest) =>
        (captures.named (.ofList name), rest)
    | c => if Text.isDigit c then groupReference captures (c :: rest) else none

theorem length_of_groupReference {captures : Captures} {cs text rest : List Char}
    (h : groupReference captures cs = some (text, rest)) : rest.length < cs.length := by
  unfold groupReference at h
  split at h
  · dsimp only at h
    split at h
    · simp only [Option.some.injEq, Prod.mk.injEq] at h
      simp only [← h.2, List.length_cons]
      omega
    · split at h
      · simp only [Option.some.injEq, Prod.mk.injEq] at h
        simp [← h.2]
      · cases h
  · split at h
    · simp only [Option.some.injEq, Prod.mk.injEq] at h
      simp [← h.2]
    · cases h
  · cases h

theorem length_of_reference {captures : Captures} {cs text rest : List Char}
    (h : reference captures cs = some (text, rest)) : rest.length < cs.length := by
  unfold reference at h
  split at h
  · cases h
  · split at h
    all_goals try
      simp only [Option.some.injEq, Prod.mk.injEq] at h
      simp [← h.2]
    · split at h
      · cases h
      · obtain ⟨⟨_, _⟩, hs, hr⟩ := Option.map_eq_some_iff.mp h
        simp only [Prod.mk.injEq] at hr
        simp [Text.eq_of_splitAtFirst hs, ← hr.2]
        omega
    · split at h
      · exact length_of_groupReference h
      · cases h

/-- The template with its references replaced; what refers to no group stays as it is, and
inserted text is not read again. -/
def expand (captures : Captures) : List Char → List Char
  | [] => []
  | c :: rest =>
    if c == '$' then
      match h : reference captures rest with
      | some (text, remaining) =>
        have := length_of_reference h
        text ++ expand captures remaining
      | none => '$' :: expand captures rest
    else c :: expand captures rest
termination_by template => template.length

def capturesOf (program : Regex.Program) (text : List Char) (slots : Regex.Slots) : Captures :=
  let slice : Nat × Nat → List Char := fun (first, last) => (text.drop first).take (last - first)
  let (first, last) := (slots.bounds? 0).getD (0, 0)
  { before := text.take first
    whole := slice (first, last)
    after := text.drop last
    groups := (List.range program.groups).map fun i => (slots.bounds? (i + 1)).map slice
    names := program.names }

def replaceMatches (program : Regex.Program) (text template : List Char) :
    (index : Nat) → (rest : List Char) → List Regex.Slots → List Char
  | _, rest, [] => rest
  | index, rest, slots :: more =>
    let (first, last) := (slots.bounds? 0).getD (index, index)
    rest.take (first - index) ++ expand (capturesOf program text slots) template ++
      replaceMatches program text template last (rest.drop (last - index)) more

def replace (value pattern template : String) (all : Bool) : Except Error String :=
  match Regex.Expr.parse? pattern.toList with
  | none => .error (.invalidPattern pattern)
  | some expr =>
    let program := expr.program
    let matched := program.allMatches value.toList
    .ok (.ofList (replaceMatches program value.toList template.toList 0 value.toList
      (if all then matched else matched.take 1)))

end LayeredEnv.Replacement
