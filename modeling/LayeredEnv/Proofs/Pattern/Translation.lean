import LayeredEnv.Proofs.Pattern.Brackets
import LayeredEnv.Proofs.Pattern.Expressions

namespace LayeredEnv

namespace Glob

def metaCharacters : List Char :=
  ['\\', '.', '+', '*', '?', '(', ')', '|', '[', ']', '{', '}', '^', '$', '#', '&', '-', '~']

def isMeta (c : Char) : Bool := metaCharacters.contains c

def escape (c : Char) : List Char := if isMeta c then ['\\', c] else [c]

def translate : List Char → List Char
  | [] => []
  | '*' :: cs => '.' :: '*' :: translate cs
  | '?' :: cs => '.' :: translate cs
  | '\\' :: c :: cs => escape c ++ translate cs
  | '[' :: cs =>
    match h : splitBracket cs with
    | some (negated, items, rest) =>
      have := length_of_splitBracket h
      '[' :: Regex.writtenBracket negated items (translate rest)
    | none => '\\' :: '[' :: translate cs
  | c :: cs => escape c ++ translate cs
termination_by cs => cs.length

/-- The regular expression of a glob. It matches whole texts, and wildcards match line breaks. -/
def expression (pattern : List Char) : List Char :=
  '\\' :: 'A' :: '(' :: '?' :: 's' :: ':' :: (translate pattern ++ [')', '\\', 'z'])

def Element.written : Element → List Char → List Char
  | anySequence, rest => '.' :: '*' :: rest
  | anyChar, rest => '.' :: rest
  | literal c, rest => escape c ++ rest
  | oneOf negated items, rest => '[' :: Regex.writtenBracket negated items rest

variable {cs rest : List Char} {elements : List Element} {c : Char}

end Glob

namespace Regex

open Glob (Element Piece isMeta metaCharacters isEscaped)

variable {state next : Progress} {c : Char} {cs rest : List Char} {result : Option Progress}

def dotAll : Flags := { dotAll := true }

def ReadsAll (state : Progress) (cs : List Char) (result : Option Progress) : Prop :=
  ∀ fuel, cs.length < fuel → Progress.read? fuel state cs = result

theorem ReadsAll.step (hflags : state.flags.Plain) (hstep : state.step? c cs = some (next, rest))
    (hlength : rest.length ≤ cs.length) (h : ReadsAll next rest result) :
    ReadsAll state (c :: cs) result := by
  intro fuel hfuel
  obtain ⟨fuel, rfl⟩ := Nat.exists_eq_add_of_lt hfuel
  rw [Progress.read?, hflags.skip]
  simp only [hstep, Option.bind_some]
  exact h _ (by rw [List.length_cons]; omega)

theorem ReadsAll.refused (hflags : state.flags.Plain) (hstep : state.step? c cs = none) :
    ReadsAll state (c :: cs) none := by
  intro fuel hfuel
  obtain ⟨fuel, rfl⟩ := Nat.exists_eq_add_of_lt hfuel
  rw [Progress.read?, hflags.skip]
  simp only [hstep, Option.bind_none]

theorem ReadsAll.done (hflags : state.flags.Plain) : ReadsAll state [] (some state) := by
  intro fuel hfuel
  obtain ⟨fuel, rfl⟩ := Nat.exists_eq_add_of_lt hfuel
  rw [Progress.read?, hflags.skip]

theorem isEscaped_of_isMeta (hc : isMeta c = true) : isEscaped c = true := by
  have hall : metaCharacters.all isEscaped = true := by decide
  exact List.all_eq_true.mp hall c (List.contains_iff_mem.mp hc)

theorem pushAtom_literal (hflags : state.flags.Plain) (c : Char) :
    state.pushAtom (.literal c) = state.pushExpr (.literal c []) 0 := by
  have hsingle : (Unicode.RangeTable.single c).single? = some c := by
    simp [Unicode.RangeTable.single, Unicode.RangeTable.range, Unicode.RangeTable.single?]
  rw [Progress.pushAtom, hflags.fold, Expr.ofSet, hsingle]

theorem step?_escaped (hflags : state.flags.Plain) (hc : isMeta c = true) (rest : List Char) :
    state.step? '\\' (c :: rest) = some (state.pushExpr (.literal c []) 0, rest) := by
  rw [Progress.step?, escape_of_isEscaped (isEscaped_of_isMeta hc), ← pushAtom_literal hflags]
  rfl

theorem step?_literal (hflags : state.flags.Plain) (hc : isMeta c = false) (rest : List Char) :
    state.step? c rest = some (state.pushExpr (.literal c []) 0, rest) := by
  rw [← pushAtom_literal hflags]
  unfold Progress.step?
  simp only
  split
  case h_13 => rfl
  all_goals exact absurd hc (by decide)

theorem ReadsAll.literal (hflags : state.flags.Plain) (c : Char)
    (h : ReadsAll (state.pushExpr (.literal c []) 0) rest result) :
    ReadsAll state (Glob.escape c ++ rest) result := by
  rw [Glob.escape]
  split_ifs with hc
  · exact .step hflags (step?_escaped hflags hc rest) (Nat.le_succ _) h
  · exact .step hflags (step?_literal hflags (Bool.eq_false_iff.mpr hc) rest) (Nat.le_refl _) h

theorem ReadsAll.bracket {negated : Bool} {items : List Char} {chars : Nested CharClass}
    (hflags : state.flags.Plain)
    (hclass : bracketClass state.flags (writtenBracket negated items rest) = some (chars, rest))
    (h : ReadsAll (state.pushExpr (.ofSet chars.value) chars.depth) rest result) :
    ReadsAll state ('[' :: writtenBracket negated items rest) result := by
  have hstep : state.step? '[' (writtenBracket negated items rest) =
      some (state.pushExpr (.ofSet chars.value) chars.depth, rest) := by
    rw [Progress.step?]
    simp only [hclass, Option.map_some]
  refine .step hflags hstep ?_ h
  simp only [writtenBracket, writtenItems, List.length_append, List.length_cons]
  omega

/-- The expression matches what the piece does in texts without the two characters around the
surrogates. -/
def Stands (expr : Expr) (piece : Piece) : Prop :=
  ∀ before matched after, (∀ c ∈ matched, ¬Unicode.BesideSurrogates c) →
    (expr.Matches before matched after ↔ Glob.Matches [piece] matched)

variable {element : Element} {elements : List Element} {piece : Piece} {glob : List Piece}

def Progress.pushAll (state : Progress) (exprs : List (Nested Expr)) : Progress :=
  exprs.foldl (fun state expr => state.pushExpr expr.value expr.depth) state

def anchored : Progress :=
  (({} : Progress).pushExpr (.look .textStart) 0).enter .plain dotAll

def closed (body : Nested Expr) : Progress :=
  { items := [.expr ⟨body.value, body.depth + 1⟩, .expr ⟨.look .textStart, 0⟩] }

end Regex

namespace Glob

end Glob
end LayeredEnv
