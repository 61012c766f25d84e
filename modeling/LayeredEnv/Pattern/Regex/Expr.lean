import LayeredEnv.Pattern.Regex.CharClass

namespace LayeredEnv.Regex

/-- A condition on the characters on both sides of a position. Those on words know either all
word characters or, with `ascii`, those of ASCII. -/
inductive Look where
  | textStart
  | textEnd
  | lineStart (crlf : Bool)
  | lineEnd (crlf : Bool)
  | boundary (ascii : Bool)
  | noBoundary (ascii : Bool)
  | wordStart (ascii : Bool)
  | wordEnd (ascii : Bool)
  | wordStartHalf (ascii : Bool)
  | wordEndHalf (ascii : Bool)
  deriving DecidableEq, Repr

namespace Look

def isWord (ascii : Bool) : Option Char → Bool
  | none => false
  | some c => if ascii then CharClass.asciiWord.contains c else CharClass.word.contains c

/-- Whether the condition holds between `before` and `after`; `none` is the edge of the text. A
line that ends in carriage return and line feed is not left between the two. -/
def holds (look : Look) (before after : Option Char) : Bool :=
  match look with
  | textStart => before.isNone
  | textEnd => after.isNone
  | lineStart false => before.isNone || before == some '\n'
  | lineEnd false => after.isNone || after == some '\n'
  | lineStart true =>
    before.isNone || before == some '\n' || (before == some '\r' && after != some '\n')
  | lineEnd true =>
    after.isNone || after == some '\r' || (after == some '\n' && before != some '\r')
  | boundary ascii => isWord ascii before != isWord ascii after
  | noBoundary ascii => isWord ascii before == isWord ascii after
  | wordStart ascii => !isWord ascii before && isWord ascii after
  | wordEnd ascii => isWord ascii before && !isWord ascii after
  | wordStartHalf ascii => !isWord ascii before
  | wordEndHalf ascii => !isWord ascii after

end Look

/-- A regular expression. Of two alternatives the first that leads to a match is preferred, and
a greedy repetition prefers to go on. Sequences and alternatives of more than two parts are nested
to the right; the functions that build them keep a normal form, in which they have two parts at
least and none that is of the same kind, a sequence has no empty part and no two literals in a row,
and a set has not exactly one member. -/
inductive Expr where
  | empty
  | literal (first : Char) (more : List Char)
  | set (chars : CharClass)
  | look (condition : Look)
  | group (index : Nat) (name : Option String) (body : Expr)
  | seq (first rest : Expr)
  | alt (first rest : Expr)
  | repetition (least : Nat) (most : Option Nat) (greedy : Bool) (body : Expr)
  deriving DecidableEq, Repr

namespace Expr

def ofSet (chars : CharClass) : Expr :=
  match chars.single? with
  | some c => literal c []
  | none => set chars

def size : Expr → Nat
  | empty | literal .. | set _ | look _ => 1
  | group _ _ body | repetition _ _ _ body => body.size + 1
  | seq a b | alt a b => a.size + b.size + 1

def parts : Expr → List Expr
  | seq first rest => first :: rest.parts
  | empty => []
  | expr => [expr]

def ofParts : List Expr → Expr
  | [] => empty
  | [part] => part
  | part :: parts => seq part (ofParts parts)

def consPart : Expr → List Expr → List Expr
  | literal c cs, literal d ds :: parts => literal c (cs ++ d :: ds) :: parts
  | part, parts => part :: parts

def concat (exprs : List Expr) : Expr := ofParts ((exprs.flatMap parts).foldr consPart [])

def branches : Expr → List Expr
  | alt first rest => first :: rest.branches
  | expr => [expr]

def ofBranches : List Expr → Expr
  | [] => set .empty
  | [branch] => branch
  | branch :: branches => alt branch (ofBranches branches)

def char? : Expr → Option Char
  | literal c [] => some c
  | _ => none

def set? : Expr → Option CharClass
  | set chars => some chars
  | _ => none

def commonParts : List Expr → List Expr → List Expr
  | a :: as, b :: bs => if a = b then a :: commonParts as bs else []
  | _, _ => []

def sharedParts : List Expr → List Expr
  | [] => []
  | first :: rest =>
    if (first :: rest).all fun branch => 2 ≤ branch.parts.length then
      rest.foldl (fun shared branch => commonParts shared branch.parts) first.parts
    else []

/-- Alternatives as one set if all are characters or all are sets, and otherwise without the parts
that all start with. Each turn takes parts away, so that their number is fuel enough. -/
def alternation : (fuel : Nat) → List Expr → Expr
  | 0, exprs => ofBranches exprs
  | fuel + 1, exprs =>
    let exprs := exprs.flatMap branches
    match exprs with
    | [] | [_] => ofBranches exprs
    | _ =>
      match exprs.mapM char?, exprs.mapM set? with
      | some chars, _ => ofSet (Unicode.RangeTable.unions (chars.map Unicode.RangeTable.single))
      | none, some sets => ofSet (Unicode.RangeTable.unions sets)
      | none, none =>
        match sharedParts exprs with
        | [] => ofBranches exprs
        | shared =>
          let rests := exprs.map fun branch => concat (branch.parts.drop shared.length)
          concat (shared ++ [alternation fuel rests])

def alternatives (exprs : List Expr) : Expr :=
  alternation (exprs.foldl (fun total expr => total + expr.size) 0) exprs

def minLength : Expr → Option Nat
  | empty | look _ => some 0
  | literal _ more => some (more.length + 1)
  | set chars => if chars.runs.isEmpty then none else some 1
  | group _ _ body => body.minLength
  | seq a b => do return (← a.minLength) + (← b.minLength)
  | alt a b => do return min (← a.minLength) (← b.minLength)
  | repetition least _ _ body => body.minLength.map (least * ·)

def takesChars (expr : Expr) : Bool := expr.minLength.any (0 < ·)

def isZeroWidth : Expr → Bool
  | empty | look _ => true
  | literal .. | set _ => false
  | group _ _ body => body.isZeroWidth
  | seq a b | alt a b => a.isZeroWidth && b.isZeroWidth
  | repetition _ most _ body => most == some 0 || body.isZeroWidth

/-- A repetition in normal form: at most one turn of what matches only the empty text, and
nothing at all, groups included, for no turns. -/
def repeated (least : Nat) (most : Option Nat) (greedy : Bool) (body : Expr) : Expr :=
  let (least, most) :=
    if body.isZeroWidth then (min least 1, some (most.elim 1 (min · 1))) else (least, most)
  if most == some 0 then empty
  else if least == 1 && most == some 1 then body
  else repetition least most greedy body

def groups : Expr → List (Nat × Option String)
  | empty | literal .. | look _ | set _ => []
  | group index name body => (index, name) :: body.groups
  | seq a b | alt a b => a.groups ++ b.groups
  | repetition _ _ _ body => body.groups

end Expr
end LayeredEnv.Regex
