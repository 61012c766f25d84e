import LayeredEnv.Pattern.Regex.Expr

namespace LayeredEnv.Regex

/-- An instruction and where to go on after it. Slot `2 * i` records the start of group `i`, the
slot after it the end. -/
inductive Instruction where
  | set (chars : CharClass) (next : Nat)
  | look (condition : Look) (next : Nat)
  | save (slot next : Nat)
  /-- Goes on at both places, with preference for the first. -/
  | split (first second : Nat)
  | accept

abbrev Code := Array Instruction

namespace Code

def add (code : Code) (instruction : Instruction) : Nat × Code :=
  (code.size, code.push instruction)

def chars : List Char → (next : Nat) → Code → Nat × Code
  | [], next, code => (next, code)
  | c :: cs, next, code =>
    let (rest, code) := chars cs next code
    code.add (.set (.single c) rest)

def fork (greedy : Bool) (inside outside : Nat) : Instruction :=
  if greedy then .split inside outside else .split outside inside

def times (body : Nat → Code → Nat × Code) : (count : Nat) → (next : Nat) → Code → Nat × Code
  | 0, next, code => (next, code)
  | count + 1, next, code =>
    let (entry, code) := body next code
    times body count entry code

def upTo (greedy : Bool) (body : Nat → Code → Nat × Code) (last : Nat) :
    (count : Nat) → (next : Nat) → Code → Nat × Code
  | 0, next, code => (next, code)
  | count + 1, next, code =>
    let (entry, code) := body next code
    let (place, code) := code.add (fork greedy entry last)
    upTo greedy body last count place code

/-- One or more turns of a body: the places of its entry and of the choice after each turn. -/
def loop (greedy : Bool) (body : Nat → Code → Nat × Code) (next : Nat) (code : Code) :
    Nat × Nat × Code :=
  let (choice, code) := code.add .accept
  let (entry, code) := body choice code
  (entry, choice, code.setIfInBounds choice (fork greedy entry next))

end Code

/-- Adds the instructions of an expression that goes on at `next`, and returns their entry. A
repetition of what can match the empty text is an optional loop, so that the order of preference
stays that of the written form. -/
def Expr.compile : Expr → (next : Nat) → Code → Nat × Code
  | .empty, next, code => (next, code)
  | .literal first more, next, code => Code.chars (first :: more) next code
  | .set chars, next, code => code.add (.set chars next)
  | .look condition, next, code => code.add (.look condition next)
  | .group index _ body, next, code =>
    let (close, code) := code.add (.save (2 * index + 1) next)
    let (entry, code) := body.compile close code
    code.add (.save (2 * index) entry)
  | .seq a b, next, code =>
    let (second, code) := b.compile next code
    a.compile second code
  | .alt a b, next, code =>
    let (second, code) := b.compile next code
    let (first, code) := a.compile next code
    code.add (.split first second)
  | .repetition least most greedy body, next, code =>
    match most with
    | some most =>
      let (entry, code) := Code.upTo greedy body.compile next (most - least) next code
      Code.times body.compile least entry code
    | none =>
      let (entry, choice, code) := Code.loop greedy body.compile next code
      if least == 0 then
        if body.takesChars then (choice, code) else code.add (Code.fork greedy entry next)
      else Code.times body.compile (least - 1) entry code

structure Program where
  code : Code
  start : Nat
  /-- How many groups there are, counting up to the last one that the program can record. -/
  groups : Nat
  names : List (String × Nat)

def Expr.program (expr : Expr) : Program :=
  let (accept, code) := Code.add #[] .accept
  let (start, code) := (Expr.group 0 none expr).compile accept code
  let groups := expr.groups
  { code, start
    groups := groups.foldl (fun most group => max most group.1) 0
    names := groups.filterMap fun (index, name) => name.map (·, index) }

end LayeredEnv.Regex
