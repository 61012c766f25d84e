import LayeredEnv.Operator.Table
import LayeredEnv.Token.Lexeme

namespace LayeredEnv

/-- An open block: a token whose children are still being read, the last one first. -/
structure Frame where
  kind : Kind
  value : String
  isLength : Bool := false
  children : List Token := []

def Frame.token (frame : Frame) : Token :=
  .node frame.kind frame.value frame.isLength frame.children.reverse

/-- The open blocks, innermost first, and the finished top-level tokens, last first. -/
structure Blocks where
  frames : List Frame := []
  top : List Token := []

namespace Blocks

def innermost (blocks : Blocks) : Kind :=
  match blocks.frames with
  | [] => .main
  | frame :: _ => frame.kind

def depth (blocks : Blocks) : Nat := blocks.frames.length

def current (blocks : Blocks) : List Token :=
  match blocks.frames with
  | [] => blocks.top
  | frame :: _ => frame.children

def setCurrent (blocks : Blocks) (tokens : List Token) : Blocks :=
  match blocks.frames with
  | [] => { blocks with top := tokens }
  | frame :: frames => { blocks with frames := { frame with children := tokens } :: frames }

def push (blocks : Blocks) (token : Token) : Blocks := blocks.setCurrent (token :: blocks.current)

/-- Adds literal text, which a literal text directly before it absorbs. -/
def pushText (blocks : Blocks) (text : String) : Blocks :=
  match blocks.current with
  | .node .text before isLength children :: tokens =>
    blocks.setCurrent (.node .text (before ++ text) isLength children :: tokens)
  | _ => blocks.push (.leaf .text text)

def enter (blocks : Blocks) (frame : Frame) : Blocks :=
  { blocks with frames := frame :: blocks.frames }

def close (blocks : Blocks) : Blocks :=
  match blocks.frames with
  | [] => blocks
  | frame :: frames => push { blocks with frames } frame.token

@[simp] theorem depth_setCurrent (blocks : Blocks) (tokens : List Token) :
    (blocks.setCurrent tokens).depth = blocks.depth := by
  unfold setCurrent depth
  split <;> simp_all

@[simp] theorem depth_push (blocks : Blocks) (token : Token) :
    (blocks.push token).depth = blocks.depth := depth_setCurrent ..

@[simp] theorem depth_pushText (blocks : Blocks) (text : String) :
    (blocks.pushText text).depth = blocks.depth := by
  unfold pushText
  split <;> simp

theorem depth_enter (blocks : Blocks) (frame : Frame) :
    (blocks.enter frame).depth = blocks.depth + 1 := rfl

theorem depth_close (blocks : Blocks) : blocks.close.depth = blocks.depth - 1 := by
  unfold close
  split
  · simp_all [depth]
  · next h => rw [depth_push]; simp [depth, h]

/-- Closes blocks until one of the kind has been closed; all of them if there is none. -/
def closeNearest (kind : Kind) (blocks : Blocks) : Blocks :=
  if _h : blocks.depth = 0 then blocks
  else if blocks.innermost == kind then blocks.close
  else closeNearest kind blocks.close
termination_by blocks.depth
decreasing_by
  rw [depth_close]
  omega

def closeTo (kind : Kind) (blocks : Blocks) : Blocks :=
  if _h : blocks.depth = 0 then blocks
  else if blocks.innermost == kind then blocks
  else closeTo kind blocks.close
termination_by blocks.depth
decreasing_by
  rw [depth_close]
  omega

theorem depth_closeNearest_le (kind : Kind) (blocks : Blocks) :
    (blocks.closeNearest kind).depth ≤ blocks.depth := by
  fun_induction closeNearest kind blocks with
  | case1 => exact Nat.le_refl _
  | case2 => rw [depth_close]; exact Nat.sub_le ..
  | case3 blocks _ _ ih =>
    rw [depth_close] at ih
    exact Nat.le_trans ih (Nat.sub_le ..)

theorem depth_closeTo_le (kind : Kind) (blocks : Blocks) :
    (blocks.closeTo kind).depth ≤ blocks.depth := by
  fun_induction closeTo kind blocks with
  | case1 => exact Nat.le_refl _
  | case2 => exact Nat.le_refl _
  | case3 blocks _ _ ih =>
    rw [depth_close] at ih
    exact Nat.le_trans ih (Nat.sub_le ..)

def finish (blocks : Blocks) : List Token := (blocks.closeNearest .main).top.reverse

def symbols (blocks : Blocks) : List String :=
  ((blocks.current.filter fun token => token.kind == .expression).map Token.value).reverse

/-- Reads operator characters inside a reference: the symbol that the table picks begins an
expression; without one the first character is literal. The second result is how many more
characters are taken. -/
def operate (table : OperatorTable) (blocks : Blocks) (first : Char) (second : Option Char) :
    Blocks × Nat :=
  let reference := blocks.closeTo .interpolation
  match table.pick reference.symbols first second with
  | some symbol =>
    (reference.enter { kind := .expression, value := .ofList symbol }, symbol.length - 1)
  | none => (blocks.pushText (.ofList [first]), 0)

/-- What a lexeme does to the open blocks, and how many more characters it takes. -/
def apply (table : OperatorTable) (blocks : Blocks) : Lexeme → Blocks × Nat
  | .nothing => (blocks, 0)
  | .text chars => (blocks.pushText (.ofList chars), 0)
  | .leaf kind value => (blocks.push (.leaf kind (.ofList value)), 0)
  | .openAssignment name => (blocks.enter { kind := .assignment, value := .ofList name }, 0)
  | .openInterpolation isLength name =>
    (blocks.enter { kind := .interpolation, value := .ofList name, isLength }, 0)
  | .closeInterpolation => (blocks.closeNearest .interpolation, 0)
  | .operators first second => blocks.operate table first second
  | .openQuote => (blocks.enter { kind := .quoted, value := "" }, 0)
  | .closeQuote => (blocks.closeNearest .quoted, 0)

def step (table : OperatorTable) (blocks : Blocks) (cs : List Char) :
    Option (Blocks × List Char) :=
  (Lexeme.scan blocks.innermost cs).map fun (lexeme, rest) =>
    let (blocks, more) := blocks.apply table lexeme
    (blocks, rest.drop more)

theorem depth_operate_le (table : OperatorTable) (blocks : Blocks) (first : Char)
    (second : Option Char) : (blocks.operate table first second).1.depth ≤ blocks.depth + 1 := by
  have h := depth_closeTo_le .interpolation blocks
  simp only [operate]
  split
  · simpa [depth_enter] using h
  · simp

theorem depth_apply_le (table : OperatorTable) (blocks : Blocks) (lexeme : Lexeme) :
    (blocks.apply table lexeme).1.depth ≤ blocks.depth + 1 := by
  cases lexeme with
  | operators first second => exact depth_operate_le table blocks first second
  | closeInterpolation => exact Nat.le_succ_of_le (depth_closeNearest_le ..)
  | closeQuote => exact Nat.le_succ_of_le (depth_closeNearest_le ..)
  | _ => simp [apply, depth_enter]

theorem step_bounds {table : OperatorTable} {blocks next : Blocks} {cs rest : List Char}
    (h : blocks.step table cs = some (next, rest)) :
    rest.length < cs.length ∧ next.depth ≤ blocks.depth + 1 := by
  obtain ⟨⟨lexeme, tail⟩, hs, hr⟩ := Option.map_eq_some_iff.mp h
  have := Lexeme.length_of_scan hs
  have := depth_apply_le table blocks lexeme
  simp only [Prod.mk.injEq] at hr
  rw [← hr.1, ← hr.2, List.length_drop]
  omega

end Blocks
end LayeredEnv
