import LayeredEnv.Pattern.Regex.Expr
import LayeredEnv.Proofs.Unicode.RangeSets

namespace LayeredEnv.Regex

/-- Texts, each with what stands before and after it. -/
abbrev Spans : Type := (before matched after : List Char) → Prop

namespace Spans

def text (chars : List Char) : Spans := fun _ matched _ => matched = chars

def oneOf (p : Char → Prop) : Spans := fun _ matched _ => ∃ c, matched = [c] ∧ p c

def followedBy (first second : Spans) : Spans := fun before matched after =>
  ∃ front rest, matched = front ++ rest ∧ first before front (rest ++ after) ∧
    second (before ++ front) rest after

def turns (body : Spans) : Nat → Spans
  | 0 => text []
  | count + 1 => body.followedBy (turns body count)

end Spans

open Spans

namespace Expr

def Matches : Expr → Spans
  | empty => text []
  | literal first more => text (first :: more)
  | set chars => oneOf (chars.contains · = true)
  | look condition => fun before matched after =>
    matched = [] ∧ condition.holds before.getLast? after.head? = true
  | group _ _ body => body.Matches
  | seq first rest => first.Matches.followedBy rest.Matches
  | alt first rest => fun before matched after =>
    first.Matches before matched after ∨ rest.Matches before matched after
  | repetition least most _ body => fun before matched after =>
    ∃ count, least ≤ count ∧ (∀ limit ∈ most, count ≤ limit) ∧
      (turns body.Matches count) before matched after

end Expr
end LayeredEnv.Regex
