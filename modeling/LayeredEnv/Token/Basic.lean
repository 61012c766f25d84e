namespace LayeredEnv

inductive Kind where
  | main
  /-- A declaration; its value is the variable's name. -/
  | assignment
  /-- A reference; its value is the variable's name. -/
  | interpolation
  /-- An operator in a reference with its argument below it; its value is the symbol. -/
  | expression
  | quoted
  | text
  | comment
  /-- A directive to splice in another source; its value is the source's name. -/
  | includeFlag
  /-- A directive that the next assignment is not to be overridden. -/
  | preserveFlag
  deriving DecidableEq, Repr

def Kind.name : Kind → String
  | main => "MAIN"
  | assignment => "ASSIGNMENT"
  | interpolation => "INTERPOLATION"
  | expression => "INTERPOLATION_EXPRESSION"
  | quoted => "QUOTED_STRING"
  | text => "STRING"
  | comment => "COMMENT"
  | includeFlag => "INCLUDE_FLAG"
  | preserveFlag => "PRESERVE_FLAG"

/-- A token with everything below it. `isLength` marks a reference that yields the number of
characters of its result. -/
inductive Token where
  | node (kind : Kind) (value : String) (isLength : Bool) (children : List Token)

namespace Token

def kind : Token → Kind
  | node kind _ _ _ => kind

def value : Token → String
  | node _ value _ _ => value

def isLength : Token → Bool
  | node _ _ isLength _ => isLength

def children : Token → List Token
  | node _ _ _ children => children

def leaf (kind : Kind) (value : String) : Token := node kind value false []

def root (children : List Token) : Token := node .main "" false children

mutual

def size : Token → Nat
  | node _ _ _ children => sizeAll children + 1

def sizeAll : List Token → Nat
  | [] => 0
  | t :: ts => size t + sizeAll ts

end

mutual

def same : Token → Token → Bool
  | node k v l cs, node k' v' l' cs' => k == k' && v == v' && l == l' && sameAll cs cs'

def sameAll : List Token → List Token → Bool
  | [], [] => true
  | t :: ts, u :: us => same t u && sameAll ts us
  | _, _ => false

end

mutual

theorem same_eq_true_iff : ∀ (t u : Token), same t u = true ↔ t = u
  | node k v l cs, node k' v' l' cs' => by
    simp [same, sameAll_eq_true_iff cs cs', and_assoc]

theorem sameAll_eq_true_iff : ∀ (ts us : List Token), sameAll ts us = true ↔ ts = us
  | [], [] => by simp [sameAll]
  | [], _ :: _ => by simp [sameAll]
  | _ :: _, [] => by simp [sameAll]
  | t :: ts, u :: us => by
    simp [sameAll, same_eq_true_iff t u, sameAll_eq_true_iff ts us]

end

instance : DecidableEq Token := fun t u => decidable_of_iff (same t u = true) (same_eq_true_iff t u)

mutual

/-- The tokens in depth-first order, each before its children, with their depth. -/
def listing (depth : Nat) : Token → List (Nat × Token)
  | node k v l cs => (depth, node k v l cs) :: listingAll (depth + 1) cs

def listingAll (depth : Nat) : List Token → List (Nat × Token)
  | [] => []
  | t :: ts => listing depth t ++ listingAll depth ts

end

def dumpLine (depth : Nat) (t : Token) : String :=
  String.ofList (List.replicate (2 * depth) ' ') ++ t.kind.name ++ " (" ++ t.value ++ ")"
    ++ (if t.isLength then " [Length]" else "") ++ "\n"

def dump (t : Token) : String :=
  String.join ((t.listing 0).map fun (depth, t) => dumpLine depth t)

end Token
end LayeredEnv
