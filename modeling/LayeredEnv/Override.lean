import LayeredEnv.Token.Tree

namespace LayeredEnv.Override

/-- The positions of the assignments that win so far, and the names whose winner is final. -/
structure Winners where
  positions : List (String × Nat) := []
  preserved : List String := []

def Winners.assign (winners : Winners) (name : String) (position : Nat) (isPreserved : Bool) :
    Winners :=
  if winners.preserved.contains name then winners
  else
    { positions := (name, position) :: winners.positions
      preserved := if isPreserved then name :: winners.preserved else winners.preserved }

def winners (winners : Winners) (previous : Option Kind) (position : Nat) :
    List (Kind × String) → Winners
  | [] => winners
  | (kind, value) :: rest =>
    let next :=
      if kind == .assignment then winners.assign value position (previous == some .preserveFlag)
      else winners
    Override.winners next (some kind) (position + 1) rest

/-- The tokens without the assignments that lose; `label` gives kind and value. -/
def survivors {α : Type} (label : α → Kind × String) (tokens : List α) : List α :=
  let positions := (winners {} none 0 (tokens.map label)).positions
  (tokens.zipIdx.filter fun (token, position) =>
    (label token).1 != .assignment || positions.lookup (label token).2 == some position).map (·.1)

end Override

def TokenTree.flattenOverrides (tree : TokenTree) : TokenTree :=
  tree.setTopLevel (Override.survivors (fun id => (tree.kind id, tree.value id)) tree.topLevel)

end LayeredEnv
