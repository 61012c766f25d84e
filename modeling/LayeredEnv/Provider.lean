import LayeredEnv.Error

namespace LayeredEnv

structure Provider where
  provide : String → Except Error String
  /-- The number of names with a text that can include each other in a row; only a chain that
  repeats a name is longer. -/
  depth : Nat

abbrev Sources : Type := List (String × String)

namespace Sources

def put (sources : Sources) (name text : String) : Sources :=
  (name, text) :: sources.filter (·.1 != name)

def provide (sources : Sources) (name : String) : Except Error String :=
  match sources.lookup name with
  | some text => .ok text
  | none => .error (.sourceNotFound name)

theorem provide_eq_ok_iff {sources : Sources} {name text : String} :
    sources.provide name = .ok text ↔ sources.lookup name = some text := by
  unfold provide
  cases sources.lookup name <;> simp

def provider (sources : Sources) : Provider := ⟨sources.provide, sources.length⟩

end Sources
end LayeredEnv
