import LayeredEnv.Pattern.Regex.Parser
import LayeredEnv.Pattern.Regex.Program

namespace LayeredEnv.Regex

abbrev Slots := Array (Option Nat)

structure Thread where
  place : Nat
  slots : Slots

/-- Attempts at one position, last added first, and the places that one of them has visited. -/
structure Threads where
  waiting : List Thread := []
  visited : Array Bool

structure Position where
  index : Nat
  before : Option Char
  after : Option Char

namespace Program

def noThreads (program : Program) : Threads := ⟨[], .replicate program.code.size false⟩

/-- Adds the attempts that a place leads to without taking a character, in order of preference.
A place that was visited before is not entered again, so that no walk is longer than the program. -/
def follow (program : Program) (position : Position) :
    (fuel : Nat) → (place : Nat) → Slots → Threads → Threads
  | 0, _, _, threads => threads
  | fuel + 1, place, slots, threads =>
    if threads.visited.getD place true then threads
    else
      let threads := { threads with visited := threads.visited.setIfInBounds place true }
      match program.code[place]? with
      | none => threads
      | some (.set ..) | some .accept =>
        { threads with waiting := ⟨place, slots⟩ :: threads.waiting }
      | some (.look condition next) =>
        if condition.holds position.before position.after then
          program.follow position fuel next slots threads
        else threads
      | some (.save slot next) =>
        program.follow position fuel next (slots.setIfInBounds slot (some position.index)) threads
      | some (.split first second) =>
        program.follow position fuel second slots
          (program.follow position fuel first slots threads)

def launch (program : Program) (position : Position) (threads : Threads) : Threads :=
  program.follow position (program.code.size + 1) program.start
    (.replicate (2 * program.groups + 2) none) threads

/-- Advances attempts, most preferred first, over a character to `position`. One that accepts
ends those after it; its slots are the second result. -/
def advance (program : Program) (c : Char) (position : Position) :
    List Thread → Threads → Threads × Option Slots
  | [], threads => (threads, none)
  | thread :: rest, threads =>
    match program.code[thread.place]? with
    | some .accept => (threads, some thread.slots)
    | some (.set chars next) =>
      program.advance c position rest <|
        if chars.contains c then
          program.follow position (program.code.size + 1) next thread.slots threads
        else threads
    | _ => program.advance c position rest threads

def accepted (program : Program) (threads : List Thread) : Option Slots :=
  threads.findSome? fun thread =>
    match program.code[thread.place]? with
    | some .accept => some thread.slots
    | _ => none

/-- Searches on with the attempts that wait at `index` for the characters of `rest`. As long as
nothing has been found, a new attempt starts at each position. -/
def run (program : Program) (index : Nat) (threads : Threads) (found : Option Slots) :
    List Char → Option Slots
  | [] => (program.accepted threads.waiting.reverse).or found
  | c :: rest =>
    if threads.waiting.isEmpty && found.isSome then found
    else
      let position : Position := ⟨index + 1, some c, rest.head?⟩
      let (next, accepted) :=
        program.advance c position threads.waiting.reverse program.noThreads
      let found := accepted.or found
      let next := if found.isSome then next else program.launch position next
      program.run (index + 1) next found rest

def search (program : Program) (index : Nat) (before : Option Char) (rest : List Char) :
    Option Slots :=
  program.run index (program.launch ⟨index, before, rest.head?⟩ program.noThreads) none rest

end Program

def Slots.bounds? (slots : Slots) (group : Nat) : Option (Nat × Nat) := do
  let first ← slots.getD (2 * group) none
  let last ← slots.getD (2 * group + 1) none
  return (first, last)

namespace Program

/-- The matches in `rest`, the text from `index` on, none of which overlaps another or is empty
where the one before it ended. -/
def matchesFrom (program : Program) : (fuel : Nat) → (index : Nat) → (before : Option Char) →
    (rest : List Char) → (lastEnd : Option Nat) → List Slots
  | 0, _, _, _, _ => []
  | fuel + 1, index, before, rest, lastEnd =>
    match program.search index before rest with
    | none => []
    | some slots =>
      match slots.bounds? 0 with
      | none => []
      | some (first, last) =>
        if first == last && lastEnd == some last then
          match rest with
          | [] => []
          | c :: rest => program.matchesFrom fuel (index + 1) (some c) rest lastEnd
        else
          let passed := rest.take (last - index)
          slots :: program.matchesFrom fuel last (passed.getLast?.or before)
            (rest.drop (last - index)) (some last)

/-- The matches in a text from left to right. Each turn passes a character or ends a match, so
that twice the length and a little more is fuel enough. -/
def allMatches (program : Program) (text : List Char) : List Slots :=
  program.matchesFrom (2 * text.length + 2) 0 none text none

end Program
end LayeredEnv.Regex
