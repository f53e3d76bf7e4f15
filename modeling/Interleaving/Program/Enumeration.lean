import Interleaving.Program.Basic

/-!
# Enumerating states one by one

The terminal states of a program can also be found without a bound on the length of runs: look at a
state that has been reached, put the states one step away on a list of states still to be looked at, and
go on until the list is empty. A state that comes up again is passed over.
-/

namespace Interleaving

/-- An enumeration under way. -/
structure Enumeration where
  /-- The states still to be looked at, the next one first. -/
  work : List ProgramState
  /-- The states that have been looked at. -/
  seen : StateSet
  /-- Those among them in which no step can run. -/
  terminals : StateSet

namespace Enumeration

/-- An enumeration from a state on. -/
def start (s : ProgramState) : Enumeration := ⟨[s], ∅, ∅⟩

/-- Looks at the state `s`, with `work` still to be looked at. The successors found last come next. -/
def look (p : Program) (e : Enumeration) (s : ProgramState) (work : List ProgramState) : Enumeration :=
  if e.seen.contains s then { e with work }
  else if p.isTerminal s then
    { work, seen := e.seen.insert s, terminals := e.terminals.insert s }
  else { e with work := (p.successors s).reverse ++ work, seen := e.seen.insert s }

/-- Looks at one state after the other, at most as many times as given. When none is left, the answer
consists of the terminal ones. -/
def run (p : Program) : Nat → Enumeration → Option StateSet
  | looks, e => match e.work with
    | [] => some e.terminals
    | s :: work => match looks with
      | 0 => none
      | looks + 1 => run p looks (e.look p s work)

end Enumeration

/-- The terminal states found by looking at all states that can be reached, if as many looks as given
are enough. -/
def Program.enumerate (p : Program) (looks : Nat) : Option StateSet :=
  Enumeration.run p looks (.start p.initialState)

end Interleaving
