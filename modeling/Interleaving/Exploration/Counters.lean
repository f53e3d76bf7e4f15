import Interleaving.Json.Writer

/-!
# Counters of an exploration
-/

namespace Interleaving

/-- What has happened in an exploration, over all its rounds. -/
structure Counters where
  /-- Frames pushed for the path that is explored. -/
  pushes : Nat := 0
  /-- Frames pushed while looking into the subtree of a covering node. -/
  virtualPushes : Nat := 0
  /-- Frames popped from the path that is explored. -/
  pops : Nat := 0
  /-- Pushes refused because the node was on the stack. -/
  cycles : Nat := 0
  /-- Dependent pairs that can be reversed. -/
  reversibleRaces : Nat := 0
  /-- Dependent pairs that cannot be reversed. -/
  irreversiblePairs : Nat := 0
  /-- Races that no enabled action can start to reverse. -/
  emptyInitials : Nat := 0
  /-- Actions that a race has made required. -/
  backtrackInsertions : Nat := 0
  /-- Actions that a lock still held on a pop has made required. -/
  forcedLockBacktracks : Nat := 0
  /-- Edges of earlier rounds taken again. -/
  lazyReplays : Nat := 0
  /-- Branches of covering subtrees that were not looked into any further. -/
  virtualCutoffs : Nat := 0
  /-- Rounds started. -/
  rounds : Nat := 0
deriving DecidableEq, Inhabited

namespace Counters

/-- The counters with their names, in the order of their definition. -/
def named (c : Counters) : List (String × Nat) :=
  [("pushes", c.pushes), ("virtual_pushes", c.virtualPushes), ("pops", c.pops),
    ("cycles", c.cycles), ("reversible_races", c.reversibleRaces),
    ("irreversible_pairs", c.irreversiblePairs), ("empty_initials", c.emptyInitials),
    ("backtrack_insertions", c.backtrackInsertions),
    ("forced_lock_backtracks", c.forcedLockBacktracks), ("lazy_replays", c.lazyReplays),
    ("virtual_cutoffs", c.virtualCutoffs), ("rounds", c.rounds)]

/-- The counters on one line, the rounds first. -/
def summary (c : Counters) : String :=
  " ".intercalate <| [("rounds", c.rounds), ("pushes", c.pushes), ("virtual", c.virtualPushes),
    ("pops", c.pops), ("races", c.reversibleRaces), ("irreversible", c.irreversiblePairs),
    ("empty_initials", c.emptyInitials), ("backtracks", c.backtrackInsertions),
    ("forced", c.forcedLockBacktracks), ("lazy", c.lazyReplays), ("cutoffs", c.virtualCutoffs),
    ("cycles", c.cycles)].map fun (name, value) => s!"{name}={value}"

/-- The counters as an object. -/
def toJson (c : Counters) : Json := .obj (c.named.map fun (name, value) => (name, .nat value))

/-- The counters of an object that has all of them, as numbers of 64 bits. -/
def ofJson? (j : Json) : Option Counters := do
  let fields ← j.fields?
  let counter (name : String) := Json.required? fields name (Json.nat? UInt64.size)
  pure {
    pushes := ← counter "pushes"
    virtualPushes := ← counter "virtual_pushes"
    pops := ← counter "pops"
    cycles := ← counter "cycles"
    reversibleRaces := ← counter "reversible_races"
    irreversiblePairs := ← counter "irreversible_pairs"
    emptyInitials := ← counter "empty_initials"
    backtrackInsertions := ← counter "backtrack_insertions"
    forcedLockBacktracks := ← counter "forced_lock_backtracks"
    lazyReplays := ← counter "lazy_replays"
    virtualCutoffs := ← counter "virtual_cutoffs"
    rounds := ← counter "rounds" }

end Counters

end Interleaving
