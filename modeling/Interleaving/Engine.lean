import Interleaving.Program.Dependency
import Interleaving.Search

/-!
# `Engine`: rounds of exploration of a program

Each round starts from the root and asks, again and again, whether something is left, takes the
current node, covers it by an earlier node with the same state where that is allowed, and otherwise
performs the one action offered. Nodes of earlier rounds are used again, so a later round replays
them instead of performing their actions once more.
-/

namespace Interleaving

/-- The outcome of a round. -/
structure RoundReport where
  /-- The number of the round, from 1 on. -/
  round : Nat
  /-- The nodes at which an action was performed or none was left. -/
  expansions : Nat
  /-- The nodes made. -/
  newNodes : Nat
  /-- The nodes covered. -/
  covered : Nat
  /-- The nodes that were left with nothing to offer although a step could run. -/
  sleepBlocked : Nat
  /-- Whether the round ended at the bound on expansions. -/
  truncated : Bool
  /-- The terminal states in the tree after the round. -/
  terminalStates : StateSet
  /-- The counters after the round. -/
  counters : Counters

/-- Drives the exploration of a program. -/
structure Engine where
  program : Program
  precision : Precision
  settings : EngineSettings
  search : Search ProgramState Step Seeded
  /-- Every step performed, in order; replays do not count. -/
  executed : Array Step

/-- An operation of an engine. -/
abbrev EngineM : Type → Type := EStateM (Halt Empty) Engine

namespace Engine

/-- The engine of a program, whose tree holds the initial state only. Where the settings have no seed,
the one drawn outside is used. -/
def create (program : Program) (settings : EngineSettings) (drawnSeed : UInt64) : Engine :=
  let seed := settings.exploration.seed.getD drawnSeed
  { program, precision := none, settings
    search := .ofChoices settings.exploration (some seed) (.ofSeed seed)
      (.singleton program.initialState)
    executed := #[] }

/-- The transition system explored. -/
def system (e : Engine) : System ProgramState Step Empty := e.program.system e.precision

/-- The tree explored. -/
def tree (e : Engine) : SearchTree ProgramState Step := e.search.tree

/-- Changes which variables are tracked in later rounds. -/
def setPrecision (e : Engine) (precision : Precision) : Engine := { e with precision }

/-- Takes the subtree at a node out of the tree. -/
def prune (e : Engine) (n : NodeId) : Engine :=
  { e with search := { e.search with tree := e.search.tree.prune n } }

/-- The terminal states among the leaves of the tree. -/
def terminalStates (e : Engine) : StateSet :=
  .ofList <| (e.tree.leaves.filterMap fun n => (e.tree.node? n).map (·.state)).filter
    e.program.isTerminal

/-! ## Operations -/

/-- An operation of the search. -/
def onSearch {β : Type} (op : SearchM ProgramState Step Seeded Empty β) : EngineM β :=
  fun ⟨program, precision, settings, search, executed⟩ =>
    match op search with
    | .ok b search => .ok b ⟨program, precision, settings, search, executed⟩
    | .error h search => .error h ⟨program, precision, settings, search, executed⟩

/-- An operation of the exploration. -/
def explore {β : Type} (op : Context ProgramState Step Empty → ExploreM Step Seeded Empty β) :
    EngineM β := do
  onSearch (Search.explore (← get).system op)

/-- Changes the tree. -/
def updateTree (f : SearchTree ProgramState Step → SearchTree ProgramState Step) : EngineM Unit :=
  onSearch (Search.updateTree f)

/-! ## Covering -/

/-- Whether a node may be covered by an earlier one: that one is still in the tree, expanded and not
covered, has the same state, and the redundant actions permit it. -/
def mayCover (e : Engine) (entry earlier : SearchTree.Node ProgramState Step) : Bool :=
  !earlier.pruned && earlier.expanded && !earlier.isCovered && earlier.state == entry.state
    && e.search.exploration.sleepPermitsCover entry.stateId earlier.stateId

/-- The first node that may cover `n`, if `n` is a fresh leaf and covering is on. -/
def coveringFor (e : Engine) (n : NodeId) (entry : SearchTree.Node ProgramState Step) :
    Option NodeId :=
  if e.settings.covering && !entry.expanded && !entry.isCovered && entry.children.isEmpty then
    e.tree.firstBefore n (e.mayCover entry)
  else none

/-! ## Rounds -/

/-- What a round has come to so far. -/
structure Progress where
  expansions : Nat := 0
  newNodes : Nat := 0
  covered : Nat := 0
  sleepBlocked : Nat := 0
  truncated : Bool := false

/-- The child of a node by a step: the one in the tree, or a new one. -/
def childFor (n : NodeId) (entry : SearchTree.Node ProgramState Step) (action : Step)
    (p : Progress) : EngineM (NodeId × Progress) := do
  match (← get).tree.childWithAction n action with
  | some child => pure (child, p)
  | none =>
    let child ← onSearch (Search.modifyTree (·.addChild n action (entry.state.after action)))
    pure (child, { p with newNodes := p.newNodes + 1 })

/-- Performs the action offered at a node, or finds that there is none. -/
def expand (n : NodeId) (p : Progress) : EngineM Progress := do
  let entry ← onSearch (Search.lookUp n)
  match ← explore (Exploration.nextAction · entry.stateId) with
  | none =>
    updateTree (·.setExpanded n true)
    if (← get).program.isTerminal entry.state then pure p
    else pure { p with sleepBlocked := p.sleepBlocked + 1 }
  | some action =>
    let (child, p) ← childFor n entry action p
    updateTree (·.setExpanded n true)
    modify fun e => { e with executed := e.executed.push action }
    let _ ← explore (Exploration.add · child)
    pure p

/-- One turn of a round. The flag tells whether the round goes on. -/
def roundTurn (p : Progress) : EngineM (Bool × Progress) := do
  if ← explore Exploration.isEmpty then pure (false, p)
  else if (← get).settings.maxExpansions ≤ p.expansions then pure (false, { p with truncated := true })
  else
    let n ← explore Exploration.remove
    let entry ← onSearch (Search.lookUp n)
    match (← get).coveringFor n entry with
    | some covering =>
      updateTree (·.setCovering n (some covering))
      pure (true, { p with covered := p.covered + 1 })
    | none => pure (true, ← expand n { p with expansions := p.expansions + 1 })

/-- Goes on with a round for at most as many turns as given. -/
def continueRound : Nat → Progress → EngineM Progress
  | 0, _ => throw .diverged
  | turns + 1, p => do
    let (goesOn, p) ← roundTurn p
    if goesOn then continueRound turns p else pure p

/-- Empties the stack and adds the root. -/
def startRound : EngineM Unit := do
  modify fun e =>
    { e with search := { e.search with exploration := e.search.exploration.clear } }
  let _ ← explore (Exploration.add · SearchTree.root)

/-- The turns that a round can take: each but the last expands a node, which may happen as often as
the settings say, or covers one that was not covered before. -/
def turnLimit (e : Engine) : Nat := e.tree.size + 2 * e.settings.maxExpansions + 2

/-- The report on a round that has come to `p`. -/
def report (e : Engine) (p : Progress) : RoundReport :=
  let counters := e.search.exploration.counters
  { round := counters.rounds, expansions := p.expansions, newNodes := p.newNodes,
    covered := p.covered, sleepBlocked := p.sleepBlocked, truncated := p.truncated,
    terminalStates := e.terminalStates, counters }

/-- Runs a round. -/
def runRound : EngineM RoundReport := do
  startRound
  let p ← continueRound (← get).turnLimit {}
  return (← get).report p

end Engine

end Interleaving
