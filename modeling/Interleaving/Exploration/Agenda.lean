import Interleaving.Exploration.Replay

/-!
# What to explore next

An engine adds the nodes that it makes, asks whether anything is left to explore, takes the current
node, and asks which single action to perform there.
-/

namespace Interleaving
namespace Exploration

variable {σ α χ ε : Type} [Action α] [ChoiceSource χ]

/-- Empties the stack and forgets which states have been visited; the sets of actions stay. -/
def clear (x : Exploration α χ) : Exploration α χ :=
  { x with stack := {}, table := x.table.clearRound }

/-- Whether the state `covering` may answer for the state `candidate`: it has been visited in the
current round, and what it has left out because of its redundant actions is redundant at `candidate`
too. -/
def sleepPermitsCover (x : Exploration α χ) (candidate covering : StateId) : Bool :=
  x.table.isVisited covering &&
    (x.table.get covering).asleep.isSubset (x.table.sleep candidate)

/-- Adds at most one node. -/
def addAll (ctx : Context σ α ε) : List NodeId → ExploreM α χ ε Unit
  | [] => pure ()
  | [node] => do let _ ← add ctx node
  | nodes => throw (.error (.batchTooLarge nodes.length))

/-- Pops frames while the current node is subsumed, or expanded with nothing left to offer, at most
as many as given. After each pop, edges of earlier rounds come first. -/
def dropExhausted (ctx : Context σ α ε) : Nat → ExploreM α χ ε Unit
  | 0 => throw .diverged
  | limit + 1 => do
    match (← get).stack.topNode? with
    | none => pure ()
    | some top =>
      let entry ← lookUp ctx top
      let offerable := (← get).table.offerable entry.stateId
      if entry.isSubsumed || (entry.expanded && offerable.isEmpty) then
        popFrame ctx
        exploreLazily ctx
        dropExhausted ctx limit

/-- Whether nothing is left to explore. A covered current node first has its covering subtree walked;
otherwise edges of earlier rounds are taken. Each pop removes a frame, and only a newly marked state
adds one, so the number of pops is bounded. -/
def isEmpty (ctx : Context σ α ε) : ExploreM α χ ε Bool := do
  match (← get).stack.topNode? with
  | none => pure true
  | some top =>
    let entry ← lookUp ctx top
    match entry.covering, entry.feasible with
    | some covering, true =>
      if ctx.settings.virtualExploration then virtualExploration ctx covering
    | _, _ => exploreLazily ctx
    dropExhausted ctx ((← get).stack.size + ctx.tree.size + 1)
    pure (← get).stack.isEmpty

/-- The current node, at which the exploration goes on. -/
def remove (ctx : Context σ α ε) : ExploreM α χ ε NodeId := do
  if ← isEmpty ctx then throw (.error .emptyStack)
  else
    match (← get).stack.topNode? with
    | some top => pure top
    | none => throw (.error .emptyStack)

/-- The action to perform next at a state, which has to be the state of the current node. It counts
as taken. There is none if nothing can be offered. -/
def nextAction (ctx : Context σ α ε) (state : StateId) : ExploreM α χ ε (Option α) := do
  match (← get).stack.topNode? with
  | none => throw (.error .emptyStack)
  | some top =>
    let entry ← lookUp ctx top
    if entry.stateId ≠ state then throw (.error (.notTopState state entry.stateId))
    else
      match ← choose ((← get).table.offerable state) with
      | none => pure none
      | some action =>
        recordTaken state (← enabledAt ctx entry) action
        pure (some action)

end Exploration
end Interleaving
