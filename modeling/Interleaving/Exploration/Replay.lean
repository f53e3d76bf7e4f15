import Interleaving.Exploration.Push

/-!
# Going over what the tree has already

Two kinds of replay feed the search for races without new states. When a node is covered, the
subtree of the covering node is walked on top of the stack, so that races between the path above and
actions below the covering node are seen; the stack is cut back afterwards. And edges that an earlier
round has left in the tree are taken again, as if they had just been chosen.
-/

namespace Interleaving
namespace Exploration

variable {σ α χ ε : Type} [Action α] [ChoiceSource χ]

/-! ## The subtree of a covering node -/

/-- Enters a node of a covering subtree by pushing a frame for it. The answer tells whether to look
below it: not if the node is on the stack already, nor if nothing below can race with the first
`realSize` frames. The root of the subtree has no frame of its own. -/
def enterVirtual (ctx : Context σ α ε) (realSize start : Nat) (root node : NodeId) :
    ExploreM α χ ε Bool := do
  if node = root then pure true
  else if ← push ctx node start then
    if (← get).stack.top?.all (·.isCutOffFrom realSize) then
      count fun c => { c with virtualCutoffs := c.virtualCutoffs + 1 }
      pure false
    else pure true
  else pure false

/-- Walks the subtree at `node`, the last child first. Frames from `start` on belong to the walk that
began at `root`. A covered node inside leads to a walk of its own, unless its covering node is among
the roots of the walks under way. -/
def walkVirtual (ctx : Context σ α ε) (realSize : Nat) :
    Nat → List NodeId → NodeId → Nat → NodeId → ExploreM α χ ε Unit
  | 0, _, _, _, _ => throw .diverged
  | depth + 1, roots, root, start, node => do
    let entry ← lookUp ctx node
    updateStack (·.unwindTo start entry.parent)
    if ← enterVirtual ctx realSize start root node then
      match entry.covering with
      | some covering =>
        if !roots.contains covering then
          let size := (← get).stack.size
          walkVirtual ctx realSize depth (covering :: roots) covering size covering
          updateStack (·.truncate size)
      | none => entry.children.reverse.forM (walkVirtual ctx realSize depth roots root start)

/-- Walks the subtree of a covering node on top of the stack, and cuts the stack back. In a tree, no
path is longer than the number of nodes, and there are at most as many walks at once. -/
def virtualExploration (ctx : Context σ α ε) (covering : NodeId) : ExploreM α χ ε Unit := do
  let size := (← get).stack.size
  let nodes := ctx.tree.size + 1
  walkVirtual ctx size (nodes * nodes) [covering] covering size covering
  updateStack (·.truncate size)

/-! ## Adding a node -/

/-- Takes an action at a state where the given actions are enabled. -/
def recordTaken (s : StateId) (enabled : ActionSet α) (a : α) : ExploreM α χ ε Unit := do
  decorate s (·.takeAmong enabled a)
  let d := (← get).table.get s
  if !d.explored.isSubset d.backtrack then throw (.defect (.exploredOutsideBacktrack s))

/-- The topmost ancestor of a node, within as many steps as given. -/
def topmost (ctx : Context σ α ε) : Nat → NodeId → ExploreM α χ ε NodeId
  | 0, _ => throw .diverged
  | steps + 1, n => do
    match (← lookUp ctx n).parent with
    | some p => topmost ctx steps p
    | none => pure n

/-- Adds a node that the engine has made. It has to be a child of the current node; with an empty
stack, a round starts at the topmost ancestor of the node instead. The answer tells whether the node
was not on the stack. -/
def add (ctx : Context σ α ε) (node : NodeId) : ExploreM α χ ε Bool := do
  let added ← match (← get).stack.topNode? with
    | some top =>
      if (← lookUp ctx node).parent = some top then pure node
      else throw (.error (.notChildOfTop node top))
    | none =>
      let root ← topmost ctx (ctx.tree.size + 1) node
      count fun c => { c with rounds := c.rounds + 1 }
      pure root
  let entry ← lookUp ctx added
  updateTable (·.markVisited entry.stateId)
  push ctx added (← get).stack.size

/-! ## Edges of earlier rounds -/

/-- The edges below a node that are neither redundant nor visited in the current round. -/
def replayableEdges (ctx : Context σ α ε) (table : DecorationTable α)
    (entry : SearchTree.Node σ α) : List (NodeId × α) :=
  entry.children.filterMap fun c => do
    let child ← ctx.tree.node? c
    let action ← child.action
    guard (!table.isVisited child.stateId && !(table.sleep entry.stateId).contains action)
    pure (c, action)

/-- Takes edges of earlier rounds from the current node downwards until there is none left, at most
as many as given. -/
def replayEdges (ctx : Context σ α ε) : Nat → ExploreM α χ ε Unit
  | 0 => throw .diverged
  | limit + 1 => do
    match (← get).stack.topNode? with
    | none => pure ()
    | some top =>
      let entry ← lookUp ctx top
      let edges := replayableEdges ctx (← get).table entry
      if !edges.isEmpty then
        let index ← pick edges.length
        match edges[index]? with
        | none => throw (.defect (.choiceOutOfRange index edges.length))
        | some (child, action) =>
          let enabled ← enabledAt ctx entry
          recordTaken entry.stateId enabled action
          count fun c => { c with lazyReplays := c.lazyReplays + 1 }
          let _ ← add ctx child
          replayEdges ctx limit

/-- Takes edges of earlier rounds, if the settings ask for it. Each marks a state that was not marked
before, so there are no more of them than nodes. -/
def exploreLazily (ctx : Context σ α ε) : ExploreM α χ ε Unit := do
  if ctx.settings.lazyReexploration then replayEdges ctx (ctx.tree.size + 1)

end Exploration
end Interleaving
