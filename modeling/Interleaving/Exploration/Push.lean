import Interleaving.Exploration.Race

/-!
# Pushing and popping frames

A push looks for races of the new action, gives the state of the new node its sets, and updates the
clocks and the table of locks. A pop makes up for what a lock has hidden: while the lock was held,
the actions that it blocks were not enabled, so no race has put them among the required ones.
-/

namespace Interleaving
namespace Exploration

variable {σ α χ ε : Type} [Action α]

/-- The frame above `last` for an action that led to `node`: `clock` holds what comes before the
action, `spawned` the processes that it has created, and the last two what it did to locks. -/
def nextFrame (last : Frame α) (index : Nat) (node : NodeId) (action : α) (clock : Clock)
    (spawned : List ProcessId) (acquired released : List LockId) : Frame α :=
  let p := Action.process action
  let inherited := spawned.foldl
    (fun clocks q => SortedMap.put clocks q (Clock.join (SortedMap.getD clocks q ∅) clock)) last.clocks
  let held := acquired.foldl (fun locks lock => SortedMap.put locks lock index) last.locks
  { node
    action := some action
    lastAction := SortedMap.put last.lastAction p index
    clocks := SortedMap.put inherited p clock
    locks := released.foldl Keyed.erase held }

/-! ## The sets of a pushed state -/

/-- The redundant actions of a state that stay redundant after an action: those independent of it. -/
def inheritedSleep (ctx : Context σ α ε) (sleep : ActionSet α) (action : α) :
    Except ε (ActionSet α) := do
  pure (Keyed.ofList (← sleep.toList.filterM fun a => return !(← ctx.system.dependent a action)))

/-- The actions on the edges that the tree has below a node, unless the settings disregard them. -/
def keptActions (ctx : Context σ α ε) (entry : SearchTree.Node σ α) : ActionSet α :=
  if ctx.settings.lazyReexploration then Keyed.ofList (entry.children.filterMap ctx.tree.action)
  else ∅

/-- The sets of a state reached by an action from a state with the given redundant actions. The kept
edges are required; if there are none, or all are redundant, so is one other action. -/
def freshDecoration [ChoiceSource χ] (ctx : Context σ α ε) (entry : SearchTree.Node σ α)
    (action : α) (sleepBefore : ActionSet α) : ExploreM α χ ε (Decoration α) := do
  let sleep ← ask (inheritedSleep ctx sleepBefore action)
  let offerable := (← enabledAt ctx entry).difference sleep
  let kept := keptActions ctx entry
  let representative ←
    if kept.isEmpty || kept.isSubset sleep then choose offerable else pure none
  pure { backtrack := kept.insertAll representative.toList, sleep }

/-- The sets of a state that is only looked into: those it has, as if nothing had been taken. -/
def storedDecoration (table : DecorationTable α) (s : StateId) : Decoration α :=
  { table.get s with explored := ∅ }

/-! ## Pushing -/

/-- Pushes the frame of a root: everything enabled is required. -/
def pushRoot (ctx : Context σ α ε) (node : NodeId) (entry : SearchTree.Node σ α) :
    ExploreM α χ ε Bool := do
  let backtrack ← enabledAt ctx entry
  updateTable (·.reset entry.stateId { backtrack })
  updateStack (·.push (.root node))
  count fun c => { c with pushes := c.pushes + 1 }
  pure true

/-- Refuses a node that stands on the stack already: below `limit`, all that is enabled at its state
becomes required instead. -/
def refuseCycle (ctx : Context σ α ε) (entry : SearchTree.Node σ α) (position limit : Nat) :
    ExploreM α χ ε Bool := do
  if position < limit then
    let backtrack ← enabledAt ctx entry
    decorate entry.stateId ({ · with backtrack })
  count fun c => { c with cycles := c.cycles + 1 }
  pure false

/-- Puts the frame of a new action on the stack, with its clock and the sets of its state. -/
def installFrame (ctx : Context σ α ε) (node : NodeId) (entry : SearchTree.Node σ α) (last : Frame α)
    (before : SearchTree.Node σ α) (action : α) (clock : Clock) (decoration : Decoration α)
    (isVirtual : Bool) : ExploreM α χ ε Unit := do
  let index := (← get).stack.size
  let spawned := (ctx.system.processes entry.state).difference (ctx.system.processes before.state)
  let heldBefore := ctx.system.heldLocks before.state
  let heldAfter := ctx.system.heldLocks entry.state
  let acquired := heldAfter.difference heldBefore
  let released := heldBefore.difference heldAfter
  if !ctx.system.isBottom entry.state then
    updateStack fun stack => released.toList.foldl SearchStack.releaseWhereAcquired stack
  updateTable (·.reset entry.stateId decoration)
  updateStack (·.push
    (nextFrame last index node action clock spawned.toList acquired.toList released.toList))
  if isVirtual then count fun c => { c with virtualPushes := c.virtualPushes + 1 }
  else count fun c => { c with pushes := c.pushes + 1 }

/-- Pushes the frame of a node reached by an action, on top of some frame. -/
def pushStep [ChoiceSource χ] (ctx : Context σ α ε) (node : NodeId) (entry : SearchTree.Node σ α)
    (action : α) (limit : Nat) : ExploreM α χ ε Bool := do
  let stack := (← get).stack
  match stack.top? with
  | none => throw (.error .emptyStack)
  | some last =>
    let scan ← scanBelow ctx stack action limit (stack.size - 1)
      (.start last (Action.process action) stack.size)
    let before ← lookUp ctx last.node
    let isVirtual : Bool := limit < stack.size || entry.parent != some last.node
    let decoration ←
      if isVirtual then pure (storedDecoration (← get).table entry.stateId)
      else freshDecoration ctx entry action ((← get).table.sleep before.stateId)
    match stack.position? node with
    | some position => refuseCycle ctx entry position limit
    | none =>
      installFrame ctx node entry last before action scan.clock decoration isVirtual
      pure true

/-- Pushes a frame for a node. Races below `limit` make actions required; frames from there on are
only looked into. The answer tells whether the node was not on the stack. -/
def push [ChoiceSource χ] (ctx : Context σ α ε) (node : NodeId) (limit : Nat) :
    ExploreM α χ ε Bool := do
  let entry ← lookUp ctx node
  match entry.action with
  | none => pushRoot ctx node entry
  | some action => pushStep ctx node entry action limit

/-! ## Popping -/

/-- The enabled actions that one of the locks blocks; the lock of atomic blocks blocks all. -/
def blockedBy (system : System σ α ε) (enabled : ActionSet α) (locks : List LockId) : List α :=
  locks.flatMap fun lock =>
    enabled.toList.filter fun a => lock.isAtomic || system.isBlockedBy a lock

/-- Requires, below the top frame, every enabled action that a lock blocks which the top frame has
acquired and which has not been released since. -/
def forceBlocked (ctx : Context σ α ε) (below : NodeId) (locks : List LockId) :
    ExploreM α χ ε Unit := do
  let entry ← lookUp ctx below
  let enabled ← enabledAt ctx entry
  let backtrack := ((← get).table.get entry.stateId).backtrack
  let forced := backtrack.insertAll (blockedBy ctx.system enabled locks)
  decorate entry.stateId ({ · with backtrack := forced })
  count fun c =>
    { c with forcedLockBacktracks := c.forcedLockBacktracks + (forced.size - backtrack.size) }

/-- Pops the top frame. -/
def popFrame (ctx : Context σ α ε) : ExploreM α χ ε Unit := do
  let stack := (← get).stack
  match stack.top? with
  | none => pure ()
  | some top =>
    match stack.frame? (stack.size - 2), top.locksAcquiredAt (stack.size - 1) with
    | some below, lock :: locks =>
      if 2 ≤ stack.size then forceBlocked ctx below.node (lock :: locks)
    | _, _ => pure ()
    updateStack (·.pop)
    count fun c => { c with pops := c.pops + 1 }

end Exploration
end Interleaving
