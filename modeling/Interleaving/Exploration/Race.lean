import Interleaving.Exploration.Basic

/-!
# Races

A new action of process `p` races with an earlier one of another process if the two are dependent
and nothing orders them. If such a pair can be reversed, some action that starts the reversed run has
to be required at the state before the earlier action. The scan goes down the stack once; for each
process it stops at the latest action that is ordered before the new one or races with it.
-/

namespace Interleaving
namespace Exploration

variable {σ α χ ε : Type} [Action α]

/-! ## The run that reverses a race -/

/-- The actions of the frames from `index` on whose nodes are children of the node below them. -/
def chainedActions (tree : SearchTree σ α) (stack : SearchStack α) (index : Nat) : List α :=
  (List.range' index (stack.size - index)).filterMap fun i =>
    match stack.frame? i, stack.frame? (i - 1) with
    | some frame, some below =>
      if tree.parent frame.node = some below.node then frame.action else none
    | _, _ => none

/-- The run to be performed before the action at `index`: the later actions that do not depend on
it, followed by the new action. -/
def reversingRun (ctx : Context σ α ε) (stack : SearchStack α) (index : Nat) (earlier action : α) :
    Except ε (List α) := do
  let independent ← (chainedActions ctx.tree stack (index + 1)).filterM fun b =>
    return !(← ctx.system.dependent earlier b)
  pure (independent ++ [action])

/-- Whether an action occurs in a run before any action that it depends on. -/
def startsRun (system : System σ α ε) (a : α) : List α → Except ε Bool
  | [] => pure false
  | step :: run => do
    if Action.key step = Action.key a then pure true
    else if ← system.dependent a step then pure false
    else startsRun system a run

/-- The candidates that can start a run. -/
def initials (system : System σ α ε) (candidates : ActionSet α) (run : List α) :
    Except ε (ActionSet α) := do
  pure (Keyed.ofList (← candidates.toList.filterM (startsRun system · run)))

/-! ## The scan -/

/-- What the scan knows at an index of the stack. -/
structure RaceScan where
  /-- The processes whose actions are still looked for. -/
  pending : SortedSet ProcessId
  /-- The latest actions known to come before the new one, itself included. -/
  clock : Clock

namespace RaceScan

/-- The scan for an action to be pushed at `index`, before it has looked at any frame. -/
def start (last : Frame α) (p : ProcessId) (index : Nat) : RaceScan where
  pending := Keyed.ofList (last.lastAction.keys.filter (· != p))
  clock := SortedMap.put (SortedMap.getD last.clocks p ∅) p index

/-- Looks no longer for actions of `q`. -/
def drop (s : RaceScan) (q : ProcessId) : RaceScan := { s with pending := s.pending.erase q }

/-- Whether the action of `q` at `index` is known to come before the new one. -/
def isOrdered (s : RaceScan) (q : ProcessId) (index : Nat) : Bool :=
  match SortedMap.get? s.clock q with
  | some latest => index ≤ latest
  | none => false

/-- Records that the action of `q` at `index` comes before the new one, with all that comes before
it as far as its frame knows. -/
def order (s : RaceScan) (q : ProcessId) (index : Nat) (frame : Frame α) : RaceScan where
  pending := s.pending.erase q
  clock := Clock.join (SortedMap.put s.clock q index) (SortedMap.getD frame.clocks q ∅)

end RaceScan

/-- Requires one of the given actions at a state, unless one of them is required already. -/
def requireOne [ChoiceSource χ] (target : StateId) (options : ActionSet α) :
    ExploreM α χ ε Unit := do
  decorate target id
  if options.intersects ((← get).table.get target).backtrack then pure ()
  else
    match ← choose options with
    | none => pure ()
    | some a =>
      decorate target (·.require a)
      count fun c => { c with backtrackInsertions := c.backtrackInsertions + 1 }

/-- Reverses the race between the action `earlier` of the frame at `index` and the new one. Requires
nothing if `index` is not below `limit`. -/
def reverseRace [ChoiceSource χ] (ctx : Context σ α ε) (stack : SearchStack α) (limit index : Nat)
    (frame : Frame α) (earlier action : α) (scan : RaceScan) : ExploreM α χ ε RaceScan := do
  let run ← ask (reversingRun ctx stack index earlier action)
  match stack.frame? (index - 1) with
  | none => pure scan
  | some below =>
    let origin ← lookUp ctx below.node
    let candidates ← enabledAt ctx origin
    let asleep := ((← get).table.get origin.stateId).asleep
    let options ← ask (initials ctx.system (candidates.difference asleep) run)
    if options.isEmpty then
      count fun c => { c with emptyInitials := c.emptyInitials + 1 }
      pure scan
    else
      if index < limit then requireOne origin.stateId options
      pure (scan.order (Action.process earlier) index frame)

/-- Looks at the frame at `index`. -/
def scanFrame [ChoiceSource χ] (ctx : Context σ α ε) (stack : SearchStack α) (action : α)
    (limit index : Nat) (scan : RaceScan) : ExploreM α χ ε RaceScan := do
  match stack.frame? index with
  | none => pure scan
  | some frame =>
    match frame.action with
    | none => pure scan
    | some earlier =>
      let q := Action.process earlier
      if !scan.pending.hasKey q then pure scan
      else if scan.isOrdered q index then pure (scan.drop q)
      else if !(← ask (ctx.system.dependent earlier action)) then pure scan
      else
        match ctx.tree.parent frame.node with
        | none => pure scan
        | some source =>
          let before ← lookUp ctx source
          if ← ask (ctx.system.reversible before.state earlier action) then
            count fun c => { c with reversibleRaces := c.reversibleRaces + 1 }
            reverseRace ctx stack limit index frame earlier action scan
          else
            count fun c => { c with irreversiblePairs := c.irreversiblePairs + 1 }
            pure scan

/-- Looks at the frames from `index` down to 1. -/
def scanBelow [ChoiceSource χ] (ctx : Context σ α ε) (stack : SearchStack α) (action : α)
    (limit : Nat) : Nat → RaceScan → ExploreM α χ ε RaceScan
  | 0, scan => pure scan
  | index + 1, scan => do
    scanBelow ctx stack action limit index (← scanFrame ctx stack action limit (index + 1) scan)

end Exploration
end Interleaving
