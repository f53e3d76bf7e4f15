import Interleaving.Identifier

/-!
# How an operation of an exploration can fail

An error is the caller's fault or comes from the transition system; the exploration can go on after
it. A halt is either an error, or a defect: a tree, a source of choices or a table of dependencies
that breaks its promises.
-/

namespace Interleaving

/-- An error of an operation; `ε` are the failures of the transition system. -/
inductive ExploreError (ε : Type) where
  /-- An operation needs a current node and there is none. -/
  | emptyStack
  /-- An action was asked for at a state that is not the current one. -/
  | notTopState (requested top : StateId)
  /-- A node was added that is not a child of the current one. -/
  | notChildOfTop (node top : NodeId)
  /-- More than one node was added at once. -/
  | batchTooLarge (count : Nat)
  /-- The transition system failed to answer. -/
  | query (cause : ε)
deriving DecidableEq

namespace ExploreError

variable {ε : Type}

/-- The message of an error, given the text of a failure. -/
def message (causeText : ε → String) : ExploreError ε → String
  | emptyStack => "exploration stack is empty"
  | notTopState requested top => s!"state {requested.text} is not the top state {top.text}"
  | notChildOfTop node top => s!"node {node.text} is not a child of the top node {top.text}"
  | batchTooLarge count => s!"at most one node can be added at a time, got {count}"
  | query cause => "transition oracle failed: " ++ causeText cause

/-- Whether the caller is at fault. -/
def isContractViolation : ExploreError ε → Bool
  | query _ => false
  | _ => true

end ExploreError

/-- A broken promise of what an exploration works with. -/
inductive Defect where
  /-- The tree has no such node. -/
  | unknownNode (node : NodeId)
  /-- A source answered `index` where there were `count` possibilities. -/
  | choiceOutOfRange (index count : Nat)
  /-- An action was taken at a state where none of the required actions has its key. -/
  | exploredOutsideBacktrack (state : StateId)
deriving DecidableEq

/-- Why an operation ended without an answer. -/
inductive Halt (ε : Type) where
  | error (e : ExploreError ε)
  | defect (d : Defect)
  /-- Paths upwards or coverings run in a circle. -/
  | diverged
deriving DecidableEq

end Interleaving
