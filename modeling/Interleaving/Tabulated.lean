import Interleaving.Search

/-!
# Transition systems given by tables

States, nodes and the relations between operations are listed one by one. That makes it possible to
explore systems that no program has, among them systems that fail to answer. These tables are no part of the
search: they stand for the systems that a client brings along, and serve to run the search on one. Nothing
else in the library uses them.
-/

namespace Interleaving
namespace Tabulated

/-- A state of a table. -/
structure State where
  id : StateId
  /-- The enabled actions; without a list, asking for them fails. -/
  enabled : Option (List Labelled)
  processes : SortedSet ProcessId
  locks : SortedSet LockId
  isBottom : Bool

/-- The relations of a table, on the numbers of operations. -/
structure Relations where
  /-- The pairs of dependent operations, in either order. -/
  dependent : List (Int × Int)
  /-- The pairs for which asking about dependency fails, in either order. -/
  dependentFails : List (Int × Int)
  /-- The pairs of an earlier and a later operation that cannot be reversed. -/
  irreversible : List (Int × Int)
  /-- The same for single states before the earlier operation. -/
  irreversibleAt : List (StateId × Int × Int)
  /-- The pairs for which asking about reversibility fails. -/
  reversibleFails : List (Int × Int)
  /-- The locks that block an operation. -/
  blocked : List (Int × LockId)

/-- A question that a table does not answer. -/
inductive Failure where
  | enabled (state : StateId)
  | dependent (low high : Int)
  | reversible (before : StateId) (earlier later : Int)
deriving DecidableEq

/-- The text of a failure. -/
def Failure.text : Failure → String
  | enabled s => s!"enabled {s.text}"
  | dependent low high => s!"dependent {low} {high}"
  | reversible s earlier later => s!"reversible {s.text} {earlier} {later}"

/-- Whether a list has a pair in either order. -/
def eitherOrder (pairs : List (Int × Int)) (x y : Int) : Bool :=
  pairs.contains (x, y) || pairs.contains (y, x)

namespace Relations

variable (r : Relations)

/-- Whether the order of two actions matters. -/
def isDependent (a b : Labelled) : Except Failure Bool :=
  let x := a.operation
  let y := b.operation
  if eitherOrder r.dependentFails x y then throw (.dependent (min x y) (max x y))
  else pure (a.process == b.process || eitherOrder r.dependent x y)

/-- Whether a later action could come before an earlier one. -/
def isReversible (before : State) (earlier later : Labelled) : Except Failure Bool :=
  let x := earlier.operation
  let y := later.operation
  if r.reversibleFails.contains (x, y) then throw (.reversible before.id x y)
  else pure (!r.irreversible.contains (x, y) && !r.irreversibleAt.contains (before.id, x, y))

/-- The transition system of a table. -/
def system : System State Labelled Failure where
  enabled s := match s.enabled with
    | some actions => pure actions
    | none => throw (.enabled s.id)
  dependent := r.isDependent
  reversible := r.isReversible
  processes := State.processes
  heldLocks := State.locks
  isBlockedBy a lock := r.blocked.contains (a.operation, lock)
  isBottom := State.isBottom

end Relations

/-! ## Trees -/

/-- The tree of a table. -/
abbrev Tree : Type := SearchTree State Labelled

/-- A row of the table of nodes. -/
structure Row where
  parent : Option NodeId
  action : Option Labelled
  state : State
  /-- Whether the node is among the children of its parent. -/
  attached : Bool

/-- The tree of a list of rows; the nodes are numbered as the rows are. -/
def treeOf (rows : List Row) : Tree :=
  let numbered := rows.zipIdx
  let childrenOf (n : NodeId) : List NodeId :=
    numbered.filterMap fun (row, i) => if row.attached && row.parent == some n then some ⟨i⟩ else none
  ⟨(numbered.map fun (row, i) =>
    { SearchTree.Node.fresh row.parent row.action row.state row.state.id with
      children := childrenOf ⟨i⟩ }).toArray⟩

namespace Tree

/-- Makes a node the last child of its parent, unless it is a child already. -/
def attach (t : Tree) (n : NodeId) : Tree :=
  match t.parent n with
  | some p => t.modify p fun e =>
      if e.children.contains n then e else { e with children := e.children ++ [n] }
  | none => t

/-- Takes a node out of the children of its parent. -/
def detach (t : Tree) (n : NodeId) : Tree :=
  match t.parent n with
  | some p => t.modify p fun e => { e with children := e.children.filter (· != n) }
  | none => t

/-- Gives a node another state. -/
def move (t : Tree) (n : NodeId) (state : State) : Tree :=
  t.modify n fun e => { e with state, stateId := state.id }

/-- Says whether the state of a node can be reached. -/
def setFeasible (t : Tree) (n : NodeId) (feasible : Bool) : Tree :=
  t.modify n fun e => { e with feasible }

/-- The child of a node by an action is the first node of the table that has them as its parent and,
by key, its action, whether it is attached or not; it is attached by that. -/
def grow : Search.Growth State Labelled := fun n action t =>
  let leadsTo (c : NodeId) : Bool :=
    t.parent c == some n && (t.action c).any fun a => Action.key a == Action.key action
  match t.ids.find? leadsTo with
  | some child => (some child, attach t child)
  | none => (none, t)

end Tree

end Tabulated
end Interleaving
