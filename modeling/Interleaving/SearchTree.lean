import Interleaving.Action

/-!
# `SearchTree`: the tree of explored runs

Nodes stand in the order of their creation and are never removed. A node knows its parent, the
action that leads to it, its state and its children. A node may be covered by another one, which
then answers for everything below it; pruning takes a whole subtree out of the tree.
-/

namespace Interleaving

/-- A node of a search tree. -/
structure SearchTree.Node (σ α : Type) where
  parent : Option NodeId
  /-- The action on the edge from the parent. -/
  action : Option α
  state : σ
  /-- The identity of the state. -/
  stateId : StateId
  /-- The children, in the order of their edges. -/
  children : List NodeId
  /-- The node that covers this one. -/
  covering : Option NodeId
  /-- Whether the state can be reached. -/
  feasible : Bool
  /-- Whether the successors have been computed. -/
  expanded : Bool
  /-- Whether the node has been taken out of the tree. -/
  pruned : Bool
deriving Inhabited

namespace SearchTree.Node

variable {σ α : Type}

/-- A node that nothing is known about but where it stands. -/
def fresh (parent : Option NodeId) (action : Option α) (state : σ) (stateId : StateId) : Node σ α :=
  { parent, action, state, stateId, children := [], covering := none, feasible := true,
    expanded := false, pruned := false }

/-- Whether the node is covered. -/
def isCovered (n : Node σ α) : Bool := n.covering.isSome

/-- Whether the node needs no exploration of its own. -/
def isSubsumed (n : Node σ α) : Bool := n.isCovered || !n.feasible

end SearchTree.Node

/-- A search tree: its nodes by number. -/
structure SearchTree (σ α : Type) where
  nodes : Array (SearchTree.Node σ α)
deriving Inhabited

namespace SearchTree

variable {σ α : Type}

/-- The tree of a single node. -/
def singleton (state : σ) : SearchTree σ α := ⟨#[.fresh none none state ⟨0⟩]⟩

/-- The node that a tree starts from. -/
def root : NodeId := ⟨0⟩

/-- The number of nodes ever made. -/
def size (t : SearchTree σ α) : Nat := t.nodes.size

/-- The node with a number. -/
def node? (t : SearchTree σ α) (n : NodeId) : Option (Node σ α) := t.nodes[n.index]?

/-- All nodes ever made, in order. -/
def ids (t : SearchTree σ α) : List NodeId := (List.range t.size).map NodeId.mk

/-- Changes a node. -/
def modify (t : SearchTree σ α) (n : NodeId) (f : Node σ α → Node σ α) : SearchTree σ α :=
  ⟨t.nodes.modify n.index f⟩

/-- Changes every node. -/
def mapNodes (t : SearchTree σ α) (f : Node σ α → Node σ α) : SearchTree σ α := ⟨t.nodes.map f⟩

/-! ## Navigation -/

/-- The parent of a node. -/
def parent (t : SearchTree σ α) (n : NodeId) : Option NodeId := (t.node? n).bind Node.parent

/-- The action that leads to a node. -/
def action (t : SearchTree σ α) (n : NodeId) : Option α := (t.node? n).bind Node.action

/-- The children of a node. -/
def children (t : SearchTree σ α) (n : NodeId) : List NodeId :=
  match t.node? n with
  | some e => e.children
  | none => []

/-- The nodes that have not been pruned. -/
def live (t : SearchTree σ α) : List NodeId :=
  t.ids.filter fun n => (t.node? n).any fun e => !e.pruned

/-- The live nodes that have no children and are not covered. -/
def leaves (t : SearchTree σ α) : List NodeId :=
  t.live.filter fun n => (t.node? n).any fun e => e.children.isEmpty && !e.isCovered

/-- The first node made before `n` that satisfies `p`. -/
def firstBefore (t : SearchTree σ α) (n : NodeId) (p : Node σ α → Bool) : Option NodeId :=
  ((t.nodes.findIdx? p).filter (· < n.index)).map NodeId.mk

/-- The first child of `n` whose action has the key of `a`. -/
def childWithAction [Action α] (t : SearchTree σ α) (n : NodeId) (a : α) : Option NodeId :=
  (t.children n).find? fun c => (t.action c).map Action.key == some (Action.key a)

/-- The node and its ancestors, at most as many as given, from the node upwards. -/
def upwards (t : SearchTree σ α) : Nat → NodeId → List NodeId
  | 0, _ => []
  | limit + 1, n =>
    match t.parent n with
    | some p => n :: t.upwards limit p
    | none => [n]

/-- The actions on the way from the top of the tree to a node. -/
def traceTo (t : SearchTree σ α) (n : NodeId) : List α :=
  ((t.upwards (t.size + 1) n).filterMap t.action).reverse

/-- The node and all nodes below it that are at most as many steps away as given. -/
def downwards (t : SearchTree σ α) : Nat → NodeId → List NodeId
  | 0, n => [n]
  | limit + 1, n => n :: (t.children n).flatMap (t.downwards limit)

/-- The subtree at a node. -/
def subtree (t : SearchTree σ α) (n : NodeId) : List NodeId := t.downwards t.size n

/-! ## Growth and change -/

/-- Adds a child reached by `action`, with a state identity of its own. -/
def addChild (t : SearchTree σ α) (parent : NodeId) (action : α) (state : σ) :
    NodeId × SearchTree σ α :=
  let child : NodeId := ⟨t.size⟩
  let grown : SearchTree σ α := ⟨t.nodes.push (.fresh (some parent) (some action) state ⟨t.size⟩)⟩
  (child, grown.modify parent fun e => { e with children := e.children ++ [child] })

/-- Records that the successors of a node have been computed, or that they have not. -/
def setExpanded (t : SearchTree σ α) (n : NodeId) (expanded : Bool) : SearchTree σ α :=
  t.modify n fun e => { e with expanded }

/-- Covers a node by another one, or uncovers it. -/
def setCovering (t : SearchTree σ α) (n : NodeId) (covering : Option NodeId) : SearchTree σ α :=
  t.modify n fun e => { e with covering }

/-- Takes nodes out of the tree: they are marked, and whatever they cover is uncovered. -/
def discard (t : SearchTree σ α) (dead : List NodeId) : SearchTree σ α :=
  let marked := dead.foldl (fun t n => t.modify n fun e => { e with pruned := true }) t
  marked.mapNodes fun e =>
    if e.covering.any dead.contains then { e with covering := none } else e

/-- Takes the subtree at a node out of the tree; the root itself stays, without what is below it.
The node above is no longer expanded. -/
def prune (t : SearchTree σ α) (n : NodeId) : SearchTree σ α :=
  if n = root then
    let dead := (t.children n).flatMap t.subtree
    let bare := t.modify n fun e => { e with children := [], covering := none, expanded := false }
    bare.discard dead
  else
    let dead := t.subtree n
    let detached := match t.parent n with
      | some p => t.modify p fun e => { e with children := e.children.filter (· != n), expanded := false }
      | none => t
    detached.discard dead

end SearchTree

end Interleaving
