import Interleaving.Exploration.Agenda

/-!
# `Search`: an exploration with the tree that it works on

A search owns its tree and lets it grow: it takes the current node, asks for an action, and adds the
child that the action leads to.
-/

namespace Interleaving

/-- A search over states `σ` and actions `α` with choices from `χ`. -/
structure Search (σ α χ : Type) [Action α] where
  settings : Settings
  /-- The seed of the choices, if they have one. -/
  seed : Option UInt64
  tree : SearchTree σ α
  exploration : Exploration α χ

/-- An operation of a search. What has changed before a halt stays changed. -/
abbrev SearchM (σ α χ ε : Type) [Action α] : Type → Type := EStateM (Halt ε) (Search σ α χ)

namespace Search

variable {σ α χ ε β : Type} [Action α]

/-- A search that has not started. -/
def ofChoices (settings : Settings) (seed : Option UInt64) (choices : χ) (tree : SearchTree σ α) :
    Search σ α χ :=
  { settings, seed, tree, exploration := .ofChoices choices }

/-- The form in messages. -/
def text [ChoiceSource χ] (s : Search σ α χ) : String :=
  let fields (entries : List (String × String)) :=
    ", ".intercalate (entries.map fun e => e.1 ++ ": " ++ e.2)
  let seedText : Option UInt64 → String
    | some seed => s!"Some({seed})"
    | none => "None"
  let switches := fields [("seed", seedText s.settings.seed),
    ("lazy_reexploration", toString s.settings.lazyReexploration),
    ("virtual_exploration", toString s.settings.virtualExploration)]
  let x := s.exploration
  let counters := fields (x.counters.named.map fun e => (e.1, toString e.2))
  let own := fields [("config", "ExplorerConfig \x7b " ++ switches ++ " \x7d"),
    ("seed", seedText s.seed), ("choice", "\"" ++ ChoiceSource.label x.choices ++ "\""),
    ("stack", toString x.stack.size), ("states", toString x.table.size),
    ("stats", "ExplorationStats \x7b " ++ counters ++ " \x7d")]
  "Explorer \x7b " ++ own ++ ", .. \x7d"

/-! ## Operations -/

/-- An operation of the exploration, with the tree as it is. -/
def explore (system : System σ α ε) (op : Context σ α ε → ExploreM α χ ε β) :
    SearchM σ α χ ε β := fun ⟨settings, seed, tree, exploration⟩ =>
  match op { system, tree, settings } exploration with
  | .ok b exploration => .ok b ⟨settings, seed, tree, exploration⟩
  | .error h exploration => .error h ⟨settings, seed, tree, exploration⟩

/-- Changes the tree, with an answer. -/
def modifyTree (f : SearchTree σ α → β × SearchTree σ α) : SearchM σ α χ ε β :=
  modifyGet fun ⟨settings, seed, tree, exploration⟩ =>
    let (b, tree) := f tree
    (b, ⟨settings, seed, tree, exploration⟩)

/-- Changes the tree. -/
def updateTree (f : SearchTree σ α → SearchTree σ α) : SearchM σ α χ ε Unit :=
  modifyTree fun tree => ((), f tree)

/-- The node with a number; there has to be one. -/
def lookUp (n : NodeId) : SearchM σ α χ ε (SearchTree.Node σ α) := do
  match (← get).tree.node? n with
  | some entry => pure entry
  | none => throw (.defect (.unknownNode n))

/-- The answer of an operation or its error; a defect still halts. -/
def attempt (op : SearchM σ α χ ε β) : SearchM σ α χ ε (Except (ExploreError ε) β) := fun s =>
  match op s with
  | .ok b s => .ok (.ok b) s
  | .error (.error e) s => .ok (.error e) s
  | .error h s => .error h s

/-! ## Turns -/

/-- What a turn of a search came to. -/
inductive Turn (α ε : Type) where
  /-- There was no current node. -/
  | idle (e : ExploreError ε)
  /-- The current node did not tell its next action. -/
  | silent (node : NodeId) (e : ExploreError ε)
  /-- Nothing could be offered at the node. -/
  | exhausted (node : NodeId)
  /-- The action offered leads to no node. -/
  | childless (node : NodeId) (action : α)
  /-- The child was added; the flag tells whether it was not on the stack. -/
  | added (node : NodeId) (action : α) (child : NodeId) (isNew : Bool)
  /-- The child could not be added. -/
  | refused (node : NodeId) (action : α) (child : NodeId) (e : ExploreError ε)

/-- Whether no further turn follows. -/
def Turn.isLast : Turn α ε → Bool
  | idle _ => true
  | silent _ _ => true
  | refused _ _ _ _ => true
  | _ => false

/-- How a tree answers for the child of a node by an action, if there is one, and grows by that. -/
abbrev Growth (σ α : Type) : Type :=
  NodeId → α → SearchTree σ α → Option NodeId × SearchTree σ α

variable [ChoiceSource χ]

/-- One turn at the current node, which counts as expanded from then on. -/
def turnAt (system : System σ α ε) (grow : Growth σ α) (node : NodeId) :
    SearchM σ α χ ε (Turn α ε) := do
  updateTree (·.setExpanded node true)
  let entry ← lookUp node
  match ← attempt (explore system (Exploration.nextAction · entry.stateId)) with
  | .error e => pure (.silent node e)
  | .ok none => pure (.exhausted node)
  | .ok (some action) =>
    match ← modifyTree (grow node action) with
    | none => pure (.childless node action)
    | some child =>
      match ← attempt (explore system (Exploration.add · child)) with
      | .error e => pure (.refused node action child e)
      | .ok isNew => pure (.added node action child isNew)

/-- One turn: takes the current node, performs the action offered there, and adds the child. -/
def turn (system : System σ α ε) (grow : Growth σ α) : SearchM σ α χ ε (Turn α ε) := do
  match ← attempt (explore system Exploration.remove) with
  | .error e => pure (.idle e)
  | .ok node => turnAt system grow node

/-- As many turns as given, up to the first one that is the last. -/
def turns (system : System σ α ε) (grow : Growth σ α) : Nat → SearchM σ α χ ε (List (Turn α ε))
  | 0 => pure []
  | count + 1 => do
    let t ← turn system grow
    if t.isLast then pure [t]
    else return t :: (← turns system grow count)

end Search

end Interleaving
