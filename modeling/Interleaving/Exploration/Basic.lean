import Interleaving.Exploration.Counters
import Interleaving.Exploration.Decoration
import Interleaving.Exploration.Failure
import Interleaving.Exploration.Stack
import Interleaving.SearchTree
import Interleaving.Settings
import Interleaving.System

/-!
# Explorations

An exploration walks through the runs of a transition system so that, of all runs that differ only
in the order of independent actions, it completes as few as it can. It owns a search stack, the
decorations of states, counters and a source of choices; the transition system and the search tree
belong to the caller and are only read.

An operation that ends without an answer keeps the changes made up to then.
-/

namespace Interleaving

/-- What an exploration reads and never changes. -/
structure Context (σ α ε : Type) where
  system : System σ α ε
  tree : SearchTree σ α
  settings : Settings

/-- An exploration of actions `α` with choices from `χ`. -/
structure Exploration (α χ : Type) [Action α] where
  stack : SearchStack α := {}
  table : DecorationTable α := {}
  counters : Counters := {}
  choices : χ

/-- An operation of an exploration. -/
abbrev ExploreM (α χ ε : Type) [Action α] : Type → Type := EStateM (Halt ε) (Exploration α χ)

namespace Exploration

variable {σ α χ ε : Type} [Action α]

/-- An exploration that has not started. -/
def ofChoices (choices : χ) : Exploration α χ := { choices }

/-! ## Questions -/

/-- The node with a number; there has to be one. -/
def lookUp (ctx : Context σ α ε) (n : NodeId) : ExploreM α χ ε (SearchTree.Node σ α) :=
  match ctx.tree.node? n with
  | some entry => pure entry
  | none => throw (.defect (.unknownNode n))

/-- An answer of the transition system; a failure to answer is an error of the operation. -/
def ask {β : Type} : Except ε β → ExploreM α χ ε β
  | .ok b => pure b
  | .error cause => throw (.error (.query cause))

/-- The actions enabled at a node. -/
def enabledAt (ctx : Context σ α ε) (entry : SearchTree.Node σ α) :
    ExploreM α χ ε (ActionSet α) := do
  pure (Keyed.ofList (← ask (ctx.system.enabled entry.state)))

/-! ## Changes -/

/-- Advances the counters. -/
def count (f : Counters → Counters) : ExploreM α χ ε Unit :=
  modify fun x => { x with counters := f x.counters }

/-- Changes the search stack. -/
def updateStack (f : SearchStack α → SearchStack α) : ExploreM α χ ε Unit :=
  modify fun x => { x with stack := f x.stack }

/-- Changes the decorations. -/
def updateTable (f : DecorationTable α → DecorationTable α) : ExploreM α χ ε Unit :=
  modify fun x => { x with table := f x.table }

/-- Changes the decoration of a state. -/
def decorate (s : StateId) (f : Decoration α → Decoration α) : ExploreM α χ ε Unit :=
  updateTable fun t => t.update s f

/-! ## Choices -/

/-- A choice among `count` possibilities. -/
def pick [ChoiceSource χ] (count : Nat) : ExploreM α χ ε Nat :=
  modifyGet fun x =>
    let (index, choices) := ChoiceSource.pick x.choices count
    (index, { x with choices })

/-- A choice among the actions of a set. -/
def choose [ChoiceSource χ] (s : ActionSet α) : ExploreM α χ ε (Option α) :=
  modifyGet fun x =>
    let (action, choices) := s.choose x.choices
    (action, { x with choices })

end Exploration

end Interleaving
