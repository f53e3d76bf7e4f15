import Interleaving.Action
import Interleaving.Keyed

/-!
# Transition systems

What an exploration asks of the program it explores. Questions about actions may fail, for instance
in a decision procedure; the failure is a value of a type chosen by the system.
-/

namespace Interleaving

/-- A transition system with states `σ`, actions `α` and failures `ε`. -/
structure System (σ α ε : Type) where
  /-- The actions that can be performed in a state. -/
  enabled : σ → Except ε (List α)
  /-- Whether the order of two actions matters. -/
  dependent : α → α → Except ε Bool
  /-- Whether a later action could also come before an earlier one, given the state in which the
  earlier one was performed. A lock held across the earlier action can rule that out. -/
  reversible : σ → α → α → Except ε Bool
  /-- The processes that exist in a state. -/
  processes : σ → SortedSet ProcessId
  /-- The locks held in a state. -/
  heldLocks : σ → SortedSet LockId
  /-- Whether an action cannot be performed while another process holds a lock. -/
  isBlockedBy : α → LockId → Bool
  /-- Whether a state is the bottom state, which no run reaches. -/
  isBottom : σ → Bool

end Interleaving
