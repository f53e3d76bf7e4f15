import Interleaving.Action.Set
import Std.Data.ExtTreeMap
import Std.Data.ExtTreeSet

/-!
# Decorations of states

Each explored state carries three sets of actions: those required from it, those known to be
redundant, and those taken. They belong to the state and outlive the search stack, so that a later
round can use what an earlier one has found; only the marks of visited states belong to a round.
-/

namespace Interleaving

/-- What an exploration knows about a state. -/
structure Decoration (α : Type) [Action α] where
  /-- The actions required from the state. -/
  backtrack : ActionSet α := ∅
  /-- The actions that would explore nothing new in the current visit. -/
  sleep : ActionSet α := ∅
  /-- The actions taken in the current visit. -/
  explored : ActionSet α := ∅

namespace Decoration

variable {α : Type} [Action α]

instance : Inhabited (Decoration α) := ⟨{}⟩

/-- The required actions that are not redundant. -/
def offerable (d : Decoration α) : ActionSet α := d.backtrack.difference d.sleep

/-- The redundant actions that have not been taken. -/
def asleep (d : Decoration α) : ActionSet α := d.sleep.difference d.explored

/-- Requires an action. -/
def require (d : Decoration α) (a : α) : Decoration α :=
  { d with backtrack := d.backtrack.insert a }

/-- Records that an action is taken: after that it is redundant. -/
def take (d : Decoration α) (a : α) : Decoration α :=
  { d with sleep := d.sleep.insert a, explored := d.explored.insert a }

/-- Takes an action, and requires it together with every enabled action of its process. -/
def takeAmong (d : Decoration α) (enabled : ActionSet α) (a : α) : Decoration α :=
  let required := d.backtrack.union (enabled.ofProcess (Action.process a))
  ({ d with backtrack := required }.require a).take a

end Decoration

/-- The decorations of all states seen, and the states visited in the current round. Both grow with
the search, so both are kept in balanced trees; tables with the same entries are equal all the same. -/
structure DecorationTable (α : Type) [Action α] where
  entries : Std.ExtTreeMap StateId (Decoration α) := ∅
  visited : Std.ExtTreeSet StateId := ∅

namespace DecorationTable

variable {α : Type} [Action α]

instance : Inhabited (DecorationTable α) := ⟨{}⟩

/-- The decoration of a state, if the state has been seen. -/
def get? (t : DecorationTable α) (s : StateId) : Option (Decoration α) := t.entries[s]?

/-- The decoration of a state, empty if the state has not been seen. -/
def get (t : DecorationTable α) (s : StateId) : Decoration α := (t.get? s).getD {}

/-- The redundant actions of a state. -/
def sleep (t : DecorationTable α) (s : StateId) : ActionSet α := (t.get s).sleep

/-- The actions that may be offered at a state. -/
def offerable (t : DecorationTable α) (s : StateId) : ActionSet α := (t.get s).offerable

/-- Sets the decoration of a state. -/
def reset (t : DecorationTable α) (s : StateId) (d : Decoration α) : DecorationTable α :=
  { t with entries := t.entries.insert s d }

/-- Changes the decoration of a state. A state that has not been seen counts as seen from then on,
even if its sets stay empty. -/
def update (t : DecorationTable α) (s : StateId) (f : Decoration α → Decoration α) :
    DecorationTable α :=
  t.reset s (f (t.get s))

/-- Whether a state has been visited in the current round. -/
def isVisited (t : DecorationTable α) (s : StateId) : Bool := t.visited.contains s

/-- Marks a state as visited in the current round. -/
def markVisited (t : DecorationTable α) (s : StateId) : DecorationTable α :=
  { t with visited := t.visited.insert s }

/-- Forgets which states have been visited. -/
def clearRound (t : DecorationTable α) : DecorationTable α := { t with visited := ∅ }

/-- The number of states seen. -/
def size (t : DecorationTable α) : Nat := t.entries.size

/-- Whether no state has been seen. -/
def isEmpty (t : DecorationTable α) : Bool := t.entries.isEmpty

/-! ## What a change shows -/

@[simp] theorem get?_reset (t : DecorationTable α) (s s' : StateId) (d : Decoration α) :
    (t.reset s d).get? s' = if s = s' then some d else t.get? s' := by
  simp [get?, reset, Std.ExtTreeMap.getElem?_insert]

@[simp] theorem isVisited_reset (t : DecorationTable α) (s s' : StateId) (d : Decoration α) :
    (t.reset s d).isVisited s' = t.isVisited s' := rfl

@[simp] theorem get?_markVisited (t : DecorationTable α) (s s' : StateId) :
    (t.markVisited s).get? s' = t.get? s' := rfl

@[simp] theorem isVisited_markVisited (t : DecorationTable α) (s s' : StateId) :
    (t.markVisited s).isVisited s' ↔ s = s' ∨ t.isVisited s' := by
  simp [isVisited, markVisited, Std.ExtTreeSet.contains_insert]

@[simp] theorem get?_clearRound (t : DecorationTable α) (s : StateId) :
    t.clearRound.get? s = t.get? s := rfl

@[simp] theorem isVisited_clearRound (t : DecorationTable α) (s : StateId) :
    t.clearRound.isVisited s = false := by
  simp [isVisited, clearRound]

end DecorationTable

end Interleaving
