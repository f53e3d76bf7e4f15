import Interleaving.Action
import Interleaving.Keyed
import Interleaving.Random.Choice

/-!
# Sets of actions

A set holds at most one action of each key, the one that came first. Comparisons look at keys only;
the payloads are along for the ride.
-/

namespace Interleaving

/-- A finite set of actions in key order. -/
abbrev ActionSet (α : Type) [Action α] : Type := Keyed (@Action.key α _)

namespace ActionSet

variable {α : Type} [Action α]

/-- Whether the set has an action with the key of `a`. -/
def contains (s : ActionSet α) (a : α) : Bool := s.hasKey (Action.key a)

/-- The set without the action that has the key of `a`. -/
def remove (s : ActionSet α) (a : α) : ActionSet α := s.erase (Action.key a)

/-- Whether two sets have the same keys. -/
def sameKeys (s t : ActionSet α) : Bool := s.size == t.size && s.isSubset t

/-- The actions of process `p`. -/
def ofProcess (s : ActionSet α) (p : ProcessId) : ActionSet α :=
  s.filter fun a => Action.process a == p

/-- An action of the set, chosen by a source that is not asked if there is none. A source that
answers out of range chooses nothing. -/
def choose {χ : Type} [ChoiceSource χ] (s : ActionSet α) (source : χ) : Option α × χ :=
  if s.isEmpty then (none, source)
  else
    let (index, source) := ChoiceSource.pick source s.size
    (s.toList[index]?, source)

/-- The form in messages: the texts of the actions between braces. -/
def text (s : ActionSet α) (textOf : α → String) : String :=
  "\x7b" ++ ", ".intercalate (s.toList.map textOf) ++ "\x7d"

end ActionSet

end Interleaving
