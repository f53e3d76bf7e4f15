import Interleaving.Identifier

/-!
# Actions

An action is what one process does in one step. Explorations tell actions apart by their keys only:
the process, and a handle that stands for the operation. What else an action carries is payload.
-/

namespace Interleaving

/-- Types of actions. -/
class Action (α : Type) where
  /-- The handles of operations. -/
  Operation : Type
  [decidableEq : DecidableEq Operation]
  [ord : Ord Operation]
  [transOrd : Std.TransOrd Operation]
  [lawfulEqOrd : Std.LawfulEqOrd Operation]
  [toText : ToString Operation]
  /-- The process that performs the action. -/
  process : α → ProcessId
  /-- The operation performed. -/
  operation : α → Operation

attribute [reducible, instance] Action.decidableEq Action.ord Action.toText
attribute [instance] Action.transOrd Action.lawfulEqOrd

/-- What identifies an action, if operations have handles of type `ω`; numbers, unless said. -/
structure ActionKey (ω : Type := Int) where
  process : ProcessId
  operation : ω
deriving DecidableEq, Inhabited

namespace ActionKey

variable {ω : Type} [Ord ω]

/-- Keys are ordered by process first. -/
instance : Ord (ActionKey ω) := ⟨compareLex (compareOn process) (compareOn operation)⟩

instance [Std.TransOrd ω] : Std.TransOrd (ActionKey ω) :=
  inferInstanceAs (Std.TransCmp (compareLex (compareOn process) (compareOn operation)))

instance [Std.LawfulEqOrd ω] : Std.LawfulEqOrd (ActionKey ω) where
  compare_self := compareLex_eq_eq.2 ⟨Std.ReflOrd.compare_self, Std.ReflOrd.compare_self⟩
  eq_of_compare {a b} h := by
    obtain ⟨h₁, h₂⟩ := compareLex_eq_eq.1 h
    cases a; cases b
    exact congr (congrArg mk (Std.LawfulEqOrd.eq_of_compare h₁)) (Std.LawfulEqOrd.eq_of_compare h₂)

/-- The form in messages, such as `P0:2`. -/
def text {ω : Type} [ToString ω] (k : ActionKey ω) : String := s!"{k.process.text}:{k.operation}"

end ActionKey

/-- The order of the keys of actions, in one step from the type of the actions. -/
instance Action.transOrdKey {α : Type} [Action α] : Std.TransOrd (ActionKey (Operation α)) :=
  inferInstance

/-- The key of an action. -/
def Action.key {α : Type} [Action α] (a : α) : ActionKey (Operation α) :=
  ⟨process a, operation a⟩

/-! ## Labelled actions -/

/-- An action that is nothing but its key and a label. -/
structure Labelled where
  process : ProcessId
  operation : Int
  label : String
deriving DecidableEq, Inhabited

namespace Labelled

instance : Action Labelled where
  Operation := Int
  process := process
  operation := operation

/-- The form in messages: `0:1'a'` is operation 1 of process 0, labelled `a`. -/
def text (a : Labelled) : String := s!"{a.process.index}:{a.operation}'{a.label}'"

end Labelled

end Interleaving
