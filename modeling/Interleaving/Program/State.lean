import Interleaving.Identifier
import Interleaving.Keyed
import Std.Data.ExtTreeSet

/-!
# States of a program

A state has one representation only, so states are equal as values exactly if they have the same
counters, threads, variables, observations and locks; and they are totally ordered.
-/

namespace Interleaving

/-- A state of a program. -/
structure ProgramState where
  /-- The program counter of each thread. -/
  pcs : List Nat
  /-- The threads that run. -/
  active : SortedSet ProcessId
  /-- The shared variables that have been written. -/
  vars : SortedMap String Int
  /-- The values that each thread has observed, in order. -/
  observed : List (List Int)
  /-- The holder of each lock held. -/
  locks : SortedMap LockId ProcessId
deriving DecidableEq, Inhabited

namespace ProgramState

/-- The value of a variable; one that has not been written is zero. -/
def var (s : ProgramState) (name : String) : Int := SortedMap.getD s.vars name 0

/-- The thread that holds a lock. -/
def holder (s : ProgramState) (lock : LockId) : Option ProcessId := SortedMap.get? s.locks lock

/-! ## Order -/

/-- Entries of a map are ordered by key first. -/
def compareEntries {κ β : Type} [Ord κ] [Ord β] : κ × β → κ × β → Ordering :=
  compareLex (compareOn Prod.fst) (compareOn Prod.snd)

/-- Maps are ordered by their entries, the first difference counting. -/
def compareMaps {κ β : Type} [Ord κ] [Ord β] (m n : SortedMap κ β) : Ordering :=
  List.compareLex compareEntries m.toList n.toList

instance {κ β : Type} [Ord κ] [Ord β] [Std.TransOrd κ] [Std.TransOrd β] :
    Std.TransCmp (@compareEntries κ β _ _) :=
  inferInstanceAs (Std.TransCmp (compareLex (compareOn Prod.fst) (compareOn Prod.snd)))

instance {κ β : Type} [Ord κ] [Ord β] [Std.LawfulEqOrd κ] [Std.LawfulEqOrd β] :
    Std.LawfulEqCmp (@compareEntries κ β _ _) where
  compare_self := compareLex_eq_eq.2 ⟨Std.ReflOrd.compare_self, Std.ReflOrd.compare_self⟩
  eq_of_compare h :=
    have ⟨h₁, h₂⟩ := compareLex_eq_eq.1 h
    Prod.ext (Std.LawfulEqOrd.eq_of_compare h₁) (Std.LawfulEqOrd.eq_of_compare h₂)

/-- States are ordered by counters, then threads, variables, observations and locks. -/
def order : ProgramState → ProgramState → Ordering :=
  compareLex (compareOn pcs) <|
  compareLex (compareOn fun s => s.active.toList) <|
  compareLex (fun s t => compareMaps s.vars t.vars) <|
  compareLex (compareOn observed) fun s t => compareMaps s.locks t.locks

/-- Comparing images under a function is comparing in a total preorder. -/
private theorem transCmp_image {α β : Type} (cmp : β → β → Ordering) [Std.TransCmp cmp]
    (f : α → β) : Std.TransCmp fun a b => cmp (f a) (f b) where
  eq_swap := Std.OrientedCmp.eq_swap
  isLE_trans := Std.TransCmp.isLE_trans

instance : Ord ProgramState := ⟨order⟩

instance : Std.TransOrd ProgramState := by
  have vars : Std.TransCmp fun s t : ProgramState => compareMaps s.vars t.vars :=
    transCmp_image (List.compareLex compareEntries) fun s : ProgramState => s.vars.toList
  have locks : Std.TransCmp fun s t : ProgramState => compareMaps s.locks t.locks :=
    transCmp_image (List.compareLex compareEntries) fun s : ProgramState => s.locks.toList
  show Std.TransCmp order
  unfold order
  infer_instance

instance : Std.LawfulEqOrd ProgramState where
  compare_self {s} := by
    show order s s = .eq
    unfold order compareMaps
    simp only [compareLex_eq_eq, compareOn, Std.ReflCmp.compare_self, and_self]
  eq_of_compare {s t} h := by
    have h : order s t = .eq := h
    unfold order compareMaps at h
    simp only [compareLex_eq_eq, compareOn] at h
    obtain ⟨pcs, active, vars, observed, locks⟩ := h
    cases s; cases t
    simp only [ProgramState.mk.injEq]
    exact ⟨Std.LawfulEqOrd.eq_of_compare pcs, Keyed.ext (Std.LawfulEqOrd.eq_of_compare active),
      Keyed.ext (Std.LawfulEqCmp.eq_of_compare vars), Std.LawfulEqOrd.eq_of_compare observed,
      Keyed.ext (Std.LawfulEqCmp.eq_of_compare locks)⟩

end ProgramState

/-- A finite set of states. -/
abbrev StateSet : Type := Std.ExtTreeSet ProgramState

end Interleaving
