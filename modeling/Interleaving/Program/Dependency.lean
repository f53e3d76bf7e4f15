import Interleaving.Program.Basic
import Interleaving.System

/-!
# Dependent steps

Two steps are dependent if they belong to one thread, if one of them enters or leaves an atomic
block or spawns the thread of the other, if they use the same mutex, or if they access the same
variable and one of them writes. A precision restricts the last case to the variables that it tracks,
as an abstraction would.
-/

namespace Interleaving

/-- The variables whose conflicts count; without a set, all do. -/
abbrev Precision : Type := Option (SortedSet String)

/-- Whether a precision tracks a variable. -/
def Precision.tracks (precision : Precision) (var : String) : Bool :=
  match precision with
  | none => true
  | some vars => vars.hasKey var

namespace Step

/-- Whether a step spawns the thread of another. -/
def spawns (a b : Step) : Bool := a.instr == .spawn b.process

/-- Whether two steps use the same mutex. -/
def shareMutex (a b : Step) : Bool :=
  match a.instr.mutex, b.instr.mutex with
  | some m, some n => m == n
  | _, _ => false

/-- Whether two steps access the same tracked variable and one of them writes. -/
def conflict (precision : Precision) (a b : Step) : Bool :=
  match a.instr.access, b.instr.access with
  | some (x, writesA), some (y, writesB) => x == y && (writesA || writesB) && precision.tracks x
  | _, _ => false

/-- Whether the order of two steps matters. -/
def dependent (precision : Precision) (a b : Step) : Bool :=
  a.process == b.process
    || a.instr.isAtomicBoundary || b.instr.isAtomicBoundary
    || a.spawns b || b.spawns a
    || a.shareMutex b
    || conflict precision a b

/-- Whether `later` could come before `earlier`, given the state before `earlier`: not if the thread
of `earlier` holds the lock that `later` needs. -/
def reversible (before : ProgramState) (earlier later : Step) : Bool :=
  match later.instr.neededLock with
  | some lock => before.holder lock != some earlier.process
  | none => true

/-- Whether a step needs a lock. -/
def isBlockedBy (a : Step) (lock : LockId) : Bool := a.instr.neededLock == some lock

end Step

/-- A program as a transition system. It answers every question, so nothing is ever a failure. -/
def Program.system (p : Program) (precision : Precision) : System ProgramState Step Empty where
  enabled s := pure (p.enabled s)
  dependent a b := pure (Step.dependent precision a b)
  reversible before earlier later := pure (Step.reversible before earlier later)
  processes s := s.active
  heldLocks s := Keyed.ofList s.locks.keys
  isBlockedBy := Step.isBlockedBy
  isBottom _ := false

end Interleaving
