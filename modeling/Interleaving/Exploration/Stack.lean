import Interleaving.Action
import Interleaving.Keyed

/-!
# The search stack

The stack follows a path of the search tree from its root. Each frame remembers which action led to
its node and, in clocks, which earlier frames come before the last action of each process by a chain
of dependent actions.
-/

namespace Interleaving

/-- For each process, the latest index of the stack that counts. -/
abbrev Clock : Type := SortedMap ProcessId Nat

/-- The pointwise later of two clocks. -/
def Clock.join (c d : Clock) : Clock :=
  d.toList.foldl (fun c e => SortedMap.put c e.1 (max (SortedMap.getD c e.1 0) e.2)) c

/-- A frame of the search stack. -/
structure Frame (α : Type) where
  /-- The node of the search tree. -/
  node : NodeId
  /-- The action that led to the node; the root has none. -/
  action : Option α
  /-- The index of the last action of each process. -/
  lastAction : Clock
  /-- For each process, the latest actions that come before its last one, itself included. -/
  clocks : SortedMap ProcessId Clock
  /-- The index at which each lock held has been acquired. -/
  locks : SortedMap LockId Nat
deriving DecidableEq, Inhabited

namespace Frame

variable {α : Type}

/-- The frame of a root: without action and without history. -/
def root (node : NodeId) : Frame α := ⟨node, none, ∅, ∅, ∅⟩

/-- The locks acquired at an index and still held. -/
def locksAcquiredAt (f : Frame α) (index : Nat) : List LockId :=
  (f.locks.toList.filter (·.2 == index)).map Prod.fst

/-- Releases a lock. -/
def release (f : Frame α) (lock : LockId) : Frame α := { f with locks := f.locks.erase lock }

/-- Whether every process that has acted has a clock, and no such clock reaches below `limit`: then
nothing that is below can race with what the processes do next. -/
def isCutOffFrom (f : Frame α) (limit : Nat) : Bool :=
  f.lastAction.keys.all fun p =>
    match SortedMap.get? f.clocks p with
    | some clock => clock.toList.all fun e => limit ≤ e.2
    | none => false

end Frame

/-- The frames from the root, at index 0, to the current node. -/
structure SearchStack (α : Type) where
  frames : Array (Frame α) := #[]
deriving DecidableEq, Inhabited

namespace SearchStack

variable {α : Type}

/-- The number of frames. -/
def size (s : SearchStack α) : Nat := s.frames.size

/-- Whether there is no frame. -/
def isEmpty (s : SearchStack α) : Bool := s.frames.isEmpty

/-- The frame at an index. -/
def frame? (s : SearchStack α) (index : Nat) : Option (Frame α) := s.frames[index]?

/-- The frame of the current node. -/
def top? (s : SearchStack α) : Option (Frame α) := s.frames.back?

/-- The current node. -/
def topNode? (s : SearchStack α) : Option NodeId := s.top?.map Frame.node

/-- The nodes from the root to the current one. -/
def nodes (s : SearchStack α) : List NodeId := s.frames.toList.map Frame.node

/-- The first index at which a node stands. -/
def position? (s : SearchStack α) (n : NodeId) : Option Nat :=
  s.frames.findIdx? fun f => f.node == n

/-- Puts a frame on top. -/
def push (s : SearchStack α) (f : Frame α) : SearchStack α := ⟨s.frames.push f⟩

/-- Removes the top frame. -/
def pop (s : SearchStack α) : SearchStack α := ⟨s.frames.pop⟩

/-- Keeps the lowest frames only, as many as given. -/
def truncate (s : SearchStack α) (size : Nat) : SearchStack α := ⟨s.frames.take size⟩

/-- Changes the frame at an index. -/
def modify (s : SearchStack α) (index : Nat) (f : Frame α → Frame α) : SearchStack α :=
  ⟨s.frames.modify index f⟩

/-- Releases a lock in the frame that acquired it, as far as the top frame knows one. -/
def releaseWhereAcquired (s : SearchStack α) (lock : LockId) : SearchStack α :=
  match s.top?.bind fun f => SortedMap.get? f.locks lock with
  | some index => s.modify index (·.release lock)
  | none => s

/-- Removes frames until `node` is on top, at most as many as given. -/
def unwind (node : Option NodeId) : Nat → SearchStack α → SearchStack α
  | 0, s => s
  | excess + 1, s => if s.topNode? = node then s else unwind node excess s.pop

/-- Removes frames until `node` is on top or only `size` frames are left. -/
def unwindTo (s : SearchStack α) (size : Nat) (node : Option NodeId) : SearchStack α :=
  unwind node (s.size - size) s

end SearchStack

end Interleaving
