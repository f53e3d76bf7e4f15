import Interleaving.Action

/-!
# Instructions and steps

The instructions of a thread, and the step that a thread makes by performing the instruction at its
program counter.
-/

namespace Interleaving

/-- An instruction of a thread. -/
inductive Instr where
  /-- Reads a shared variable and keeps the value observed. -/
  | read (var : String)
  /-- Writes a number to a shared variable. -/
  | write (var : String) (value : Int)
  /-- Acquires a mutex; it has to be free. -/
  | lock (mutex : String)
  /-- Releases a mutex; the thread has to hold it. -/
  | unlock (mutex : String)
  /-- Enters an atomic block: no other thread runs until it is left. -/
  | atomicBegin
  /-- Leaves an atomic block. -/
  | atomicEnd
  /-- Makes a dormant thread run. -/
  | spawn (thread : ProcessId)
  /-- Does nothing that another thread could notice. -/
  | idle
deriving DecidableEq, Inhabited

namespace Instr

/-- The shared variable accessed, and whether the access is a write. -/
def access : Instr → Option (String × Bool)
  | read var => some (var, false)
  | write var _ => some (var, true)
  | _ => none

/-- The mutex acquired or released. -/
def mutex : Instr → Option String
  | lock m => some m
  | unlock m => some m
  | _ => none

/-- The lock that has to be free for the instruction to run. -/
def neededLock : Instr → Option LockId
  | lock m => some (.named m)
  | atomicBegin => some .atomic
  | _ => none

/-- Whether the instruction enters or leaves an atomic block. -/
def isAtomicBoundary : Instr → Bool
  | atomicBegin => true
  | atomicEnd => true
  | _ => false

/-- The form in messages. -/
def text : Instr → String
  | read var => "r " ++ var
  | write var value => s!"w {var}={value}"
  | lock m => "lock " ++ m
  | unlock m => "unlock " ++ m
  | atomicBegin => "atomic \x7b"
  | atomicEnd => "\x7d"
  | spawn thread => "spawn " ++ thread.text
  | idle => "local"

end Instr

/-- The step of a thread that performs the instruction at a program counter. -/
structure Step where
  process : ProcessId
  pc : Nat
  instr : Instr
deriving DecidableEq, Inhabited

namespace Step

instance : Action Step where
  Operation := Nat
  process := process
  operation := pc

/-- The form in messages, such as `P0@2: w x=1`. -/
def text (s : Step) : String := s!"{s.process.text}@{s.pc}: {s.instr.text}"

/-- The process and the program counter, such as `0:2`. -/
def shortText (s : Step) : String := s!"{s.process.index}:{s.pc}"

end Step

end Interleaving
