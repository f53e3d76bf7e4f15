import Interleaving.Program.Instr
import Interleaving.Program.State

/-!
# Programs

A program is a list of straight-line threads over shared variables, mutexes and atomic blocks. Some
threads run from the start, the others once they have been spawned. The semantics is small enough to
enumerate all interleavings.
-/

namespace Interleaving

/-! ## Single steps -/

namespace ProgramState

/-- Whether the locks of a state let a thread perform an instruction. -/
def allows (s : ProgramState) (q : ProcessId) : Instr → Bool
  | .lock m => s.holder (.named m) == none
  | .unlock m => s.holder (.named m) == some q
  | .atomicBegin => s.holder .atomic == none
  | .atomicEnd => s.holder .atomic == some q
  | _ => true

/-- Whether another thread is inside an atomic block. -/
def isExcluded (s : ProgramState) (q : ProcessId) : Bool :=
  match s.holder .atomic with
  | some h => h != q
  | none => false

/-- What an instruction of a thread does to a state, apart from the program counter. -/
def effect (s : ProgramState) (q : ProcessId) : Instr → ProgramState
  | .read x => { s with observed := s.observed.modify q.index (· ++ [s.var x]) }
  | .write x value => { s with vars := SortedMap.put s.vars x value }
  | .lock m => { s with locks := SortedMap.put s.locks (.named m) q }
  | .unlock m => { s with locks := s.locks.erase (.named m) }
  | .atomicBegin => { s with locks := SortedMap.put s.locks .atomic q }
  | .atomicEnd => { s with locks := s.locks.erase .atomic }
  | .spawn r => { s with active := s.active.insert r }
  | .idle => s

/-- The state after a step, which need not be one that can run. -/
def after (s : ProgramState) (a : Step) : ProgramState :=
  effect { s with pcs := s.pcs.modify a.process.index (· + 1) } a.process a.instr

/-- The state after a step, unless the program counter of the thread is the largest word. -/
def after? (s : ProgramState) (a : Step) : Option ProgramState :=
  if s.pcs[a.process.index]? = some (UInt64.size - 1) then none else some (s.after a)

end ProgramState

/-! ## Building programs -/

/-- A program: its threads, and which of them run from the start. -/
structure Program where
  threads : List (List Instr)
  initiallyActive : SortedSet ProcessId
deriving DecidableEq, Inhabited

namespace Program

/-- The program without threads. -/
def empty : Program := ⟨[], ∅⟩

/-- Adds a thread that runs from the start. -/
def thread (p : Program) (instrs : List Instr) : Program :=
  ⟨p.threads ++ [instrs], p.initiallyActive.insert ⟨p.threads.length⟩⟩

/-- Adds a thread that runs once it is spawned. -/
def dormantThread (p : Program) (instrs : List Instr) : Program :=
  { p with threads := p.threads ++ [instrs] }

/-- The number of threads. -/
def threadCount (p : Program) : Nat := p.threads.length

/-- The number of instructions of all threads. -/
def instrCount (p : Program) : Nat := p.threads.flatten.length

/-! ## Running programs -/

/-- The state before any step. -/
def initialState (p : Program) : ProgramState where
  pcs := List.replicate p.threadCount 0
  active := p.initiallyActive
  vars := ∅
  observed := List.replicate p.threadCount []
  locks := ∅

/-- The instruction at a program counter. -/
def instrAt (p : Program) (q : ProcessId) (pc : Nat) : Option Instr := do
  (← p.threads[q.index]?)[pc]?

/-- The next step of a thread, if it has one that can run. -/
def stepOf (p : Program) (s : ProgramState) (q : ProcessId) : Option Step := do
  guard (s.active.hasKey q)
  let pc ← s.pcs[q.index]?
  let instr ← p.instrAt q pc
  guard (!s.isExcluded q && s.allows q instr)
  pure ⟨q, pc, instr⟩

/-- The steps that can run in a state, in the order of the threads. -/
def enabled (p : Program) (s : ProgramState) : List Step := s.active.toList.filterMap (p.stepOf s)

/-! ## All interleavings -/

/-- The states one step away. -/
def successors (p : Program) (s : ProgramState) : List ProgramState := (p.enabled s).map s.after

/-- Whether no step can run. -/
def isTerminal (p : Program) (s : ProgramState) : Bool := (p.enabled s).isEmpty

/-- The terminal states at most as many steps away from a set of states as given. -/
def terminalsWithin (p : Program) : Nat → StateSet → StateSet
  | 0, states => states.filter p.isTerminal
  | steps + 1, states =>
    states.filter p.isTerminal ∪
      p.terminalsWithin steps (.ofList (states.toList.flatMap p.successors))

/-- The terminal states that can be reached. A step moves some thread past an instruction, so no run
has more steps than the program has instructions. -/
def terminalStates (p : Program) : StateSet := p.terminalsWithin p.instrCount {p.initialState}

end Program

end Interleaving
