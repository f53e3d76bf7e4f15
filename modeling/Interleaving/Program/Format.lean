import Interleaving.Identifier.Format
import Interleaving.Program.Basic

/-!
# JSON forms of programs, steps and states

An instruction is an object with its name as the only field, or the bare name if it has no operands.
Locks are written as their texts, so that they can be names of fields; the lock of atomic blocks
takes the place of a mutex with the same text.
-/

namespace Interleaving

/-! ## Instructions and steps -/

namespace Instr

/-- An instruction as JSON. -/
def toJson : Instr → Json
  | read x => .obj [("read", .str x)]
  | write x value => .obj [("write", .arr [.str x, .int value])]
  | lock m => .obj [("lock", .str m)]
  | unlock m => .obj [("unlock", .str m)]
  | atomicBegin => .str "atomic_begin"
  | atomicEnd => .str "atomic_end"
  | spawn thread => .obj [("spawn", thread.toJson)]
  | idle => .str "local"

/-- The instruction without operands that has a name. -/
def ofName? : String → Option Instr
  | "atomic_begin" => some atomicBegin
  | "atomic_end" => some atomicEnd
  | "local" => some idle
  | _ => none

/-- The instruction of a name and its operands; no operands may be written as `null`. -/
def ofField? : String → Json → Option Instr
  | "read", .str x => some (read x)
  | "write", .arr [.str x, value] => value.signed?.map (write x)
  | "lock", .str m => some (lock m)
  | "unlock", .str m => some (unlock m)
  | "spawn", thread => (ProcessId.ofJson? thread).map spawn
  | name, .null => ofName? name
  | _, _ => none

/-- An instruction from JSON. -/
def ofJson? : Json → Option Instr
  | .str name => ofName? name
  | .obj [(name, operands)] => ofField? name operands
  | _ => none

end Instr

namespace Step

/-- A step as JSON. -/
def toJson (a : Step) : Json :=
  .obj [("process", a.process.toJson), ("pc", .nat a.pc), ("instr", a.instr.toJson)]

/-- A step from JSON. -/
def ofJson? (j : Json) : Option Step := do
  let fields ← j.fields?
  let process ← Json.required? fields "process" ProcessId.ofJson?
  let pc ← Json.required? fields "pc" (Json.nat? UInt64.size)
  let instr ← Json.required? fields "instr" Instr.ofJson?
  pure { process, pc, instr }

end Step

/-! ## Programs -/

namespace Program

/-- A program as JSON. -/
def toJson (p : Program) : Json :=
  .obj [("threads", .ofList (Json.ofList Instr.toJson) p.threads),
    ("initially_active", .ofList ProcessId.toJson p.initiallyActive.toList)]

/-- A program from an object. -/
def ofObject? (j : Json) : Option Program := do
  let fields ← j.fields?
  let threads ← Json.required? fields "threads" (Json.list? (Json.list? Instr.ofJson?))
  let active ← Json.required? fields "initially_active" (Json.list? ProcessId.ofJson?)
  pure ⟨threads, Keyed.ofList active⟩

/-- Adds the thread that a pair of a kind and instructions describes. -/
def addThread? (p : Program) (j : Json) : Option Program := do
  let items ← j.list? some
  let instrs ← (items.getD 1 .null).list? Instr.ofJson?
  match items.head? with
  | some (.str "dormant") => pure (p.dormantThread instrs)
  | _ => pure (p.thread instrs)

/-- A program from JSON: an array lists its threads one after the other. -/
def ofJson? : Json → Option Program
  | .arr threads => threads.foldlM addThread? empty
  | j => ofObject? j

end Program

/-! ## States -/

namespace ProgramState

/-- The locks of a state by their texts, a later lock of the same text counting. -/
def lockTexts (locks : SortedMap LockId ProcessId) : SortedMap String ProcessId :=
  .ofPairs (locks.toList.map fun e => (e.1.text, e.2))

/-- The locks that texts stand for. -/
def locksOfTexts (texts : List (String × ProcessId)) : SortedMap LockId ProcessId :=
  .ofPairs (texts.map fun e => (.ofText e.1, e.2))

/-- A state as JSON. -/
def toJson (s : ProgramState) : Json :=
  .obj [("pcs", .ofList .nat s.pcs),
    ("active", .ofList ProcessId.toJson s.active.toList),
    ("vars", .obj (s.vars.toList.map fun e => (e.1, .int e.2))),
    ("observed", .ofList (Json.ofList .int) s.observed),
    ("locks", .obj ((lockTexts s.locks).toList.map fun e => (e.1, e.2.toJson)))]

/-- The entries of an object, all read in the same way. -/
def entries? {α : Type} (f : Json → Option α) (j : Json) : Option (List (String × α)) := do
  (← j.fields?).mapM fun e => (f e.2).map (e.1, ·)

/-- A state from JSON. -/
def ofJson? (j : Json) : Option ProgramState := do
  let fields ← j.fields?
  let pcs ← Json.required? fields "pcs" (Json.list? (Json.nat? UInt64.size))
  let active ← Json.required? fields "active" (Json.list? ProcessId.ofJson?)
  let vars ← Json.required? fields "vars" (entries? Json.signed?)
  let observed ← Json.required? fields "observed" (Json.list? (Json.list? Json.signed?))
  let locks ← Json.required? fields "locks" (entries? ProcessId.ofJson?)
  pure { pcs, active := Keyed.ofList active, vars := .ofPairs vars, observed,
         locks := locksOfTexts locks }

end ProgramState

end Interleaving
