import Interleaving.Identifier
import Interleaving.Json.Value

/-!
# JSON forms of identifiers

Numbered identifiers are numbers: processes and nodes of 32 bits, states of 64. Locks are texts.
-/

namespace Interleaving

/-- A process as its number. -/
def ProcessId.toJson (p : ProcessId) : Json := .nat p.index

/-- A process from a number of 32 bits. -/
def ProcessId.ofJson? (j : Json) : Option ProcessId := (j.nat? UInt32.size).map .mk

/-- A node as its number. -/
def NodeId.toJson (n : NodeId) : Json := .nat n.index

/-- A node from a number of 32 bits. -/
def NodeId.ofJson? (j : Json) : Option NodeId := (j.nat? UInt32.size).map .mk

/-- A state as its number. -/
def StateId.toJson (s : StateId) : Json := .nat s.index

/-- A state from a number of 64 bits. -/
def StateId.ofJson? (j : Json) : Option StateId := (j.nat? UInt64.size).map .mk

/-- A lock as its text. -/
def LockId.toJson (lock : LockId) : Json := .str lock.text

/-- A lock from its text. -/
def LockId.ofJson? (j : Json) : Option LockId := j.str?.map .ofText

end Interleaving
