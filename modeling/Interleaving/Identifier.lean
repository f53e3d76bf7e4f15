/-!
# Identifiers

Processes, nodes of the search tree, states and locks. The three numbered kinds are separate types,
so that none is taken for another; each has a short form for messages and a long one for lists.
Locks are named, apart from the single lock that an atomic block takes.
-/

namespace Interleaving

/-! ## Numbered identifiers -/

/-- A process (thread) of the explored program. -/
structure ProcessId where
  index : Nat
deriving DecidableEq, Inhabited

/-- A node of the search tree. -/
structure NodeId where
  index : Nat
deriving DecidableEq, Inhabited

/-- The identity of an explored state; several nodes of a tree may share one. -/
structure StateId where
  index : Nat
deriving DecidableEq, Inhabited

namespace ProcessId

instance : Ord ProcessId := ⟨compareOn index⟩

instance : Std.TransOrd ProcessId := inferInstanceAs (Std.TransCmp (compareOn index))

instance : Std.LawfulEqOrd ProcessId where
  compare_self {a} := Std.ReflOrd.compare_self
  eq_of_compare {a b} h := by
    cases a; cases b; exact congrArg mk (Std.LawfulEqOrd.eq_of_compare h)

/-- The short form, such as `P3`. -/
def text (p : ProcessId) : String := s!"P{p.index}"

/-- The long form, such as `ProcessId(3)`. -/
def longText (p : ProcessId) : String := s!"ProcessId({p.index})"

end ProcessId

namespace NodeId

instance : Ord NodeId := ⟨compareOn index⟩

/-- The short form, such as `n7`. -/
def text (n : NodeId) : String := s!"n{n.index}"

/-- The long form, such as `NodeId(7)`. -/
def longText (n : NodeId) : String := s!"NodeId({n.index})"

end NodeId

namespace StateId

instance : Ord StateId := ⟨compareOn index⟩

instance : Std.TransOrd StateId := inferInstanceAs (Std.TransCmp (compareOn index))

instance : Std.LawfulEqOrd StateId where
  compare_self {a} := Std.ReflOrd.compare_self
  eq_of_compare {a b} h := by
    cases a; cases b; exact congrArg mk (Std.LawfulEqOrd.eq_of_compare h)

/-- The short form, such as `s9`. -/
def text (s : StateId) : String := s!"s{s.index}"

/-- The long form, such as `StateId(9)`. -/
def longText (s : StateId) : String := s!"StateId({s.index})"

end StateId

/-! ## Locks -/

/-- A lock of the explored program. -/
inductive LockId where
  /-- A mutex with a name. -/
  | named (name : String)
  /-- The lock held during an atomic block, which keeps every other process from running. -/
  | atomic
deriving DecidableEq, Inhabited

namespace LockId

/-- The text that stands for the lock of atomic blocks. -/
def atomicText : String := "<atomic>"

/-- Whether this is the lock of atomic blocks. -/
def isAtomic : LockId → Bool
  | named _ => false
  | atomic => true

/-- The text of a lock: its name, or `atomicText`. A mutex named `<atomic>` has the same text. -/
def text : LockId → String
  | named name => name
  | atomic => atomicText

/-- The lock that a text stands for. -/
def ofText (text : String) : LockId := if text = atomicText then atomic else named text

/-- The long form, such as `LockId(m)`. -/
def longText (lock : LockId) : String := s!"LockId({lock.text})"

/-- Named locks come first, by name; the lock of atomic blocks is the last. -/
instance : Ord LockId := ⟨compareLex (compareOn isAtomic) (compareOn text)⟩

instance : Std.TransOrd LockId :=
  inferInstanceAs (Std.TransCmp (compareLex (compareOn isAtomic) (compareOn text)))

instance : Std.LawfulEqOrd LockId where
  compare_self {a} := compareLex_eq_eq.2 ⟨Std.ReflOrd.compare_self, Std.ReflOrd.compare_self⟩
  eq_of_compare {a b} h := by
    obtain ⟨h₁, h₂⟩ := compareLex_eq_eq.1 h
    have h₁ : a.isAtomic = b.isAtomic := Std.LawfulEqOrd.eq_of_compare h₁
    have h₂ : a.text = b.text := Std.LawfulEqOrd.eq_of_compare h₂
    cases a <;> cases b <;> simp_all [isAtomic, text]

/-- The text of every lock but a mutex named `<atomic>` reads back as that lock. -/
theorem ofText_text_eq_iff (lock : LockId) : ofText lock.text = lock ↔ lock ≠ named atomicText := by
  cases lock with
  | named name => by_cases h : name = atomicText <;> simp [ofText, text, h]
  | atomic => simp [ofText, text]

end LockId

end Interleaving
