import Mathlib.Data.Option.Basic
import Interleaving.Keyed.Lemmas
import Interleaving.Program.Dependency

/-!
# Steps that can run

`Program.CanRun` says what it takes for a step to run: its thread is active and at that instruction,
no other thread is in an atomic block, and the locks allow the instruction. What a step does to the
part of a state that this depends on is said once, by `hasKey_active_after`, `pcs_after` and
`holder_after`. Two independent steps of different threads then commute, and neither makes the other
possible or impossible (`canRun_after_iff`, `after_comm`).
-/

namespace Interleaving

open Std (TransOrd LawfulEqOrd)

/-! ## Threads, sets and maps -/

theorem ProcessId.index_inj {p q : ProcessId} : p.index = q.index ↔ p = q := by
  cases p; cases q
  simp

theorem ProcessId.index_ne {p q : ProcessId} (h : p ≠ q) : p.index ≠ q.index :=
  ProcessId.index_inj.not.2 h

/-- Two sets with the same members are equal. -/
theorem SortedSet.ext_hasKey {α : Type} [Ord α] [TransOrd α] [LawfulEqOrd α] {s t : SortedSet α}
    (h : ∀ a, s.hasKey a ↔ t.hasKey a) : s = t := by
  refine Keyed.ext_of_mem fun a => ?_
  have := h a
  simpa [Keyed.hasKey_iff] using this

namespace SortedMap

variable {κ β : Type} [Ord κ] [LawfulEqOrd κ]

theorem get?_erase [DecidableEq κ] (m : SortedMap κ β) (k k' : κ) :
    get? (m.erase k) k' = if k' = k then none else get? m k' := by
  apply Option.ext
  intro v
  rw [get?_eq_some_iff, Keyed.mem_erase]
  split
  · rename_i h
    simp [h]
  · rename_i h
    simp [get?_eq_some_iff, h]

theorem hasKey_put [TransOrd κ] {m : SortedMap κ β} {k k' : κ} {v : β} :
    (put m k v).hasKey k' ↔ m.hasKey k' ∨ k' = k := by
  simp only [Keyed.hasKey_iff, put, Keyed.mem_replace]
  constructor
  · rintro ⟨e, rfl | ⟨he, -⟩, rfl⟩
    · exact .inr rfl
    · exact .inl ⟨e, he, rfl⟩
  · rintro (⟨e, he, rfl⟩ | rfl)
    · by_cases hk : e.1 = k
      · exact ⟨(k, v), .inl rfl, hk.symm⟩
      · exact ⟨e, .inr ⟨he, hk⟩, rfl⟩
    · exact ⟨(k', v), .inl rfl, rfl⟩

/-- Two maps with the same values are equal. -/
theorem ext_get? [TransOrd κ] {m n : SortedMap κ β} (h : ∀ k, get? m k = get? n k) : m = n := by
  refine Keyed.ext_of_mem fun e => ?_
  obtain ⟨k, v⟩ := e
  rw [← get?_eq_some_iff, ← get?_eq_some_iff, h]

end SortedMap

/-! ## When a step can run -/

/-- The lock that an instruction gives back. -/
def Instr.freedLock : Instr → Option LockId
  | unlock m => some (.named m)
  | atomicEnd => some .atomic
  | _ => none

/-- A step that a program has, whether or not it can run. -/
def Program.HasStep (p : Program) (a : Step) : Prop := p.instrAt a.process a.pc = some a.instr

/-- The conditions under which a step can run in a state. -/
structure Program.CanRun (p : Program) (s : ProgramState) (a : Step) : Prop where
  active : s.active.hasKey a.process
  counter : s.pcs[a.process.index]? = some a.pc
  hasStep : p.HasStep a
  /-- No other thread is in an atomic block. -/
  free : ∀ h, s.holder .atomic = some h → h = a.process
  /-- The lock needed has no holder. -/
  needed : ∀ lock, a.instr.neededLock = some lock → s.holder lock = none
  /-- The lock given back is held by the thread. -/
  freed : ∀ lock, a.instr.freedLock = some lock → s.holder lock = some a.process

namespace ProgramState

variable {s : ProgramState}

theorem isExcluded_eq_false_iff {q : ProcessId} :
    s.isExcluded q = false ↔ ∀ h, s.holder .atomic = some h → h = q := by
  unfold isExcluded
  split
  · rename_i h hh
    simp [hh]
  · rename_i hh
    simp [hh]

theorem allows_iff {q : ProcessId} {i : Instr} :
    s.allows q i ↔ (∀ lock, i.neededLock = some lock → s.holder lock = none) ∧
      ∀ lock, i.freedLock = some lock → s.holder lock = some q := by
  cases i <;> simp [allows, Instr.neededLock, Instr.freedLock]

end ProgramState

namespace Program

variable {p : Program} {s : ProgramState} {a b : Step}

theorem stepOf_eq_some_iff {q : ProcessId} :
    p.stepOf s q = some a ↔ a.process = q ∧ p.CanRun s a := by
  have hrun : p.stepOf s q = some a ↔ s.active.hasKey q ∧ ∃ pc, s.pcs[q.index]? = some pc ∧
      ∃ i, p.instrAt q pc = some i ∧ (s.isExcluded q = false ∧ s.allows q i) ∧ ⟨q, pc, i⟩ = a := by
    simp [stepOf, Option.guard_eq_some', Option.bind_eq_some_iff]
  rw [hrun]
  constructor
  · rintro ⟨hq, pc, hpc, i, hi, ⟨hfree, hallow⟩, rfl⟩
    obtain ⟨hneeded, hfreed⟩ := ProgramState.allows_iff.1 hallow
    exact ⟨rfl, hq, hpc, hi, ProgramState.isExcluded_eq_false_iff.1 hfree, hneeded, hfreed⟩
  · rintro ⟨rfl, h⟩
    exact ⟨h.active, a.pc, h.counter, a.instr, h.hasStep,
      ⟨ProgramState.isExcluded_eq_false_iff.2 h.free,
        ProgramState.allows_iff.2 ⟨h.needed, h.freed⟩⟩, rfl⟩

theorem mem_enabled_iff : a ∈ p.enabled s ↔ p.CanRun s a := by
  simp only [enabled, List.mem_filterMap, stepOf_eq_some_iff]
  constructor
  · rintro ⟨q, -, -, h⟩
    exact h
  · intro h
    obtain ⟨q, hq, hqa⟩ := Keyed.hasKey_iff.1 h.active
    exact ⟨q, hq, hqa.symm, h⟩

theorem isTerminal_iff : p.isTerminal s ↔ ∀ a, ¬p.CanRun s a := by
  rw [isTerminal, List.isEmpty_iff, List.eq_nil_iff_forall_not_mem]
  exact forall_congr' fun a => not_congr mem_enabled_iff

/-- The key of a step of a program determines the step. -/
theorem HasStep.eq_of_key_eq (ha : p.HasStep a) (hb : p.HasStep b)
    (h : Action.key a = Action.key b) : a = b := by
  obtain ⟨q, pc, i⟩ := a
  obtain ⟨q', pc', i'⟩ := b
  have hq : q = q' := congrArg ActionKey.process h
  have hpc : pc = pc' := congrArg ActionKey.operation h
  subst hq hpc
  have hi : some i = some i' := ha.symm.trans hb
  simpa using hi

/-- Whether a step can run is a matter of its thread and of the locks that concern it. -/
theorem CanRun.congr {t : ProgramState} (h : p.CanRun s a)
    (hactive : s.active.hasKey a.process → t.active.hasKey a.process)
    (hcounter : t.pcs[a.process.index]? = s.pcs[a.process.index]?)
    (hholder : ∀ lock, lock = .atomic ∨ a.instr.neededLock = some lock ∨
      a.instr.freedLock = some lock → t.holder lock = s.holder lock) : p.CanRun t a where
  active := hactive h.active
  counter := hcounter.trans h.counter
  hasStep := h.hasStep
  free r hr := h.free r (hholder _ (.inl rfl) ▸ hr)
  needed l hl := (hholder l (.inr (.inl hl))).trans (h.needed l hl)
  freed l hl := (hholder l (.inr (.inr hl))).trans (h.freed l hl)

end Program

/-! ## What a step does -/

namespace ProgramState

variable (s : ProgramState) (a : Step)

@[simp] theorem pcs_after : (s.after a).pcs = s.pcs.modify a.process.index (· + 1) := by
  unfold after effect
  cases a.instr <;> rfl

theorem hasKey_active_after {q : ProcessId} :
    (s.after a).active.hasKey q ↔ s.active.hasKey q ∨ a.instr = .spawn q := by
  unfold after effect
  cases a.instr with
  | spawn r => simp [Keyed.hasKey_insert, @eq_comm _ q r]
  | _ => simp

theorem holder_after (lock : LockId) :
    (s.after a).holder lock =
      if a.instr.neededLock = some lock then some a.process
      else if a.instr.freedLock = some lock then none
      else s.holder lock := by
  have flip : ∀ l : LockId, (some l = some lock) = (lock = l) := by
    intro l
    rw [Option.some.injEq, eq_comm (a := l)]
  unfold after effect holder
  cases a.instr <;>
    simp only [Instr.neededLock, Instr.freedLock, SortedMap.get?_put, SortedMap.get?_erase, flip,
      reduceCtorEq, if_false]

/-- Whoever holds a lock after a step has just taken it, or held it before. -/
theorem holder_of_after {lock : LockId} {q : ProcessId}
    (h : (s.after a).holder lock = some q) :
    a.instr.neededLock = some lock ∧ q = a.process ∨ s.holder lock = some q := by
  rw [holder_after] at h
  split at h
  · rename_i hneeded
    exact .inl ⟨hneeded, (Option.some.inj h).symm⟩
  · split at h
    · cases h
    · exact .inr h

theorem get?_vars_after (x : String) :
    SortedMap.get? (s.after a).vars x =
      match a.instr with
      | .write y v => if x = y then some v else SortedMap.get? s.vars x
      | _ => SortedMap.get? s.vars x := by
  unfold after effect
  cases a.instr with
  | write y v => simp only [SortedMap.get?_put]
  | _ => rfl

theorem observed_after :
    (s.after a).observed =
      match a.instr with
      | .read x => s.observed.modify a.process.index (· ++ [s.var x])
      | _ => s.observed := by
  unfold after effect
  cases a.instr <;> rfl

end ProgramState

/-- A step leaves alone what other threads hold. -/
theorem Program.CanRun.holder_after_iff {p : Program} {s : ProgramState} {a : Step} {lock : LockId}
    {q : ProcessId} (h : p.CanRun s a) (hne : a.process ≠ q) :
    (s.after a).holder lock = some q ↔ s.holder lock = some q := by
  constructor
  · intro hq
    refine (s.holder_of_after a hq).resolve_left fun hnew => ?_
    exact hne hnew.2.symm
  · intro hq
    rw [ProgramState.holder_after]
    split
    · rename_i hneeded
      rw [h.needed lock hneeded] at hq
      cases hq
    · split
      · rename_i hfreed
        rw [h.freed lock hfreed, Option.some.injEq] at hq
        exact absurd hq hne
      · exact hq

/-! ## Independent steps -/

namespace Step

variable {precision : Precision} {a b : Step}

@[simp] theorem process_eq (a : Step) : Action.process a = a.process := rfl

theorem dependent_comm : dependent precision a b = dependent precision b a := by
  have hmutex : a.shareMutex b = b.shareMutex a := by
    unfold shareMutex
    cases a.instr.mutex <;> cases b.instr.mutex <;> first | rfl | exact BEq.comm
  have hconflict : conflict precision a b = conflict precision b a := by
    unfold conflict
    rcases a.instr.access with _ | ⟨x, wa⟩ <;> rcases b.instr.access with _ | ⟨y, wb⟩ <;> try rfl
    by_cases h : x = y
    · subst h
      simp only [beq_self_eq_true, Bool.or_comm wa wb]
    · have h₁ : (x == y) = false := beq_false_of_ne h
      have h₂ : (y == x) = false := beq_false_of_ne (Ne.symm h)
      simp only [h₁, h₂, Bool.false_and]
  unfold dependent
  rw [hmutex, hconflict, BEq.comm (a := a.process)]
  ac_rfl

@[simp] theorem dependent_self : dependent precision a a := by simp [dependent]

theorem dependent_of_process_eq (h : a.process = b.process) : dependent precision a b := by
  simp [dependent, h]

/-- Independent steps, one by one: what `dependent` rules out. -/
structure Independent (precision : Precision) (a b : Step) : Prop where
  process_ne : a.process ≠ b.process
  not_boundary : a.instr.isAtomicBoundary = false
  not_boundary' : b.instr.isAtomicBoundary = false
  not_spawns : a.instr ≠ .spawn b.process
  not_spawns' : b.instr ≠ .spawn a.process
  mutex_ne : a.shareMutex b = false
  no_conflict : conflict precision a b = false

theorem independent_iff : ¬dependent precision a b ↔ Independent precision a b := by
  simp only [dependent, spawns, Bool.or_eq_true, not_or, beq_iff_eq, Bool.not_eq_true]
  constructor
  · rintro ⟨⟨⟨⟨⟨⟨h₁, h₂⟩, h₃⟩, h₄⟩, h₅⟩, h₆⟩, h₇⟩
    exact ⟨h₁, h₂, h₃, h₄, h₅, h₆, h₇⟩
  · rintro ⟨h₁, h₂, h₃, h₄, h₅, h₆, h₇⟩
    exact ⟨⟨⟨⟨⟨⟨h₁, h₂⟩, h₃⟩, h₄⟩, h₅⟩, h₆⟩, h₇⟩

theorem Independent.symm (h : Independent precision a b) : Independent precision b a := by
  rw [← independent_iff, dependent_comm, independent_iff]
  exact h

/-- An independent step leaves alone the locks that decide whether `b` can run. -/
theorem Independent.holder_after (h : Independent precision a b) (s : ProgramState) {l : LockId}
    (hlock : l = .atomic ∨ b.instr.neededLock = some l ∨ b.instr.freedLock = some l) :
    (s.after a).holder l = s.holder l := by
  have hboundary := h.not_boundary
  have hboundary' := h.not_boundary'
  have hmutex := h.mutex_ne
  have hneeded : a.instr.neededLock ≠ some l := by
    unfold shareMutex at hmutex
    cases ha : a.instr <;> cases hb : b.instr <;>
      simp_all [Instr.neededLock, Instr.freedLock, Instr.mutex, Instr.isAtomicBoundary] <;> grind
  have hfreed : a.instr.freedLock ≠ some l := by
    unfold shareMutex at hmutex
    cases ha : a.instr <;> cases hb : b.instr <;>
      simp_all [Instr.neededLock, Instr.freedLock, Instr.mutex, Instr.isAtomicBoundary] <;> grind
  rw [ProgramState.holder_after, if_neg hneeded, if_neg hfreed]

/-- Whether a step can run does not change by an independent step. -/
theorem Independent.canRun_after_iff {p : Program} (h : Independent precision a b)
    (s : ProgramState) : p.CanRun (s.after a) b ↔ p.CanRun s b := by
  have hactive : (s.after a).active.hasKey b.process ↔ s.active.hasKey b.process := by
    simp [ProgramState.hasKey_active_after, h.not_spawns]
  have hcounter : (s.after a).pcs[b.process.index]? = s.pcs[b.process.index]? := by
    rw [ProgramState.pcs_after, List.getElem?_modify_ne _ _ (ProcessId.index_ne h.process_ne)]
  constructor
  · intro hb
    exact hb.congr hactive.1 hcounter.symm fun _ hl => (h.holder_after s hl).symm
  · intro hb
    exact hb.congr hactive.2 hcounter fun _ hl => h.holder_after s hl

/-- An independent step leaves alone the variable that a step reads. -/
theorem Independent.var_after (h : Independent none a b) (s : ProgramState) {x : String}
    (hx : b.instr = .read x) : (s.after a).var x = s.var x := by
  have hconflict := h.no_conflict
  unfold conflict at hconflict
  unfold ProgramState.var SortedMap.getD
  rw [ProgramState.get?_vars_after]
  cases ha : a.instr <;> simp_all [Instr.access, Precision.tracks]
  rw [if_neg (Ne.symm hconflict)]

/-- Two independent steps lead to the same state in either order. -/
theorem Independent.after_comm (h : Independent none a b) (s : ProgramState) :
    (s.after a).after b = (s.after b).after a := by
  have hpcs : ((s.after a).after b).pcs = ((s.after b).after a).pcs := by
    simp only [ProgramState.pcs_after]
    exact List.modify_modify_ne _ _ _ (ProcessId.index_ne h.process_ne)
  have hactive : ((s.after a).after b).active = ((s.after b).after a).active := by
    refine SortedSet.ext_hasKey fun q => ?_
    simp only [ProgramState.hasKey_active_after]
    exact or_right_comm
  have hholder : ∀ l, ((s.after a).after b).holder l = ((s.after b).after a).holder l := by
    intro l
    simp only [ProgramState.holder_after]
    have := h.holder_after s (l := l)
    have := h.symm.holder_after s (l := l)
    simp only [ProgramState.holder_after] at *
    grind
  have hconflict := h.no_conflict
  -- if both steps write, it is to different variables
  have hvars : ∀ x, SortedMap.get? ((s.after a).after b).vars x =
      SortedMap.get? ((s.after b).after a).vars x := by
    intro x
    simp only [ProgramState.get?_vars_after]
    unfold conflict at hconflict
    cases ha : a.instr <;> cases hb : b.instr <;> simp_all [Instr.access, Precision.tracks]
    grind
  -- what a step reads does not depend on whether the other was made before
  have hobserved : ((s.after a).after b).observed = ((s.after b).after a).observed := by
    have hvar := fun x => h.symm.var_after s (x := x)
    have hvar' := fun x => h.var_after s (x := x)
    simp only [ProgramState.observed_after]
    cases ha : a.instr <;> cases hb : b.instr <;> simp_all
    exact List.modify_modify_ne _ _ _ (ProcessId.index_ne h.process_ne)
  generalize (s.after a).after b = t at *
  generalize (s.after b).after a = u at *
  cases t; cases u
  simp only [ProgramState.mk.injEq]
  exact ⟨hpcs, hactive, SortedMap.ext_get? hvars, hobserved, SortedMap.ext_get? hholder⟩

end Step

end Interleaving
