import Interleaving.Program.Dependency
import Interleaving.Proofs.Runs

/-!
# What locks keep out

A lock that a thread holds stays with it until the thread itself gives it back, whatever the other
threads do (`Program.IsRun.holder_afterAll`). So a mutex has one holder at most, who can be told from
the steps performed so far; in an atomic block no other thread takes a step (`Program.locks_exclude`);
and where a pair of steps counts as irreversible, the later step has to wait for the thread of the
earlier one (`Program.not_enabled_of_irreversible`).
-/

namespace Interleaving

/-! ## Instructions that use a lock -/

namespace Instr

variable {i : Instr} {m : String}

theorem neededLock_eq_named_iff : i.neededLock = some (.named m) ↔ i = .lock m := by
  cases i <;> simp [neededLock]

theorem freedLock_eq_named_iff : i.freedLock = some (.named m) ↔ i = .unlock m := by
  cases i <;> simp [freedLock]

theorem neededLock_eq_atomic_iff : i.neededLock = some .atomic ↔ i = .atomicBegin := by
  cases i <;> simp [neededLock]

theorem freedLock_eq_atomic_iff : i.freedLock = some .atomic ↔ i = .atomicEnd := by
  cases i <;> simp [freedLock]

end Instr

/-! ## Counting the steps that use a mutex -/

namespace Step

/-- How often a thread performs an instruction. -/
def occurrences (q : ProcessId) (i : Instr) (w : List Step) : Nat :=
  w.countP fun a => a.process == q && a.instr == i

/-- How many times more a thread takes a mutex than it gives it back. -/
def surplus (q : ProcessId) (m : String) (w : List Step) : Int :=
  occurrences q (.lock m) w - occurrences q (.unlock m) w

variable {q : ProcessId} {m : String} {a : Step} {w : List Step}

@[simp] theorem surplus_nil : surplus q m [] = 0 := rfl

theorem surplus_cons : surplus q m (a :: w) = surplus q m [a] + surplus q m w := by
  simp only [surplus, occurrences, List.countP_cons, List.countP_nil]
  omega

theorem surplus_lock (h : a.instr = .lock m) : surplus a.process m [a] = 1 := by
  simp [surplus, occurrences, h]

theorem surplus_unlock (h : a.instr = .unlock m) : surplus a.process m [a] = -1 := by
  simp [surplus, occurrences, h]

theorem surplus_of_ne (h : a.process = q → a.instr ≠ .lock m ∧ a.instr ≠ .unlock m) :
    surplus q m [a] = 0 := by
  by_cases hq : a.process = q
  · simp [surplus, occurrences, h hq]
  · simp [surplus, occurrences, hq]

end Step

/-- 1 if the thread holds the lock, and 0 if not. -/
def ProgramState.holding (s : ProgramState) (lock : LockId) (q : ProcessId) : Int :=
  if s.holder lock = some q then 1 else 0

namespace Program

variable {p : Program} {s : ProgramState} {a e : Step} {w : List Step} {q : ProcessId} {m : String}
  {lock : LockId}

/-! ## Single steps and runs -/

/-- A step that takes a mutex leaves the thread with it, and one that gives it back without; no other
step matters. -/
theorem CanRun.surplus_add_holding (h : p.CanRun s a) :
    Step.surplus q m [a] + s.holding (.named m) q = (s.after a).holding (.named m) q := by
  -- a step of the thread itself takes the mutex, gives it back, or does neither
  by_cases hq : a.process = q
  · subst hq
    by_cases hlock : a.instr = .lock m
    · have hneeded := Instr.neededLock_eq_named_iff.2 hlock
      have hfree : s.holder (.named m) = none := h.needed _ hneeded
      have htaken : (s.after a).holder (.named m) = some a.process := by
        rw [ProgramState.holder_after, if_pos hneeded]
      simp [Step.surplus_lock hlock, ProgramState.holding, hfree, htaken]
    have hneeded := mt Instr.neededLock_eq_named_iff.1 hlock
    by_cases hunlock : a.instr = .unlock m
    · have hfreed := Instr.freedLock_eq_named_iff.2 hunlock
      have hheld : s.holder (.named m) = some a.process := h.freed _ hfreed
      have hfree : (s.after a).holder (.named m) = none := by
        rw [ProgramState.holder_after, if_neg hneeded, if_pos hfreed]
      simp [Step.surplus_unlock hunlock, ProgramState.holding, hheld, hfree]
    have hfreed := mt Instr.freedLock_eq_named_iff.1 hunlock
    have hsame : (s.after a).holder (.named m) = s.holder (.named m) := by
      rw [ProgramState.holder_after, if_neg hneeded, if_neg hfreed]
    rw [Step.surplus_of_ne fun _ => ⟨hlock, hunlock⟩, ProgramState.holding, ProgramState.holding, hsame]
    exact Int.zero_add _
  · rw [Step.surplus_of_ne fun hq' => absurd hq' hq, Int.zero_add, ProgramState.holding,
      ProgramState.holding]
    exact if_congr (h.holder_after_iff hq).symm rfl rfl

/-- Whether a thread holds a mutex can be told from the steps performed. -/
theorem IsRun.surplus_add_holding (h : p.IsRun s w) :
    Step.surplus q m w + s.holding (.named m) q = (s.afterAll w).holding (.named m) q := by
  induction w generalizing s with
  | nil => exact Int.zero_add _
  | cons a w ih =>
    have hstep := h.1.surplus_add_holding (q := q) (m := m)
    have hrest := ih h.2
    rw [Step.surplus_cons, ProgramState.afterAll_cons]
    omega

/-- A lock stays with its holder, unless the holder gives it back. -/
theorem CanRun.holder_after_eq (h : p.CanRun s a) (hheld : s.holder lock = some q)
    (hkept : a.process = q → a.instr.freedLock ≠ some lock) : (s.after a).holder lock = some q := by
  by_cases hq : a.process = q
  · have hneeded : a.instr.neededLock ≠ some lock := by
      intro hneeded
      rw [h.needed lock hneeded] at hheld
      cases hheld
    rw [ProgramState.holder_after, if_neg hneeded, if_neg (hkept hq)]
    exact hheld
  · exact (h.holder_after_iff hq).2 hheld

theorem IsRun.holder_afterAll (h : p.IsRun s w) (hheld : s.holder lock = some q)
    (hkept : ∀ c ∈ w, c.process = q → c.instr.freedLock ≠ some lock) :
    (s.afterAll w).holder lock = some q := by
  induction w generalizing s with
  | nil => exact hheld
  | cons a w ih =>
    have hafter := h.1.holder_after_eq hheld (hkept a (by simp))
    exact ih h.2 hafter fun c hc => hkept c (by simp [hc])

/-- From the time it enters an atomic block until it leaves one, only the thread itself takes steps. -/
theorem IsRun.process_eq_of_atomicBegin {b c : Step} {y z : List Step}
    (h : p.IsRun s (b :: (y ++ c :: z))) (hb : b.instr = .atomicBegin)
    (hy : ∀ d ∈ y, d.process = b.process → d.instr ≠ .atomicEnd) : c.process = b.process := by
  obtain ⟨-, hrest⟩ := h
  have hentered : (s.after b).holder .atomic = some b.process := by
    rw [ProgramState.holder_after, if_pos (Instr.neededLock_eq_atomic_iff.2 hb)]
  obtain ⟨hrun, hc, -⟩ := isRun_append.1 hrest
  have hinside := hrun.holder_afterAll hentered fun d hd hdb =>
    mt Instr.freedLock_eq_atomic_iff.1 (hy d hd hdb)
  exact (hc.free b.process hinside).symm

/-! ## Mutual exclusion -/

/-- After every run of a program, each thread has taken each mutex as often as it has given it back, or
once more; the latter holds for one thread at most, namely for the holder of the mutex. And between the
step by which a thread enters an atomic block and the next one by which it leaves it, all steps are its
own. Mutexes and atomic blocks do not get in each other's way, whatever the names of the mutexes. -/
theorem locks_exclude (h : p.IsRun p.initialState w) :
    (∀ q m, Step.surplus q m w = 0 ∨ Step.surplus q m w = 1) ∧
    (∀ q r m, Step.surplus q m w = 1 → Step.surplus r m w = 1 → q = r) ∧
    (∀ q m, Step.surplus q m w = 1 ↔ (p.initialState.afterAll w).holder (.named m) = some q) ∧
    ∀ x b y c z, w = x ++ b :: (y ++ c :: z) → b.instr = .atomicBegin →
      (∀ d ∈ y, d.process = b.process → d.instr ≠ .atomicEnd) → c.process = b.process := by
  have hsurplus : ∀ q m, Step.surplus q m w = (p.initialState.afterAll w).holding (.named m) q := by
    intro q m
    -- at first nobody holds anything
    have hnone : p.initialState.holding (.named m) q = 0 := rfl
    rw [← h.surplus_add_holding, hnone, Int.add_zero]
  have hholder : ∀ q m, Step.surplus q m w = 1 ↔
      (p.initialState.afterAll w).holder (.named m) = some q := by
    intro q m
    rw [hsurplus, ProgramState.holding]
    split <;> simp_all
  refine ⟨fun q m => ?_, fun q r m hq hr => ?_, hholder, fun x b y c z hw hb hy => ?_⟩
  · rw [hsurplus, ProgramState.holding]
    split
    · exact .inr rfl
    · exact .inl rfl
  · exact Option.some.inj (((hholder q m).1 hq).symm.trans ((hholder r m).1 hr))
  · rw [hw] at h
    exact (isRun_append.1 h).2.process_eq_of_atomicBegin hb hy

/-- A thread enters an atomic block with a mutex whose name is the text of the lock of atomic blocks. -/
def guardedBlock : Program :=
  (Program.empty.thread [.lock "<atomic>", .atomicBegin, .write "x" 1, .atomicEnd,
    .unlock "<atomic>"]).thread [.write "y" 1, .lock "<atomic>"]

/-- After the block, the mutex is still held; inside the block, the other thread cannot write. -/
theorem locks_exclude_guardedBlock :
    let entered : List Step := [⟨⟨0⟩, 0, .lock "<atomic>"⟩, ⟨⟨0⟩, 1, .atomicBegin⟩]
    let w : List Step := entered ++ [⟨⟨0⟩, 2, .write "x" 1⟩, ⟨⟨0⟩, 3, .atomicEnd⟩]
    guardedBlock.IsRun guardedBlock.initialState w ∧
      (guardedBlock.initialState.afterAll w).holder (.named "<atomic>") = some ⟨0⟩ ∧
      (guardedBlock.initialState.afterAll w).holder .atomic = none ∧
      Step.surplus ⟨1⟩ "<atomic>" w ≠ 1 ∧
      ¬guardedBlock.IsRun guardedBlock.initialState (entered ++ [⟨⟨1⟩, 0, .write "y" 1⟩]) := by
  intro entered w
  have hrun : guardedBlock.IsRun guardedBlock.initialState w := by
    refine ⟨mem_enabled_iff.1 ?_, mem_enabled_iff.1 ?_, mem_enabled_iff.1 ?_, mem_enabled_iff.1 ?_,
      trivial⟩ <;> decide
  obtain ⟨-, hone, hholder, -⟩ := locks_exclude hrun
  have htaken : Step.surplus ⟨0⟩ "<atomic>" w = 1 := by decide
  refine ⟨hrun, (hholder ⟨0⟩ "<atomic>").1 htaken, by decide, fun hother => ?_, fun hinside => ?_⟩
  · cases hone _ _ _ htaken hother
  · have hsame := (locks_exclude hinside).2.2.2 [⟨⟨0⟩, 0, .lock "<atomic>"⟩] ⟨⟨0⟩, 1, .atomicBegin⟩ []
      ⟨⟨1⟩, 0, .write "y" 1⟩ [] rfl rfl (by simp)
    cases hsame

/-! ## Pairs that cannot be reversed -/

/-- If a pair of steps counts as irreversible, the thread of the earlier one holds a lock that the later
one needs. -/
theorem exists_lock_of_irreversible (h : Step.reversible s e a = false) :
    ∃ lock, a.instr.neededLock = some lock ∧ s.holder lock = some e.process := by
  unfold Step.reversible at h
  split at h
  · rename_i lock hlock
    exact ⟨lock, hlock, by simpa using h⟩
  · cases h

/-- If a pair of steps counts as irreversible, the later step is enabled after no run in which the thread
of the earlier one takes no step. So no run is lost with the pair: in each, some step of that thread
comes before the later step of the pair. -/
theorem not_enabled_of_irreversible (h : Step.reversible s e a = false) :
    (∀ w, p.IsRun s w → (∀ c ∈ w, c.process ≠ e.process) → a ∉ p.enabled (s.afterAll w)) ∧
    ∀ x y, p.IsRun s (x ++ a :: y) → ∃ c ∈ x, c.process = e.process := by
  obtain ⟨lock, hneeded, hheld⟩ := exists_lock_of_irreversible h
  have hblocked : ∀ w, p.IsRun s w → (∀ c ∈ w, c.process ≠ e.process) →
      ¬p.CanRun (s.afterAll w) a := by
    intro w hw hother ha
    -- the lock is still where it was
    have hstill := hw.holder_afterAll hheld fun c hc hce => absurd hce (hother c hc)
    rw [ha.needed lock hneeded] at hstill
    cases hstill
  refine ⟨fun w hw hother => mt mem_enabled_iff.1 (hblocked w hw hother), fun x y hrun => ?_⟩
  obtain ⟨hx, ha, -⟩ := isRun_append.1 hrun
  by_contra hnone
  push Not at hnone
  exact hblocked x hx hnone ha

/-- A thread works under a mutex that another one waits for; a third one needs no lock. -/
def waitingThread : Program :=
  ((Program.empty.thread [.lock "m", .write "x" 1, .unlock "m"]).thread [.lock "m"]).thread
    [.write "y" 1]

/-- As long as the first thread rests, the second one has to wait, also after a step of the third. -/
theorem not_enabled_of_irreversible_waitingThread :
    let s := waitingThread.initialState.after ⟨⟨0⟩, 0, .lock "m"⟩
    let e : Step := ⟨⟨0⟩, 1, .write "x" 1⟩
    let a : Step := ⟨⟨1⟩, 0, .lock "m"⟩
    let c : Step := ⟨⟨2⟩, 0, .write "y" 1⟩
    Step.reversible s e a = false ∧ waitingThread.IsRun s [c] ∧ c.process ≠ e.process ∧
      a ∉ waitingThread.enabled (s.afterAll [c]) ∧ ¬waitingThread.IsRun s [c, a] := by
  intro s e a c
  have hirreversible : Step.reversible s e a = false := by decide
  have hrun : waitingThread.IsRun s [c] := ⟨mem_enabled_iff.1 (by decide), trivial⟩
  have hother : ∀ d ∈ [c], d.process ≠ e.process := by decide
  obtain ⟨hwaits, hfirst⟩ := not_enabled_of_irreversible (p := waitingThread) hirreversible
  refine ⟨hirreversible, hrun, hother c (by simp), hwaits [c] hrun hother, fun hca => ?_⟩
  obtain ⟨d, hd, hde⟩ := hfirst [c] [] hca
  exact hother d hd hde

end Program

end Interleaving
