import Interleaving.Proofs.Runs

/-!
# What threads hold

The locks that a thread holds are a matter of its program counter (`Program.heldAt`), and so is all
that decides which steps can run: in every state that a run reaches, the holders of locks and the
active threads can be read off the counters (`Program.Coherent`).

A thread can release in a state if it comes to hold no lock by running alone (`Program.CanRelease`).
Where a thread takes a mutex only while it holds nothing, and gives back what it takes, it can always
do so unless another thread is in an atomic block (`Coherent.canRelease`). The plainest such threads
are `Sectioned`: sequences of plain steps, sections `lock m … unlock m` and atomic blocks, with only
plain steps inside.
-/

namespace Interleaving

/-! ## Threads -/

namespace Instr

/-- Whether the instruction reads, writes or does nothing. -/
def isOrdinary : Instr → Bool
  | read _ => true
  | write _ _ => true
  | idle => true
  | _ => false

/-- Whether the instruction neither takes a lock nor gives one back. -/
def isPlain : Instr → Bool
  | lock _ => false
  | unlock _ => false
  | atomicBegin => false
  | atomicEnd => false
  | _ => true

theorem isPlain_of_isOrdinary {i : Instr} (h : i.isOrdinary) : i.isPlain := by
  cases i <;> simp_all [isOrdinary, isPlain]

theorem freedLock_of_neededLock {i : Instr} {l : LockId} (h : i.neededLock = some l) :
    i.freedLock = none := by
  cases i <;> simp_all [neededLock, freedLock]

/-- The locks held after an instruction, given those held before it. -/
def hold (held : List LockId) (i : Instr) : List LockId :=
  match i.neededLock, i.freedLock with
  | some l, _ => l :: held
  | none, some l => held.filter (· ≠ l)
  | none, none => held

theorem mem_hold {held : List LockId} {i : Instr} {l : LockId} :
    l ∈ i.hold held ↔ i.neededLock = some l ∨ l ∈ held ∧ i.freedLock ≠ some l := by
  unfold hold
  cases hneeded : i.neededLock with
  | some l' => simp [freedLock_of_neededLock hneeded, @eq_comm _ l]
  | none => cases i.freedLock <;> simp [@eq_comm _ l]

/-- An instruction takes a lock that is not held, and a mutex only if nothing is held; it gives back
only what is held. -/
structure Fits (held : List LockId) (i : Instr) : Prop where
  needed : ∀ l, i.neededLock = some l → l ∉ held ∧ (l = .atomic ∨ held = [])
  freed : ∀ l, i.freedLock = some l → l ∈ held

theorem fits_of_isPlain {held : List LockId} {i : Instr} (h : i.isPlain) : i.Fits held := by
  constructor <;> cases i <;> simp_all [isPlain, neededLock, freedLock]

theorem hold_of_isPlain {held : List LockId} {i : Instr} (h : i.isPlain) : i.hold held = held := by
  cases i <;> simp_all [isPlain, hold, neededLock, freedLock]

end Instr

/-- Sequences of plain steps, sections and atomic blocks over plain steps. -/
inductive Sectioned (plain : Instr → Bool) : List Instr → Prop
  | done : Sectioned plain []
  | step {i : Instr} {rest : List Instr} :
    plain i → Sectioned plain rest → Sectioned plain (i :: rest)
  | locked {m : String} {body rest : List Instr} :
    (∀ i ∈ body, plain i) → Sectioned plain rest →
      Sectioned plain (.lock m :: (body ++ .unlock m :: rest))
  | block {body rest : List Instr} :
    (∀ i ∈ body, plain i) → Sectioned plain rest →
      Sectioned plain (.atomicBegin :: (body ++ .atomicEnd :: rest))

/-- From the given locks held on, every instruction fits, and in the end no lock is held. -/
def Disciplined : List LockId → List Instr → Prop
  | held, [] => held = []
  | held, i :: rest => i.Fits held ∧ Disciplined (i.hold held) rest

namespace Disciplined

variable {held : List LockId} {body rest instrs : List Instr} {i : Instr}

/-- Plain steps do not matter. -/
theorem plain_append_iff (h : ∀ i ∈ body, i.isPlain) :
    Disciplined held (body ++ rest) ↔ Disciplined held rest := by
  induction body with
  | nil => rfl
  | cons i body ih =>
    have hi := h i (by simp)
    rw [List.cons_append, Disciplined, Instr.hold_of_isPlain hi, ih fun j hj => h j (by simp [hj])]
    exact and_iff_right (Instr.fits_of_isPlain hi)

theorem fits (h : Disciplined held instrs) {k : Nat} (hk : instrs[k]? = some i) :
    i.Fits ((instrs.take k).foldl Instr.hold held) := by
  induction instrs generalizing held k with
  | nil => simp at hk
  | cons j rest ih =>
    cases k with
    | zero =>
      obtain rfl : j = i := by simpa using hk
      exact h.1
    | succ k => exact ih h.2 (by simpa using hk)

theorem released (h : Disciplined held instrs) : instrs.foldl Instr.hold held = [] := by
  induction instrs generalizing held with
  | nil => exact h
  | cons i rest ih => exact ih h.2

end Disciplined

theorem Sectioned.disciplined {plain : Instr → Bool} {instrs : List Instr}
    (h : Sectioned plain instrs) (hplain : ∀ i, plain i → i.isPlain) : Disciplined [] instrs := by
  induction h with
  | done => rfl
  | step hi _ ih =>
    refine ⟨Instr.fits_of_isPlain (hplain _ hi), ?_⟩
    rwa [Instr.hold_of_isPlain (hplain _ hi)]
  | locked hbody _ ih =>
    refine ⟨⟨by simp, by simp [Instr.freedLock]⟩, ?_⟩
    rw [Disciplined.plain_append_iff fun i hi => hplain i (hbody i hi)]
    refine ⟨⟨by simp [Instr.neededLock], by simp [Instr.freedLock, Instr.hold, Instr.neededLock]⟩, ?_⟩
    simpa [Instr.hold, Instr.neededLock, Instr.freedLock] using ih
  | block hbody _ ih =>
    refine ⟨⟨by simp, by simp [Instr.freedLock]⟩, ?_⟩
    rw [Disciplined.plain_append_iff fun i hi => hplain i (hbody i hi)]
    refine ⟨⟨by simp [Instr.neededLock], by simp [Instr.freedLock, Instr.hold, Instr.neededLock]⟩, ?_⟩
    simpa [Instr.hold, Instr.neededLock, Instr.freedLock] using ih

/-- Without locks, there is no need for sections. -/
theorem Sectioned.of_forall {plain : Instr → Bool} {instrs : List Instr}
    (h : ∀ i ∈ instrs, plain i) : Sectioned plain instrs := by
  induction instrs with
  | nil => exact .done
  | cons i rest ih => exact .step (h i (by simp)) (ih fun j hj => h j (by simp [hj]))

/-- The only steps of a sectioned thread that are not plain are those of its sections and blocks. -/
theorem Sectioned.plain_of_mem {plain : Instr → Bool} {instrs : List Instr} {i : Instr}
    (h : Sectioned plain instrs) (hi : i ∈ instrs) (hplain : i.isPlain) : plain i := by
  induction h with
  | done => cases hi
  | step hj _ ih =>
    rcases List.mem_cons.1 hi with rfl | hi
    · exact hj
    · exact ih hi
  | locked hbody _ ih =>
    simp only [List.mem_cons, List.mem_append] at hi
    rcases hi with rfl | hi | rfl | hi
    · cases hplain
    · exact hbody i hi
    · cases hplain
    · exact ih hi
  | block hbody _ ih =>
    simp only [List.mem_cons, List.mem_append] at hi
    rcases hi with rfl | hi | rfl | hi
    · cases hplain
    · exact hbody i hi
    · cases hplain
    · exact ih hi

/-! ## The locks that a thread holds -/

namespace Program

variable {p : Program} {q : ProcessId} {k : Nat} {i : Instr}

/-- All threads of a program give back what they take, and hold nothing when they take a mutex. -/
def IsDisciplined (p : Program) : Prop := ∀ instrs ∈ p.threads, Disciplined [] instrs

/-- The locks that a thread holds at a program counter. -/
def heldAt (p : Program) (q : ProcessId) (k : Nat) : List LockId :=
  ((p.threads[q.index]?.getD []).take k).foldl Instr.hold []

@[simp] theorem heldAt_zero : p.heldAt q 0 = [] := rfl

theorem instrAt_eq_some_iff :
    p.instrAt q k = some i ↔ ∃ instrs, p.threads[q.index]? = some instrs ∧ instrs[k]? = some i := by
  simp [instrAt, Option.bind_eq_some_iff]

theorem heldAt_succ (h : p.instrAt q k = some i) : p.heldAt q (k + 1) = i.hold (p.heldAt q k) := by
  obtain ⟨instrs, hq, hk⟩ := instrAt_eq_some_iff.1 h
  rw [heldAt, heldAt, hq, Option.getD_some, List.take_add_one, hk]
  simp

namespace IsDisciplined

variable (hp : p.IsDisciplined)
include hp

theorem fits (h : p.instrAt q k = some i) : i.Fits (p.heldAt q k) := by
  obtain ⟨instrs, hq, hk⟩ := instrAt_eq_some_iff.1 h
  rw [heldAt, hq]
  exact (hp instrs (List.mem_of_getElem? hq)).fits hk

/-- A thread that has performed all its instructions holds no lock. -/
theorem heldAt_of_instrAt_eq_none (h : p.instrAt q k = none) : p.heldAt q k = [] := by
  rw [heldAt]
  cases hq : p.threads[q.index]? with
  | none => simp
  | some instrs =>
    have hk : instrs[k]? = none := by
      rw [Option.eq_none_iff_forall_ne_some]
      intro i hi
      have := instrAt_eq_some_iff.2 ⟨instrs, hq, hi⟩
      rw [h] at this
      cases this
    rw [Option.getD_some, List.take_of_length_le (List.getElem?_eq_none_iff.1 hk)]
    exact (hp instrs (List.mem_of_getElem? hq)).released

end IsDisciplined

/-! ## States that runs reach -/

/-- The holders of locks and the active threads are those that the program counters tell. -/
structure Coherent (p : Program) (s : ProgramState) : Prop where
  holder_iff : ∀ l q, s.holder l = some q ↔ ∃ k, s.pcs[q.index]? = some k ∧ l ∈ p.heldAt q k
  active_iff : ∀ r, s.active.hasKey r ↔ p.initiallyActive.hasKey r ∨
    ∃ q k pc, s.pcs[q.index]? = some k ∧ pc < k ∧ p.instrAt q pc = some (.spawn r)
  started : ∀ q k, s.pcs[q.index]? = some k → 0 < k → s.active.hasKey q

theorem coherent_initialState : p.Coherent p.initialState where
  holder_iff l q := by
    have hnone : p.initialState.holder l = none := rfl
    rw [hnone]
    constructor
    · intro h
      cases h
    · rintro ⟨k, hk, hheld⟩
      obtain rfl : k = 0 := by
        have := List.mem_of_getElem? hk
        exact List.eq_of_mem_replicate this
      simp at hheld
  active_iff r := by
    constructor
    · exact .inl
    · rintro (h | ⟨q, k, pc, hk, hpc, -⟩)
      · exact h
      · obtain rfl : k = 0 := List.eq_of_mem_replicate (List.mem_of_getElem? hk)
        omega
  started q k hk h := by
    obtain rfl : k = 0 := List.eq_of_mem_replicate (List.mem_of_getElem? hk)
    omega

namespace Coherent

variable {s t : ProgramState} {a : Step}

/-- What a thread holds can be read off its own program counter. -/
theorem holder_iff_of_counter (hs : p.Coherent s) (hk : s.pcs[q.index]? = some k) {l : LockId} :
    s.holder l = some q ↔ l ∈ p.heldAt q k := by
  rw [hs.holder_iff]
  simp [hk]

/-- A thread whose program counter is the same in two states holds the same locks in both. -/
theorem holder_congr (hs : p.Coherent s) (ht : p.Coherent t)
    (h : t.pcs[q.index]? = s.pcs[q.index]?) {l : LockId} :
    t.holder l = some q ↔ s.holder l = some q := by
  rw [hs.holder_iff, ht.holder_iff, h]

theorem after (hs : p.Coherent s) (ha : p.CanRun s a) : p.Coherent (s.after a) where
  holder_iff l q := by
    by_cases hq : q = a.process
    · subst hq
      rw [ProgramState.holder_after]
      simp only [ha.counter_after, Option.some.injEq, exists_eq_left']
      rw [heldAt_succ ha.hasStep, Instr.mem_hold, ← hs.holder_iff_of_counter ha.counter]
      split
      · rename_i hneeded
        simp [hneeded]
      · rename_i hneeded
        split
        · rename_i hfreed
          simp [hneeded, hfreed]
        · rename_i hfreed
          simp [hneeded, hfreed]
    · have hk : (s.after a).pcs[q.index]? = s.pcs[q.index]? := by
        rw [getElem?_pcs_after, if_neg (ProcessId.index_ne (Ne.symm hq))]
      rw [hk, ← hs.holder_iff, ha.holder_after_iff (Ne.symm hq)]
  active_iff r := by
    rw [ProgramState.hasKey_active_after, hs.active_iff]
    constructor
    · rintro ((h | ⟨q, k, pc, hk, hpc, hi⟩) | h)
      · exact .inl h
      · -- a counter that has passed a spawn stays behind it
        by_cases hq : a.process.index = q.index
        · exact .inr ⟨q, k + 1, pc, by rw [getElem?_pcs_after, if_pos hq, hk]; rfl, by omega, hi⟩
        · exact .inr ⟨q, k, pc, by rw [getElem?_pcs_after, if_neg hq, hk], hpc, hi⟩
      · exact .inr ⟨a.process, a.pc + 1, a.pc, ha.counter_after, by omega, h ▸ ha.hasStep⟩
    · rintro (h | ⟨q, k, pc, hk, hpc, hi⟩)
      · exact .inl (.inl h)
      · rw [getElem?_pcs_after] at hk
        split at hk
        · rename_i hq
          obtain rfl := ProcessId.index_inj.1 hq
          rw [ha.counter, Option.map_some, Option.some.injEq] at hk
          by_cases hlast : pc = a.pc
          · -- the spawn is the step itself
            subst hlast
            have hinstr : some a.instr = some (.spawn r) := by rw [← hi, ha.hasStep]
            exact .inr (Option.some.inj hinstr)
          · exact .inl (.inr ⟨a.process, a.pc, pc, ha.counter, by omega, hi⟩)
        · exact .inl (.inr ⟨q, k, pc, hk, hpc, hi⟩)
  started q k hk h := by
    rw [ProgramState.hasKey_active_after]
    rw [getElem?_pcs_after] at hk
    split at hk
    · rename_i hq
      obtain rfl := ProcessId.index_inj.1 hq
      exact .inl ha.active
    · exact .inl (hs.started q k hk h)

theorem afterAll (hs : p.Coherent s) {w : List Step} (hw : p.IsRun s w) :
    p.Coherent (s.afterAll w) := by
  induction w generalizing s with
  | nil => exact hs
  | cons a w ih => exact ih (hs.after hw.1) hw.2

end Coherent

/-! ## Giving back what is held -/

/-- A thread holds no lock. -/
def HoldsNothing (s : ProgramState) (q : ProcessId) : Prop := ∀ l, s.holder l ≠ some q

/-- Running alone, a thread can come to hold no lock. -/
def CanRelease (p : Program) (s : ProgramState) (q : ProcessId) : Prop :=
  ∃ w, p.IsRun s w ∧ (∀ a ∈ w, a.process = q) ∧ HoldsNothing (s.afterAll w) q

/-- Whether a thread, running alone, comes to hold no lock within some number of steps. -/
def releasesWithin (p : Program) (q : ProcessId) : Nat → ProgramState → Bool
  | 0, s => s.locks.toList.all (·.2 != q)
  | n + 1, s => s.locks.toList.all (·.2 != q) ||
    (p.stepOf s q).any fun a => p.releasesWithin q n (s.after a)

section Release

variable {s : ProgramState}

theorem holdsNothing_iff : s.locks.toList.all (·.2 != q) ↔ HoldsNothing s q := by
  rw [List.all_eq_true, HoldsNothing]
  constructor
  · intro h l hl
    have := h _ (SortedMap.get?_eq_some_iff.1 hl)
    simp at this
  · rintro h ⟨l, r⟩ he
    have := h l
    rw [ProgramState.holder, SortedMap.get?_eq_some_iff.2 he] at this
    simpa using this

theorem releasesWithin_iff {n : Nat} : p.releasesWithin q n s ↔
    ∃ w, w.length ≤ n ∧ p.IsRun s w ∧ (∀ a ∈ w, a.process = q) ∧ HoldsNothing (s.afterAll w) q := by
  induction n generalizing s with
  | zero =>
    rw [releasesWithin, holdsNothing_iff]
    constructor
    · exact fun h => ⟨[], Nat.le_refl _, trivial, by simp, h⟩
    · rintro ⟨w, hlength, -, -, h⟩
      obtain rfl := List.eq_nil_of_length_eq_zero (Nat.le_zero.1 hlength)
      exact h
  | succ n ih =>
    rw [releasesWithin, Bool.or_eq_true, holdsNothing_iff, Option.any_eq_true]
    constructor
    · rintro (h | ⟨a, ha, h⟩)
      · exact ⟨[], Nat.zero_le _, trivial, by simp, h⟩
      · obtain ⟨haq, hrun⟩ := stepOf_eq_some_iff.1 ha
        obtain ⟨w, hlength, hw, hown, h⟩ := ih.1 h
        exact ⟨a :: w, by simpa using hlength, ⟨hrun, hw⟩, by simpa [haq] using hown, h⟩
    · rintro ⟨w, hlength, hw, hown, h⟩
      cases w with
      | nil => exact .inl h
      | cons a w =>
        refine .inr ⟨a, stepOf_eq_some_iff.2 ⟨hown a (by simp), hw.1⟩, ih.2 ?_⟩
        exact ⟨w, by simpa using hlength, hw.2, fun b hb => hown b (by simp [hb]), h⟩

/-- No run is longer than the program has instructions, so that is long enough to look for one. -/
theorem releasesWithin_instrCount_iff :
    p.releasesWithin q p.instrCount s ↔ p.CanRelease s q := by
  rw [releasesWithin_iff]
  constructor
  · rintro ⟨w, -, h⟩
    exact ⟨w, h⟩
  · rintro ⟨w, h⟩
    exact ⟨w, h.1.length_le, h⟩

instance : Decidable (p.CanRelease s q) := decidable_of_iff _ releasesWithin_instrCount_iff

/-- Every thread that holds a lock can come to hold none, running alone. -/
def IsReleasable (p : Program) (s : ProgramState) : Prop :=
  ∀ e ∈ s.locks.toList, p.CanRelease s e.2

instance : Decidable (p.IsReleasable s) := inferInstanceAs (Decidable (∀ e ∈ _, _))

theorem IsReleasable.canRelease (h : p.IsReleasable s) (q : ProcessId) : p.CanRelease s q := by
  by_cases hnothing : HoldsNothing s q
  · exact ⟨[], trivial, by simp, hnothing⟩
  · simp only [HoldsNothing, ne_eq, not_forall, not_not] at hnothing
    obtain ⟨l, hl⟩ := hnothing
    exact h _ (SortedMap.get?_eq_some_iff.1 hl)

end Release

namespace Coherent

variable {s : ProgramState}

/-- A thread that holds a lock has an instruction left, and it can perform it unless another thread is
in an atomic block. -/
theorem exists_step_of_held (hp : p.IsDisciplined) (hs : p.Coherent s) {l : LockId}
    (hk : s.pcs[q.index]? = some k) (hheld : l ∈ p.heldAt q k)
    (hfree : ∀ h, s.holder .atomic = some h → h = q) :
    ∃ i, p.instrAt q k = some i ∧ p.CanRun s ⟨q, k, i⟩ := by
  obtain ⟨i, hi⟩ : ∃ i, p.instrAt q k = some i := by
    rw [← Option.isSome_iff_exists, Option.isSome_iff_ne_none]
    intro hnone
    rw [hp.heldAt_of_instrAt_eq_none hnone] at hheld
    cases hheld
  have hpos : 0 < k := by
    rcases Nat.eq_zero_or_pos k with rfl | hpos
    · simp at hheld
    · exact hpos
  have hfits := hp.fits hi
  refine ⟨i, hi, hs.started q k hk hpos, hk, hi, hfree, fun l' hl' => ?_, fun l' hl' => ?_⟩
  · -- the lock is that of atomic blocks, and `q` is not in one
    obtain ⟨hnot, rfl | hempty⟩ := hfits.needed l' hl'
    · rw [Option.eq_none_iff_forall_ne_some]
      intro r hr
      obtain rfl := hfree r hr
      exact hnot ((hs.holder_iff_of_counter hk).1 hr)
    · rw [hempty] at hheld
      cases hheld
  · exact (hs.holder_iff_of_counter hk).2 (hfits.freed l' hl')

/-- A thread of a disciplined program can come to hold no lock, unless another thread is in an atomic
block. -/
theorem canRelease (hp : p.IsDisciplined) (hs : p.Coherent s) (hk : s.pcs[q.index]? = some k)
    (hfree : ∀ h, s.holder .atomic = some h → h = q) : p.CanRelease s q := by
  -- by induction on the number of instructions left
  generalize hn : (p.threads[q.index]?.getD []).length - k = n
  induction n using Nat.strongRecOn generalizing s k with
  | ind n ih =>
  by_cases hheld : p.heldAt q k = []
  · refine ⟨[], trivial, by simp, fun l hl => ?_⟩
    rw [ProgramState.afterAll_nil, hs.holder_iff_of_counter hk, hheld] at hl
    cases hl
  · obtain ⟨l, hl⟩ := List.exists_mem_of_ne_nil _ hheld
    obtain ⟨i, hi, hrun⟩ := hs.exists_step_of_held hp hk hl hfree
    have hlt : k < (p.threads[q.index]?.getD []).length := by
      obtain ⟨instrs, hq, hk⟩ := instrAt_eq_some_iff.1 hi
      rw [hq]
      exact (List.getElem?_eq_some_iff.1 hk).1
    have hk' : (s.after ⟨q, k, i⟩).pcs[q.index]? = some (k + 1) := hrun.counter_after
    have hfree' : ∀ h, (s.after ⟨q, k, i⟩).holder .atomic = some h → h = q := by
      intro h hh
      rcases s.holder_of_after _ hh with ⟨-, rfl⟩ | hh
      · rfl
      · exact hfree h hh
    obtain ⟨w, hw, hown, hnothing⟩ := ih _ (by omega) (hs.after hrun) hk' hfree' rfl
    exact ⟨⟨q, k, i⟩ :: w, ⟨hrun, hw⟩, by simpa using hown, hnothing⟩

end Coherent

end Program

end Interleaving
