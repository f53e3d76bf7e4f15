import Interleaving.Proofs.Sections

/-!
# Detours

A run from `s` performs `v` and then `e`. The step `q` can run in `s` too, `v` does not depend on it,
and `e` does. With `q` performed first, `v` is still possible, but `e` may have to wait: the thread of
`q` may be in an atomic block, or hold the lock that `e` needs (`Blocks`). A detour (`Detour`) lets
the threads run until this is over, and performs `e` at once. Any run along which the thread of `q`
comes to hold no lock begins with a detour (`exists_detour`); in a disciplined program there is one on
which the thread of `q` runs alone (`exists_detour_alone`).

What happens on a detour and matters to `e` depends on `q`: it is done by the thread of `q` itself, or
enters or leaves an atomic block (`Detour.depends_of_mem`). No other step can take or give back the
lock that `e` waits for, but a third thread could spawn the thread of `e` once more, which changes
nothing and still counts as dependent; so on a detour with other threads it matters that a thread that
waits for a mutex cannot be spawned again (`RespawnsFree`). Nor does `e` wait to be spawned: it could run
after `v`, so its thread was active before, or a step of `v` has spawned it. Only steps of the same
thread can spawn it later on (`HasSoleSpawners`), and they come after the one in `v` however the run is
reordered.
-/

namespace Interleaving

namespace Instr

/-- The thread that an instruction spawns. -/
def spawned : Instr → Option ProcessId
  | spawn r => some r
  | _ => none

theorem mem_spawned_iff {i : Instr} {r : ProcessId} : r ∈ i.spawned ↔ i = spawn r := by
  cases i <;> simp [spawned]

end Instr

namespace Program

variable {p : Program} {r : ProcessId} {s t : ProgramState} {b c d e q : Step}
  {u v w x y z rest body : List Step}

/-! ## Waiting for a thread -/

/-- The thread `r` keeps `e` from running: it is in an atomic block, or holds the lock that `e`
needs. -/
def Blocks (t : ProgramState) (r : ProcessId) (e : Step) : Prop :=
  ∃ l, t.holder l = some r ∧ (l = .atomic ∨ e.instr.neededLock = some l)

theorem Blocks.not_canRun (h : Blocks t r e) (hne : e.process ≠ r) : ¬p.CanRun t e := by
  rintro he
  obtain ⟨l, hl, rfl | hneeded⟩ := h
  · exact hne (he.free r hl).symm
  · rw [he.needed l hneeded] at hl
    cases hl

/-- If another thread makes a step meanwhile, then `e` waits for a lock. -/
theorem Blocks.exists_neededLock (h : Blocks t r e) (hc : p.CanRun t c) (hne : c.process ≠ r) :
    ∃ l, e.instr.neededLock = some l ∧ t.holder l = some r := by
  obtain ⟨l, hl, rfl | hneeded⟩ := h
  · exact absurd (hc.free r hl).symm hne
  · exact ⟨l, hneeded, hl⟩

/-- Whether a thread blocks a step can be read off its program counter. -/
theorem Coherent.blocks_congr (hs : p.Coherent s) (ht : p.Coherent t)
    (h : t.pcs[r.index]? = s.pcs[r.index]?) (hblocks : Blocks s r e) : Blocks t r e := by
  obtain ⟨l, hl, hle⟩ := hblocks
  exact ⟨l, (hs.holder_congr ht h).2 hl, hle⟩

/-- A step that depends on `e`, made while the thread `r` blocks `e`, is one of `r` or has to do with
an atomic block, unless it spawns a thread that waits for a mutex. -/
theorem Blocks.own_or_boundary (h : Blocks t r e) (hc : p.CanRun t c)
    (hce : Step.Depends none c e) (hne : c.process ≠ e.process)
    (hspawns : c.spawns e → e.instr.mutex = none) :
    c.process = r ∨ c.instr.isAtomicBoundary := by
  by_cases hcr : c.process = r
  · exact .inl hcr
  obtain ⟨l, hneeded, hl⟩ := h.exists_neededLock hc hcr
  right
  -- a step on the same mutex would need the lock that `r` holds, or hold it
  have hmutex : ∀ m, e.instr = .lock m → c.instr.mutex ≠ some m := by
    intro m hm hcm
    obtain rfl : LockId.named m = l := by simpa [hm, Instr.neededLock] using hneeded
    cases hci : c.instr <;> simp [hci, Instr.mutex] at hcm
    · have := hc.needed (.named m) (by simp [hci, Instr.neededLock, hcm])
      rw [hl] at this
      cases this
    · have := hc.freed (.named m) (by simp [hci, Instr.freedLock, hcm])
      rw [hl, Option.some.injEq] at this
      exact hcr this.symm
  have hatomic : e.instr ≠ .atomicBegin := by
    intro hbegin
    obtain rfl : LockId.atomic = l := by simpa [hbegin, Instr.neededLock] using hneeded
    exact hcr (hc.free r hl).symm
  unfold Step.Depends Step.dependent at hce
  cases hei : e.instr <;>
    simp_all [Instr.neededLock, Instr.isAtomicBoundary, Step.spawns, Step.shareMutex, Step.conflict,
      Instr.access, Instr.mutex]
  all_goals grind

/-! ## Along a run that blocks a step -/

section Along

variable (hblocks : ∀ x₁ c x₂, x = x₁ ++ c :: x₂ → Blocks (t.afterAll x₁) r e)
include hblocks

theorem blocks_tail {x' : List Step} (hx : x = c :: x') :
    ∀ x₁ d x₂, x' = x₁ ++ d :: x₂ → Blocks ((t.after c).afterAll x₁) r e := by
  rintro x₁ d x₂ rfl
  exact hblocks (c :: x₁) d x₂ hx

/-- The thread of a blocked step stays where it is. -/
theorem process_ne_of_blocks (hx : p.IsRun t x) (hcounter : t.pcs[e.process.index]? = some e.pc)
    (he : p.HasStep e) (hne : e.process ≠ r) : ∀ c ∈ x, c.process ≠ e.process := by
  intro c hc hce
  obtain ⟨x₁, d, x₂, hsplit, hd, hx₁⟩ := exists_first (P := fun c => c.process = e.process)
    ⟨c, hc, hce⟩
  have hwaits := hblocks x₁ d x₂ hsplit
  rw [hsplit] at hx
  -- its next step would be `e`
  obtain rfl : d = e := hx.first_eq hcounter he hx₁ hd
  exact hwaits.not_canRun hne (isRun_append.1 hx).2.1

/-- The lock that a step waits for is not taken by a third thread. -/
theorem holder_of_blocks {l : LockId} (hx : p.IsRun t x) (hl : e.instr.neededLock = some l)
    (ht : ∀ h, t.holder l = some h → h = r) : ∀ h, (t.afterAll x).holder l = some h → h = r := by
  induction x generalizing t with
  | nil => exact ht
  | cons c x ih =>
    refine ih (blocks_tail hblocks rfl) hx.2 fun h hh => ?_
    rcases t.holder_of_after c hh with ⟨hneeded, rfl⟩ | hh
    · by_contra hne
      -- the thread `r` would hold the lock that `c` takes
      obtain ⟨l', hl', hholder⟩ := (hblocks [] c x rfl).exists_neededLock hx.1 hne
      obtain rfl : l = l' := by rw [hl, Option.some.injEq] at hl'; exact hl'
      rw [ProgramState.afterAll_nil, hx.1.needed l hneeded] at hholder
      cases hholder
    · exact ht h hh

end Along

/-- The step that ends the waiting is one of the thread waited for, and leaves no thread in an atomic
block. -/
theorem holder_atomic_of_unblocks (hd : p.CanRun t d) (h : Blocks t r e)
    (h' : ¬Blocks (t.after d) r e) : (t.after d).holder .atomic = none := by
  have hown : d.process = r := by
    obtain ⟨l, hl, hle⟩ := h
    by_contra hne
    exact h' ⟨l, (hd.holder_after_iff hne).2 hl, hle⟩
  rw [Option.eq_none_iff_forall_ne_some]
  intro h₀ hh
  -- only the thread `r` can be in an atomic block, and then it would still block `e`
  suffices h₀ = r from h' ⟨.atomic, this ▸ hh, .inl rfl⟩
  rw [← hown]
  rcases t.holder_of_after d hh with ⟨-, h⟩ | h
  · exact h
  · exact hd.free h₀ h

/-! ## Spawning -/

/-- The steps that spawn a thread are all of one thread, unless it runs from the start. -/
def HasSoleSpawners (p : Program) : Prop := ∀ a, p.HasStep a → ∀ r ∈ a.instr.spawned,
  p.initiallyActive.hasKey r ∨ ∀ b, p.HasStep b → r ∈ b.instr.spawned → b.process = a.process

/-- A thread that may be spawned when it runs already, as it runs from the start or another step spawns
it too, uses no mutex. -/
def RespawnsFree (p : Program) : Prop := ∀ a, p.HasStep a → ∀ r ∈ a.instr.spawned,
  (p.initiallyActive.hasKey r ∨ ∃ b, p.HasStep b ∧ b ≠ a ∧ r ∈ b.instr.spawned) →
    ∀ e, p.HasStep e → e.process = r → e.instr.mutex = none

/-- The steps of a program are finitely many, so both can be checked. -/
theorem hasSoleSpawners_iff : p.HasSoleSpawners ↔ ∀ a ∈ p.allSteps, ∀ r ∈ a.instr.spawned,
    p.initiallyActive.hasKey r ∨
      ∀ b ∈ p.allSteps, r ∈ b.instr.spawned → b.process = a.process := by
  simp only [HasSoleSpawners, mem_allSteps_iff]

theorem respawnsFree_iff : p.RespawnsFree ↔ ∀ a ∈ p.allSteps, ∀ r ∈ a.instr.spawned,
    (p.initiallyActive.hasKey r ∨ ∃ b ∈ p.allSteps, b ≠ a ∧ r ∈ b.instr.spawned) →
      ∀ e ∈ p.allSteps, e.process = r → e.instr.mutex = none := by
  simp only [RespawnsFree, mem_allSteps_iff]

instance : Decidable p.HasSoleSpawners := decidable_of_iff _ hasSoleSpawners_iff.symm

instance : Decidable p.RespawnsFree := decidable_of_iff _ respawnsFree_iff.symm

theorem mem_spawned_of_spawns (h : c.spawns e) : e.process ∈ c.instr.spawned :=
  Instr.mem_spawned_iff.2 (beq_iff_eq.1 h)

/-! ## Detours -/

/-- The step `e` could run after `v`, which `q` does not depend on. With `q` performed first, it waits
for the thread of `q` while `body` is performed after `v`. -/
structure Waits (p : Program) (s : ProgramState) (q : Step) (v body : List Step) (e : Step) :
    Prop where
  first : p.CanRun s q
  isRun : p.IsRun s v
  independent : ∀ c ∈ v, ¬Step.Depends none q c
  next : p.CanRun (s.afterAll v) e
  process_ne : e.process ≠ q.process
  isRun_body : p.IsRun (s.after q) (v ++ body)
  blocks : ∀ x c y, body = x ++ c :: y → Blocks ((s.after q).afterAll (v ++ x)) q.process e

namespace Waits

variable (h : p.Waits s q v body e)
include h

theorem own : ∀ c ∈ v, c.process ≠ q.process := fun c hc hcq =>
  h.independent c hc (Step.dependent_of_process_eq hcq.symm)

theorem afterAll_after : (s.after q).afterAll v = (s.afterAll v).after q :=
  (h.isRun.after_of_independent h.first fun c hc hcq => h.independent c hc hcq.symm).2

theorem isRun_after : p.IsRun ((s.after q).afterAll v) body := (isRun_append.1 h.isRun_body).2

theorem blocks_after {c : Step} (hsplit : body = x ++ c :: y) :
    Blocks (((s.after q).afterAll v).afterAll x) q.process e := by
  rw [← ProgramState.afterAll_append]
  exact h.blocks x c y hsplit

/-- Apart from the locks that `q` takes, the holders after `v` are the same with `q` performed
first. -/
theorem holder_after {l : LockId} {r : ProcessId}
    (hr : ((s.after q).afterAll v).holder l = some r) :
    r = q.process ∨ (s.afterAll v).holder l = some r := by
  rw [h.afterAll_after] at hr
  exact ((s.afterAll v).holder_of_after q hr).imp_left And.right

theorem counter_after : ((s.after q).afterAll v).pcs[e.process.index]? = some e.pc := by
  rw [h.afterAll_after, getElem?_pcs_after, if_neg (ProcessId.index_ne (Ne.symm h.process_ne)),
    h.next.counter]

/-- The thread of `e` stays at `e` all the time. -/
theorem own_process : ∀ c ∈ body, c.process ≠ e.process :=
  process_ne_of_blocks (fun _ _ _ => h.blocks_after) h.isRun_after h.counter_after h.next.hasStep
    h.process_ne

theorem counter : ((s.after q).afterAll (v ++ body)).pcs[e.process.index]? = some e.pc := by
  rw [ProgramState.afterAll_append, getElem?_pcs_afterAll_of_ne h.own_process, h.counter_after]

/-- Once the thread of `q` does not block it any more, no thread is in an atomic block that `e` would
have to wait for. -/
theorem free (hfree : ¬Blocks ((s.after q).afterAll (v ++ body)) q.process e) :
    ∀ r, ((s.after q).afterAll (v ++ body)).holder .atomic = some r → r = e.process := by
  intro r hr
  rcases List.eq_nil_or_concat body with hnil | ⟨x, d, hlast⟩
  · rw [hnil, List.append_nil] at hr hfree
    rcases h.holder_after hr with rfl | hr'
    · exact absurd ⟨.atomic, hr, .inl rfl⟩ hfree
    · exact h.next.free r hr'
  · -- the last step of `body` is what ends the waiting
    rw [List.concat_eq_append] at hlast
    have hrun := h.isRun_after
    rw [hlast] at hrun hr hfree
    rw [← List.append_assoc, ProgramState.afterAll_append] at hr hfree
    have hblocks := h.blocks_after hlast
    rw [← ProgramState.afterAll_append] at hblocks
    have hd := (isRun_append.1 hrun).2.1
    rw [← ProgramState.afterAll_append] at hd
    have hnone := holder_atomic_of_unblocks hd hblocks hfree
    rw [ProgramState.afterAll_cons, ProgramState.afterAll_nil, hnone] at hr
    cases hr

/-- Nor does any thread hold the lock that `e` needs. -/
theorem needed (hfree : ¬Blocks ((s.after q).afterAll (v ++ body)) q.process e) {l : LockId}
    (hl : e.instr.neededLock = some l) : ((s.after q).afterAll (v ++ body)).holder l = none := by
  rw [Option.eq_none_iff_forall_ne_some]
  intro r hr
  suffices r = q.process from hfree ⟨l, this ▸ hr, .inr hl⟩
  rw [ProgramState.afterAll_append] at hr
  refine holder_of_blocks (fun _ _ _ => h.blocks_after) h.isRun_after hl (fun r' hr' => ?_) r hr
  refine (h.holder_after hr').resolve_right fun hholder => ?_
  rw [h.next.needed l hl] at hholder
  cases hholder

variable (hs : p.Coherent s)
include hs

/-- So it can run. -/
theorem canRun (hfree : ¬Blocks ((s.after q).afterAll (v ++ body)) q.process e) :
    p.CanRun ((s.after q).afterAll (v ++ body)) e := by
  refine ⟨?_, h.counter, h.next.hasStep, h.free hfree, fun l => h.needed hfree, fun l hl => ?_⟩
  · rw [ProgramState.afterAll_append]
    refine hasKey_active_afterAll.2 (.inl ?_)
    rw [h.afterAll_after]
    exact (ProgramState.hasKey_active_after _ _).2 (.inl h.next.active)
  · -- the thread of `e` stays where it is, and so do the locks that it holds
    have hcoherent := (hs.after h.first).afterAll h.isRun_body
    refine ((hs.afterAll h.isRun).holder_congr hcoherent ?_).2 (h.next.freed l hl)
    rw [h.counter, h.next.counter]

/-- The thread of `q` did not hold the lock that `e` needs when it performed `q`. -/
theorem reversible : Step.reversible s q e := by
  unfold Step.reversible
  split
  · rename_i l hl
    rw [bne_iff_ne, ne_eq]
    intro hholder
    have hcounter := getElem?_pcs_afterAll_of_ne (s := s) h.own
    rw [← hs.holder_congr (hs.afterAll h.isRun) hcounter, h.next.needed l hl] at hholder
    cases hholder
  · rfl

/-- If a step on the way spawns the thread of `e`, it was active before, or a step of the same thread
has spawned it in `v`. -/
theorem spawned (hspawn : p.HasSoleSpawners) (hc : c = q ∨ c ∈ body) (hce : c.spawns e) :
    s.active.hasKey e.process ∨ ∃ a ∈ v, a.spawns e ∧ a.process = c.process := by
  rcases hasKey_active_afterAll.1 h.next.active with hactive | ⟨a, ha, hae⟩
  · exact .inl hactive
  have hstep : p.HasStep c := by
    rcases hc with rfl | hc
    · exact h.first.hasStep
    · exact h.isRun_after.hasStep hc
  rcases hspawn c hstep _ (mem_spawned_of_spawns hce) with hactive | hsole
  · exact .inl ((hs.active_iff _).2 (.inl hactive))
  · have hspawns : a.spawns e := by simp [Step.spawns, hae]
    exact .inr ⟨a, ha, hspawns,
      hsole a (h.isRun.hasStep ha) (mem_spawned_of_spawns hspawns)⟩

/-- What made the thread of `e` active is none of the steps on the way. -/
theorem respawned (hc : c ∈ body) : p.initiallyActive.hasKey e.process ∨
    ∃ b, p.HasStep b ∧ b ≠ c ∧ e.process ∈ b.instr.spawned := by
  rcases ((hs.afterAll h.isRun).active_iff _).1 h.next.active with
    hactive | ⟨r, k, pc, hk, hlt, hi⟩
  · exact .inl hactive
  · refine .inr ⟨⟨r, pc, .spawn e.process⟩, hi, ?_, Instr.mem_spawned_iff.2 rfl⟩
    intro hbc
    -- the step would have been made before
    obtain ⟨j, hle, hj⟩ := h.isRun_after.le_counter hc
    rw [← hbc] at hle hj
    rw [h.afterAll_after, getElem?_pcs_after, hk] at hj
    split at hj <;> simp at hle hj <;> omega

/-- What happens on the way and matters to `e` is done by the thread of `q`, or has to do with an atomic
block. -/
theorem own_or_boundary (hfree : p.RespawnsFree) (hc : c ∈ body) (hce : Step.Depends none c e) :
    c.process = q.process ∨ c.instr.isAtomicBoundary := by
  obtain ⟨x, y, rfl⟩ := List.append_of_mem hc
  have hrun := (isRun_append.1 h.isRun_after).2.1
  refine (h.blocks_after rfl).own_or_boundary hrun hce (h.own_process c hc) fun hspawns => ?_
  exact hfree c hrun.hasStep _ (mem_spawned_of_spawns hspawns) (h.respawned hs hc) e
    h.next.hasStep rfl

end Waits

/-- The run `u` from `s` first performs `v`, which `q` does not depend on, and then `e`, which it
depends on. With `q` performed first, `e` comes after `v` and `body`. -/
structure Detour (p : Program) (s : ProgramState) (q : Step) (u v body : List Step) (e : Step) :
    Prop where
  split : ∃ rest, u = v ++ e :: rest
  independent : ∀ c ∈ v, ¬Step.Depends none q c
  depends : Step.Depends none q e
  process_ne : e.process ≠ q.process
  reversible : Step.reversible s q e
  isRun : p.IsRun (s.after q) (v ++ (body ++ [e]))
  own_process : ∀ c ∈ body, c.process ≠ e.process
  /-- What happens on the way and matters to `e` is done by the thread of `q`, or has to do with an atomic
  block. -/
  own_or_boundary : ∀ c ∈ body, Step.Depends none c e →
    c.process = q.process ∨ c.instr.isAtomicBoundary
  /-- The thread of `e` does not become active on the way. -/
  spawned : ∀ c, c = q ∨ c ∈ body → c.spawns e →
    s.active.hasKey e.process ∨ ∃ a ∈ v, a.spawns e ∧ a.process = c.process
  /-- Until the end of `body`, the thread of `q` blocks `e`. -/
  blocks : ∀ x c y, body = x ++ c :: y → Blocks ((s.after q).afterAll (v ++ x)) q.process e

/-- So what happens on the way and matters to `e` depends on `q`. -/
theorem Detour.depends_of_mem (hD : p.Detour s q u v body e) (hc : c ∈ body)
    (hce : Step.Depends none c e) : Step.Depends none q c := by
  rcases hD.own_or_boundary c hc hce with h | h
  · exact Step.dependent_of_process_eq h.symm
  · simp [Step.Depends, Step.dependent, h]

/-- Once the waiting is over, there is a detour. -/
theorem Waits.detour (h : p.Waits s q v body e) (hs : p.Coherent s) (hspawn : p.HasSoleSpawners)
    (hqe : Step.Depends none q e)
    (hown : ∀ c ∈ body, Step.Depends none c e → c.process = q.process ∨ c.instr.isAtomicBoundary)
    (hfree : ¬Blocks ((s.after q).afterAll (v ++ body)) q.process e) :
    p.Detour s q (v ++ e :: rest) v body e := by
  have hrun : p.IsRun (s.after q) (v ++ (body ++ [e])) := by
    rw [← List.append_assoc]
    exact isRun_append.2 ⟨h.isRun_body, h.canRun hs hfree, trivial⟩
  exact ⟨⟨rest, rfl⟩, h.independent, hqe, h.process_ne, h.reversible hs, hrun, h.own_process, hown,
    fun _ hc hce => h.spawned hs hspawn hc hce, h.blocks⟩

/-! ### Where detours come from -/

section Exists

variable (hq : p.CanRun s q) (hu : p.IsRun s (v ++ e :: rest))
  (hindependent : ∀ c ∈ v, ¬Step.Depends none q c) (hne : e.process ≠ q.process)
include hq hu hindependent hne

/-- On a run along which the thread of `q` comes to hold no lock, the waiting is over at some time. -/
theorem exists_waits (hw : p.IsRun (s.after q) (v ++ w))
    (hnothing : HoldsNothing ((s.after q).afterAll (v ++ w)) q.process) :
    ∃ body z, w = body ++ z ∧ p.Waits s q v body e ∧
      ¬Blocks ((s.after q).afterAll (v ++ body)) q.process e := by
  obtain ⟨hv, he, -⟩ := isRun_append.1 hu
  obtain ⟨body, z, rfl, hfree, hblocks⟩ :=
    exists_shortest (P := fun x => ¬Blocks ((s.after q).afterAll (v ++ x)) q.process e) (w := w)
      fun ⟨l, hl, _⟩ => hnothing l hl
  simp only [not_not] at hblocks
  rw [← List.append_assoc] at hw
  exact ⟨body, z, rfl, ⟨hq, hv, hindependent, he, hne, (isRun_append.1 hw).1, hblocks⟩, hfree⟩

variable (hs : p.Coherent s) (hspawn : p.HasSoleSpawners) (hqe : Step.Depends none q e)
include hs hspawn hqe

/-- So the run begins with a detour. -/
theorem exists_detour (hrespawns : p.RespawnsFree) (hw : p.IsRun (s.after q) (v ++ w))
    (hnothing : HoldsNothing ((s.after q).afterAll (v ++ w)) q.process) :
    ∃ body z, w = body ++ z ∧ p.Detour s q (v ++ e :: rest) v body e := by
  obtain ⟨body, z, hsplit, h, hfree⟩ := exists_waits hq hu hindependent hne hw hnothing
  exact ⟨body, z, hsplit,
    h.detour hs hspawn hqe (fun _ hc hce => h.own_or_boundary hs hrespawns hc hce) hfree⟩

/-- In a disciplined program, the thread of `q` can make the detour alone: no other thread is in an
atomic block when it has performed `q`. -/
theorem exists_detour_alone (hp : p.IsDisciplined) :
    ∃ body, (∀ c ∈ body, c.process = q.process) ∧ p.Detour s q (v ++ e :: rest) v body e := by
  have hv := (isRun_append.1 hu).1
  have hindependent' : ∀ c ∈ v, ¬Step.Depends none c q := fun c hc hcq =>
    hindependent c hc hcq.symm
  obtain ⟨hv', hstate⟩ := hv.after_of_independent hq hindependent'
  have hlast : p.CanRun (s.afterAll v) q := (canRun_afterAll_iff hindependent').2 hq
  have hcoherent := (hs.after hq).afterAll hv'
  have hcounter : ((s.after q).afterAll v).pcs[q.process.index]? = some (q.pc + 1) := by
    rw [hstate, hlast.counter_after]
  obtain ⟨w, hw, hown, hnothing⟩ := hcoherent.canRelease hp hcounter fun r hr => by
    rw [hstate] at hr
    rcases (s.afterAll v).holder_of_after q hr with ⟨-, h⟩ | h
    · exact h
    · exact hlast.free r h
  rw [← ProgramState.afterAll_append] at hnothing
  obtain ⟨body, z, rfl, h, hfree⟩ :=
    exists_waits hq hu hindependent hne (isRun_append.2 ⟨hv', hw⟩) hnothing
  have hown : ∀ c ∈ body, c.process = q.process := fun c hc => hown c (by simp [hc])
  exact ⟨body, hown, h.detour hs hspawn hqe (fun c hc _ => .inl (hown c hc)) hfree⟩

end Exists

end Program
end Interleaving
