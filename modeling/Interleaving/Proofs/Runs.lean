import Mathlib.Data.List.Perm.Subperm
import Interleaving.Program.Basic
import Interleaving.Proofs.Reordering
import Interleaving.Proofs.Steps

/-!
# Runs of a program

`Program.IsRun p s w` says that the steps of `w` can be performed one after the other from `s`. No
step occurs twice in a run (`IsRun.nodup`), and a reordering of a run that keeps the order of
dependent steps is a run to the same state (`IsRun.reorder`). The enumeration of a program's terminal
states finds exactly the ends of complete runs (`mem_terminalStates_iff`).
-/

namespace Interleaving

/-- Whether the order of two steps matters, as a proposition. -/
abbrev Step.Depends (precision : Precision) (a b : Step) : Prop := Step.dependent precision a b

theorem Step.Depends.symm {precision : Precision} {a b : Step} (h : Step.Depends precision a b) :
    Step.Depends precision b a := by
  rw [Step.Depends, Step.dependent_comm]
  exact h

/-- The state after a list of steps. -/
def ProgramState.afterAll (s : ProgramState) (w : List Step) : ProgramState :=
  w.foldl ProgramState.after s

namespace ProgramState

variable {s : ProgramState} {a : Step} {x y : List Step}

@[simp] theorem afterAll_nil : s.afterAll [] = s := rfl

@[simp] theorem afterAll_cons : s.afterAll (a :: x) = (s.after a).afterAll x := rfl

@[simp] theorem afterAll_append : s.afterAll (x ++ y) = (s.afterAll x).afterAll y :=
  List.foldl_append

end ProgramState

namespace Program

/-- The steps of a list can be performed one after the other. -/
def IsRun (p : Program) : ProgramState → List Step → Prop
  | _, [] => True
  | s, a :: w => p.CanRun s a ∧ p.IsRun (s.after a) w

/-- A run after which no step can be performed. -/
structure IsComplete (p : Program) (s : ProgramState) (w : List Step) : Prop where
  isRun : p.IsRun s w
  terminal : p.isTerminal (s.afterAll w)

variable {p : Program} {s : ProgramState} {a b : Step} {w w' x y : List Step}

@[simp] theorem isRun_nil : p.IsRun s [] := trivial

@[simp] theorem isRun_cons : p.IsRun s (a :: w) ↔ p.CanRun s a ∧ p.IsRun (s.after a) w := Iff.rfl

theorem isRun_append : p.IsRun s (x ++ y) ↔ p.IsRun s x ∧ p.IsRun (s.afterAll x) y := by
  induction x generalizing s with
  | nil => simp
  | cons a x ih => simp [ih, and_assoc]

/-! ## Program counters -/

theorem getElem?_pcs_after (i : Nat) :
    (s.after a).pcs[i]? = if a.process.index = i then s.pcs[i]?.map (· + 1) else s.pcs[i]? := by
  rw [ProgramState.pcs_after]
  split
  · rename_i h
    subst h
    simp
  · rename_i h
    exact List.getElem?_modify_ne _ _ h

/-- A step leaves its thread behind its instruction. -/
theorem CanRun.counter_after (h : p.CanRun s a) :
    (s.after a).pcs[a.process.index]? = some (a.pc + 1) := by
  rw [getElem?_pcs_after, if_pos rfl, h.counter, Option.map_some]

/-- The steps of other threads leave the program counter of a thread alone. -/
theorem getElem?_pcs_afterAll_of_ne {r : ProcessId} (hx : ∀ c ∈ x, c.process ≠ r) :
    (s.afterAll x).pcs[r.index]? = s.pcs[r.index]? := by
  induction x generalizing s with
  | nil => rfl
  | cons c x ih =>
    rw [ProgramState.afterAll_cons, ih fun d hd => hx d (by simp [hd]), getElem?_pcs_after,
      if_neg (ProcessId.index_ne (hx c (by simp)))]

/-- The order of steps does not matter for program counters. -/
theorem getElem?_pcs_afterAll_of_perm (h : x.Perm y) (i : Nat) :
    (s.afterAll x).pcs[i]? = (s.afterAll y).pcs[i]? := by
  induction h generalizing s with
  | nil => rfl
  | cons a _ ih => exact ih
  | swap a b x =>
    have hpcs : ((s.after b).after a).pcs = ((s.after a).after b).pcs := by
      refine List.ext_getElem? fun j => ?_
      simp only [getElem?_pcs_after]
      split <;> split <;> rfl
    have hcount : ∀ (x : List Step) {s t : ProgramState}, s.pcs = t.pcs →
        (s.afterAll x).pcs = (t.afterAll x).pcs := by
      intro x
      induction x with
      | nil => exact fun h => h
      | cons c x ih => exact fun h => ih (by simp [h])
    exact congrArg (·[i]?) (hcount x hpcs)
  | trans _ _ ih ih' => exact ih.trans ih'

/-- A run only advances program counters. -/
theorem IsRun.le_counter (h : p.IsRun s w) (ha : a ∈ w) :
    ∃ k ≤ a.pc, s.pcs[a.process.index]? = some k := by
  induction w generalizing s with
  | nil => simp at ha
  | cons b w ih =>
    rcases List.mem_cons.1 ha with rfl | ha
    · exact ⟨a.pc, Nat.le_refl _, h.1.counter⟩
    · obtain ⟨k, hk, hpc⟩ := ih h.2 ha
      rw [getElem?_pcs_after] at hpc
      split at hpc
      · obtain ⟨l, hl, rfl⟩ := Option.map_eq_some_iff.1 hpc
        exact ⟨l, by omega, hl⟩
      · exact ⟨k, hk, hpc⟩

/-- A thread is active after some steps if it was before, or one of them spawns it. -/
theorem hasKey_active_afterAll {r : ProcessId} :
    (s.afterAll x).active.hasKey r ↔ s.active.hasKey r ∨ ∃ a ∈ x, a.instr = .spawn r := by
  induction x generalizing s with
  | nil => simp
  | cons b x ih =>
    rw [ProgramState.afterAll_cons, ih, ProgramState.hasKey_active_after]
    simp [or_assoc]

/-- No step occurs twice in a run. -/
theorem IsRun.nodup (h : p.IsRun s w) : w.Nodup := by
  induction w generalizing s with
  | nil => exact List.nodup_nil
  | cons a w ih =>
    refine List.nodup_cons.2 ⟨fun ha => ?_, ih h.2⟩
    obtain ⟨k, hk, hpc⟩ := h.2.le_counter ha
    rw [h.1.counter_after, Option.some.injEq] at hpc
    omega

theorem IsRun.hasStep (h : p.IsRun s w) (ha : a ∈ w) : p.HasStep a := by
  induction w generalizing s with
  | nil => simp at ha
  | cons b w ih =>
    rcases List.mem_cons.1 ha with rfl | ha
    · exact h.1.hasStep
    · exact ih h.2 ha

/-! ## Reordering a run -/

/-- A step may move to the front of a run past steps that it is independent of, and back. -/
theorem isRun_move (hx : ∀ c ∈ x, ¬Step.Depends none c b) :
    (p.IsRun s (x ++ b :: y) ↔ p.IsRun s (b :: (x ++ y))) ∧
      s.afterAll (x ++ b :: y) = s.afterAll (b :: (x ++ y)) := by
  induction x generalizing s with
  | nil => simp
  | cons c x ih =>
    have hind := Step.independent_iff.1 (hx c (by simp))
    obtain ⟨hrun, hafter⟩ := ih (s := s.after c) fun d hd => hx d (by simp [hd])
    have hcomm := hind.after_comm s
    constructor
    · rw [List.cons_append, isRun_cons, hrun, isRun_cons, hind.canRun_after_iff, hcomm]
      rw [List.cons_append, isRun_cons, isRun_cons, hind.symm.canRun_after_iff]
      exact and_left_comm
    · rw [List.cons_append, ProgramState.afterAll_cons, hafter, ProgramState.afterAll_cons, hcomm]
      rfl

/-- Whether a step can run does not change by steps that it is independent of. -/
theorem canRun_afterAll_iff (hx : ∀ c ∈ x, ¬Step.Depends none c b) :
    p.CanRun (s.afterAll x) b ↔ p.CanRun s b := by
  induction x generalizing s with
  | nil => rfl
  | cons c x ih =>
    have hind := Step.independent_iff.1 (hx c (by simp))
    rw [ProgramState.afterAll_cons, ih fun d hd => hx d (by simp [hd]), hind.canRun_after_iff]

/-- A run can still be made after a step that it is independent of, which may as well come last. -/
theorem IsRun.after_of_independent (h : p.IsRun s x) (hb : p.CanRun s b)
    (hx : ∀ c ∈ x, ¬Step.Depends none c b) :
    p.IsRun (s.after b) x ∧ (s.after b).afterAll x = (s.afterAll x).after b := by
  obtain ⟨hmove, hsame⟩ := isRun_move (p := p) (s := s) (y := []) hx
  rw [List.append_nil] at hmove hsame
  have hlast : p.IsRun s (x ++ [b]) :=
    isRun_append.2 ⟨h, (canRun_afterAll_iff hx).2 hb, trivial⟩
  exact ⟨(hmove.1 hlast).2, by simpa using hsame.symm⟩

/-- A reordering of a run that keeps the order of dependent steps is a run to the same state. -/
theorem IsRun.reorder (h : p.IsRun s w) (hr : Reorders (Step.Depends none) w w') :
    p.IsRun s w' ∧ s.afterAll w' = s.afterAll w := by
  induction w generalizing s w' with
  | nil =>
    rw [← hr.perm.nil_eq]
    exact ⟨trivial, rfl⟩
  | cons a w ih =>
    have hnodup := h.nodup
    have hnodup' := hr.nodup hnodup
    obtain ⟨x, y, rfl⟩ := List.append_of_mem (hr.mem_iff.1 (List.mem_cons_self (a := a)))
    have hperm : w.Perm (x ++ y) := (hr.perm.trans List.perm_middle).cons_inv
    have ha : a ∉ x ++ y := (List.nodup_cons.1 (List.nodup_middle.1 hnodup')).1
    -- whatever depends on `a` and stands in `x` would have changed its place with `a`
    have hx : ∀ c ∈ x, ¬Step.Depends none c a := by
      intro c hc hca
      have hcw : c ∈ w := hperm.mem_iff.2 (by simp [hc])
      have hbefore := hr.keeps a c hca.symm (Precedes.cons_iff.2 (.inl ⟨rfl, hcw⟩))
      exact hbefore.asymm hnodup' ((Precedes.split_left_iff hnodup').2 hc)
    have hrest : Reorders (Step.Depends none) w (x ++ y) := by
      refine ⟨hperm, fun b c hbc hw => ?_⟩
      have hb : b ≠ a := fun hb => ha (hb ▸ hperm.mem_iff.1 hw.mem_left)
      have hc : c ≠ a := fun hc => ha (hc ▸ hperm.mem_iff.1 hw.mem_right)
      have hw' := hr.keeps b c hbc (Precedes.cons_iff.2 (.inr hw))
      rw [Precedes.append_iff, Precedes.cons_iff, List.mem_cons] at hw'
      rw [Precedes.append_iff]
      simpa [hb, hc] using hw'
    obtain ⟨hrun, hafter⟩ := ih h.2 hrest
    obtain ⟨hmove, hsame⟩ := isRun_move (p := p) (s := s) (y := y) hx
    exact ⟨hmove.2 ⟨h.1, hrun⟩, hsame.trans hafter⟩

/-- Dependence tells all that counts of the order of steps: it is symmetric, whatever is tracked, and
with all conflicts counted, a run from any state stays a run to the same state if it is reordered in a
way that keeps the order of dependent steps. -/
theorem dependent_isValid (p : Program) :
    (∀ precision a b, Step.dependent precision a b = Step.dependent precision b a) ∧
      ∀ s w w', p.IsRun s w → Reorders (Step.Depends none) w w' →
        p.IsRun s w' ∧ s.afterAll w' = s.afterAll w :=
  ⟨fun _ _ _ => Step.dependent_comm, fun _ _ _ h hr => h.reorder hr⟩

/-- Two threads that write to different variables. -/
def apartWriters : Program := (Program.empty.thread [.write "x" 1]).thread [.write "y" 2]

/-- The two writes commute. -/
theorem dependent_isValid_apartWriters :
    let s := apartWriters.initialState
    let a : Step := ⟨⟨0⟩, 0, .write "x" 1⟩
    let b : Step := ⟨⟨1⟩, 0, .write "y" 2⟩
    Reorders (Step.Depends none) [a, b] [b, a] ∧ apartWriters.IsRun s [a, b] ∧
      apartWriters.IsRun s [b, a] ∧ s.afterAll [b, a] = s.afterAll [a, b] := by
  intro s a b
  have hr : Reorders (Step.Depends none) [a, b] [b, a] :=
    Starts.reorders (x := [a]) (y := []) (by decide)
  have hrun : apartWriters.IsRun s [a, b] := by
    refine ⟨mem_enabled_iff.1 ?_, mem_enabled_iff.1 ?_, trivial⟩ <;> decide
  exact ⟨hr, hrun, (dependent_isValid apartWriters).2 s _ _ hrun hr⟩

/-- A step that starts a run, or is independent of all its steps, can come first: then the run goes
on with the other steps. -/
theorem IsRun.exists_front (h : p.IsRun s w) (hb : p.CanRun s b)
    (hfront : Starts (Step.Depends none) b w ∨ ∀ c ∈ w, ¬Step.Depends none b c) :
    ∃ x w', (∀ c ∈ x, c = b) ∧ Reorders (Step.Depends none) (w ++ x) (b :: w') ∧
      p.IsRun (s.after b) w' := by
  rcases hfront with ⟨x, y, rfl, hx⟩ | hindependent
  · have hx' : ∀ c ∈ x, ¬Step.Depends none c b := fun c hc hcb => hx c hc hcb.symm
    have hr := Starts.reorders (y := y) hx'
    refine ⟨[], x ++ y, by simp, by simpa using hr, (h.reorder hr).1.2⟩
  · have hw : ∀ c ∈ w, ¬Step.Depends none c b := fun c hc hcb => hindependent c hc hcb.symm
    refine ⟨[b], w, by simp, ?_, (h.after_of_independent hb hw).1⟩
    have hr := Starts.reorders (y := []) hw
    rwa [List.append_nil] at hr

/-- What starts a run can run. -/
theorem IsRun.canRun_of_starts (h : p.IsRun s w) (hb : Starts (Step.Depends none) b w) :
    p.CanRun s b := by
  obtain ⟨x, y, rfl, hx⟩ := hb
  exact (canRun_afterAll_iff fun c hc hcb => hx c hc hcb.symm).1 (isRun_append.1 h).2.1

/-! ## The steps of a run -/

/-- In a run, the first step of a thread is the one at its program counter. -/
theorem IsRun.first_eq (h : p.IsRun s (x ++ a :: y)) (hcounter : s.pcs[b.process.index]? = some b.pc)
    (hb : p.HasStep b) (hx : ∀ c ∈ x, c.process ≠ b.process) (hab : a.process = b.process) :
    a = b := by
  have ha := (isRun_append.1 h).2.1
  have hpc := ha.counter
  rw [hab, getElem?_pcs_afterAll_of_ne hx, hcounter, Option.some.injEq] at hpc
  refine ha.hasStep.eq_of_key_eq hb ?_
  show ActionKey.mk a.process a.pc = ⟨b.process, b.pc⟩
  rw [hab, hpc]

/-- All steps that a program has, thread by thread. -/
def allSteps (p : Program) : List Step :=
  p.threads.zipIdx.flatMap fun (instrs, i) =>
    instrs.zipIdx.map fun (instr, pc) => ⟨⟨i⟩, pc, instr⟩

theorem mem_allSteps_iff : a ∈ p.allSteps ↔ p.HasStep a := by
  obtain ⟨⟨i⟩, pc, instr⟩ := a
  simp only [allSteps, HasStep, instrAt, List.mem_flatMap, List.mem_map, Prod.exists,
    List.mem_zipIdx_iff_getElem?, Step.mk.injEq, ProcessId.mk.injEq, bind, Option.bind_eq_some_iff]
  constructor
  · rintro ⟨instrs, _, hi, _, _, hpc, rfl, rfl, rfl⟩
    exact ⟨instrs, hi, hpc⟩
  · rintro ⟨instrs, hi, hpc⟩
    exact ⟨instrs, i, hi, instr, pc, hpc, rfl, rfl, rfl⟩

theorem length_allSteps : p.allSteps.length = p.instrCount := by
  have hlengths : ∀ (threads : List (List Instr)) (n : Nat),
      (threads.zipIdx n).map (fun e => e.1.length) = threads.map List.length := by
    intro threads
    induction threads with
    | nil => simp
    | cons instrs threads ih => intro n; rw [List.zipIdx_cons, List.map_cons, ih, List.map_cons]
  simp only [allSteps, instrCount, List.length_flatMap, List.length_flatten, List.length_map,
    List.length_zipIdx, hlengths]

/-- No run has more steps than the program has instructions. -/
theorem IsRun.length_le (h : p.IsRun s w) : w.length ≤ p.instrCount := by
  rw [← length_allSteps]
  exact (h.nodup.subperm fun a ha => mem_allSteps_iff.2 (h.hasStep ha)).length_le

/-! ## The enumeration of runs -/

/-- The runs from a state that have at most as many steps as given. -/
def runsWithin (p : Program) : Nat → ProgramState → List (List Step)
  | 0, _ => [[]]
  | steps + 1, s =>
    [] :: (p.enabled s).flatMap fun a => (p.runsWithin steps (s.after a)).map (a :: ·)

/-- All runs of a program, complete or not, the empty one included. -/
def runs (p : Program) : List (List Step) := p.runsWithin p.instrCount p.initialState

theorem mem_runsWithin_iff {n : Nat} : w ∈ p.runsWithin n s ↔ w.length ≤ n ∧ p.IsRun s w := by
  induction n generalizing s w with
  | zero => cases w <;> simp [runsWithin]
  | succ n ih =>
    rw [runsWithin, List.mem_cons, List.mem_flatMap]
    cases w with
    | nil => simp
    | cons a w =>
      simp only [reduceCtorEq, false_or, List.mem_map, List.cons.injEq, mem_enabled_iff, isRun_cons,
        List.length_cons, Nat.add_le_add_iff_right]
      constructor
      · rintro ⟨b, hb, w', hw', rfl, rfl⟩
        obtain ⟨hlength, hrun⟩ := ih.1 hw'
        exact ⟨hlength, hb, hrun⟩
      · rintro ⟨hlength, ha, hrun⟩
        exact ⟨a, ha, w, ih.2 ⟨hlength, hrun⟩, rfl, rfl⟩

theorem mem_runs_iff : w ∈ p.runs ↔ p.IsRun p.initialState w := by
  rw [runs, mem_runsWithin_iff, and_iff_right_of_imp IsRun.length_le]

/-- Threads take their steps in order, so no step is enabled twice. -/
theorem nodup_enabled : (p.enabled s).Nodup := by
  refine List.Pairwise.filterMap (p.stepOf s) (fun q r hlt a ha b hb hab => ?_) s.active.increasing
  rw [← (stepOf_eq_some_iff.1 ha).1, ← (stepOf_eq_some_iff.1 hb).1, hab] at hlt
  simp at hlt

theorem nodup_runsWithin {n : Nat} : (p.runsWithin n s).Nodup := by
  induction n generalizing s with
  | zero => exact List.nodup_singleton []
  | succ n ih =>
    rw [runsWithin, List.nodup_cons, List.nodup_flatMap]
    refine ⟨by simp, fun a _ => ih.map List.cons_injective, nodup_enabled.imp fun hab => ?_⟩
    -- runs that start with different steps differ
    simp only [Function.onFun, List.disjoint_left, List.mem_map]
    rintro _ ⟨w, -, rfl⟩ ⟨w', -, heq⟩
    exact hab (List.cons_eq_cons.1 heq).1.symm

theorem nodup_runs : p.runs.Nodup := nodup_runsWithin

/-! ## The enumeration of terminal states -/

theorem mem_successors_iff {t : ProgramState} :
    t ∈ p.successors s ↔ ∃ a, p.CanRun s a ∧ s.after a = t := by
  simp only [successors, List.mem_map, mem_enabled_iff]

theorem mem_filter_states_iff {states : StateSet} {f : ProgramState → Bool} {t : ProgramState} :
    t ∈ states.filter f ↔ t ∈ states ∧ f t := by
  rw [Std.ExtTreeSet.mem_filter]
  constructor
  · rintro ⟨h, ht⟩
    rw [Std.ExtTreeSet.get_eq] at ht
    exact ⟨h, ht⟩
  · rintro ⟨h, ht⟩
    exact ⟨h, by rwa [Std.ExtTreeSet.get_eq]⟩

/-- The states found within some number of steps are the ends of the complete runs that are at most
that long. -/
theorem mem_terminalsWithin_iff {n : Nat} {states : StateSet} {t : ProgramState} :
    t ∈ p.terminalsWithin n states ↔
      ∃ s ∈ states, ∃ w, w.length ≤ n ∧ p.IsComplete s w ∧ s.afterAll w = t := by
  induction n generalizing states with
  | zero =>
    rw [terminalsWithin, mem_filter_states_iff]
    constructor
    · rintro ⟨ht, hterminal⟩
      exact ⟨t, ht, [], Nat.le_refl _, ⟨trivial, hterminal⟩, rfl⟩
    · rintro ⟨s, hs, w, hw, hcomplete, rfl⟩
      obtain rfl : w = [] := List.eq_nil_of_length_eq_zero (Nat.le_zero.1 hw)
      exact ⟨hs, hcomplete.terminal⟩
  | succ n ih =>
    rw [terminalsWithin, Std.ExtTreeSet.mem_union_iff, ih, mem_filter_states_iff]
    constructor
    · -- a state is found where it is terminal, or below one of the successors
      rintro (⟨ht, hterminal⟩ | ⟨s', hs', w, hw, hcomplete, rfl⟩)
      · exact ⟨t, ht, [], by simp, ⟨trivial, hterminal⟩, rfl⟩
      · rw [Std.ExtTreeSet.mem_ofList, List.contains_iff_mem, List.mem_flatMap] at hs'
        obtain ⟨s, hs, hs'⟩ := hs'
        obtain ⟨a, ha, rfl⟩ := mem_successors_iff.1 hs'
        refine ⟨s, Std.ExtTreeSet.mem_toList.1 hs, a :: w, by simpa using hw, ?_, rfl⟩
        exact ⟨⟨ha, hcomplete.isRun⟩, hcomplete.terminal⟩
    · rintro ⟨s, hs, w, hw, hcomplete, rfl⟩
      cases w with
      | nil => exact .inl ⟨hs, hcomplete.terminal⟩
      | cons a w =>
        have hs' : s.after a ∈ Std.ExtTreeSet.ofList (states.toList.flatMap p.successors) := by
          rw [Std.ExtTreeSet.mem_ofList, List.contains_iff_mem, List.mem_flatMap]
          exact ⟨s, Std.ExtTreeSet.mem_toList.2 hs, mem_successors_iff.2 ⟨a, hcomplete.isRun.1, rfl⟩⟩
        refine .inr ⟨s.after a, hs', w, by simpa using hw, ?_, rfl⟩
        exact ⟨hcomplete.isRun.2, hcomplete.terminal⟩

/-- The terminal states of a program are the ends of its complete runs. -/
theorem mem_terminalStates_iff {t : ProgramState} :
    t ∈ p.terminalStates ↔ ∃ w, p.IsComplete p.initialState w ∧ p.initialState.afterAll w = t := by
  rw [terminalStates, mem_terminalsWithin_iff]
  constructor
  · rintro ⟨s, hs, w, -, hw, ht⟩
    obtain rfl : p.initialState = s := by simpa using hs
    exact ⟨w, hw, ht⟩
  · rintro ⟨w, hw, ht⟩
    exact ⟨p.initialState, by simp, w, hw.isRun.length_le, hw, ht⟩

end Program

end Interleaving
