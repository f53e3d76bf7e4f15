import Interleaving.Exploration.Push
import Interleaving.Proofs.Reduction

/-!
# The answers of a program

A program answers every question of an exploration. This module says what the answers are: the
enabled steps of a state (`mem_enabledSet_iff`), the steps that stay redundant
(`inheritedSleep_system`), the run that reverses a race (`reversingRun_system`) and the candidates
that start it (`initials_system`).

Sets of steps are keyed by thread and program counter. Among the steps that a program has, the key
determines the step, so a step is in a set exactly if its key is.
-/

namespace Interleaving

variable {p : Program} {precision : Precision} {s : ProgramState} {a : Step}

/-! ## Sets of steps of a program -/

/-- All steps of a set are steps of the program. -/
def ActionSet.IsGenuine (p : Program) (S : ActionSet Step) : Prop := ∀ a ∈ S.toList, p.HasStep a

theorem ActionSet.IsGenuine.hasKey_iff {S : ActionSet Step} (hS : S.IsGenuine p)
    (ha : p.HasStep a) : S.hasKey (Action.key a) ↔ a ∈ S.toList := by
  rw [Keyed.hasKey_iff]
  constructor
  · rintro ⟨b, hb, hba⟩
    rwa [← (hS b hb).eq_of_key_eq ha hba]
  · exact fun h => ⟨a, h, rfl⟩

/-- The steps that can run in a state, as a set. -/
def Program.enabledSet (p : Program) (s : ProgramState) : ActionSet Step := Keyed.ofList (p.enabled s)

namespace Program

theorem mem_enabledSet_iff : a ∈ (p.enabledSet s).toList ↔ p.CanRun s a := by
  rw [enabledSet, Keyed.mem_ofList, mem_enabled_iff]
  intro a ha b hb
  exact (mem_enabled_iff.1 ha).hasStep.eq_of_key_eq (mem_enabled_iff.1 hb).hasStep

theorem isGenuine_enabledSet : (p.enabledSet s).IsGenuine p := fun _ ha =>
  (mem_enabledSet_iff.1 ha).hasStep

end Program

/-! ## Questions without failures -/

/-- Where no failure exists, there is an answer. -/
theorem exists_ok_of_empty {β : Type} (r : Except Empty β) : ∃ b, r = .ok b := by
  cases r with
  | ok b => exact ⟨b, rfl⟩
  | error e => cases e

/-- Filtering by a question is filtering by its answers. -/
theorem filterM_eq {α : Type} {f : α → Except Empty Bool} {g : α → Bool} (hg : ∀ a, f a = .ok (g a))
    (l : List α) : l.filterM f = .ok (l.filter g) := by
  have haux : ∀ acc, l.filterAuxM f acc = .ok ((l.filter g).reverse ++ acc) := by
    induction l with
    | nil => intro acc; rfl
    | cons a l ih =>
      intro acc
      rw [List.filterAuxM, hg]
      show l.filterAuxM f (cond (g a) (a :: acc) acc) = _
      rw [ih]
      cases h : g a <;> simp [h]
  rw [List.filterM, haux]
  show Except.ok _ = _
  simp

/-- A set filtered by a question that never fails. -/
theorem exists_filterM_set (f : Step → Except Empty Bool) (S : ActionSet Step) :
    ∃ T : ActionSet Step, (do pure (Keyed.ofList (← S.toList.filterM f))) = .ok T ∧
      ∀ a, a ∈ T.toList ↔ a ∈ S.toList ∧ f a = .ok true := by
  choose g hg using fun a => exists_ok_of_empty (f a)
  refine ⟨Keyed.ofList (S.toList.filter g), by rw [filterM_eq hg]; rfl, fun a => ?_⟩
  rw [Keyed.mem_ofList, List.mem_filter, hg, Except.ok.injEq]
  intro a ha b hb
  exact Keyed.eq_of_key_eq (List.mem_of_mem_filter ha) (List.mem_of_mem_filter hb)

/-- What an exploration of a program reads. -/
def Program.context (p : Program) (precision : Precision) (tree : SearchTree ProgramState Step)
    (settings : Settings) : Context ProgramState Step Empty :=
  { system := p.system precision, tree, settings }

namespace Exploration

variable {tree : SearchTree ProgramState Step} {settings : Settings}

/-- The steps that stay redundant after a step are those that do not depend on it. -/
theorem inheritedSleep_system (sleep : ActionSet Step) :
    ∃ S, inheritedSleep (p.context precision tree settings) sleep a = .ok S ∧
      ∀ b, b ∈ S.toList ↔ b ∈ sleep.toList ∧ ¬Step.Depends precision b a := by
  obtain ⟨S, hS, hmem⟩ := exists_filterM_set
    (fun b => do return !(← (p.system precision).dependent b a)) sleep
  refine ⟨S, hS, fun b => ?_⟩
  rw [hmem]
  have hanswer : (do return !(← (p.system precision).dependent b a) : Except Empty Bool) =
      .ok (!Step.dependent precision b a) := rfl
  rw [hanswer]
  simp

/-- The run that reverses a race, from the actions on the stack. -/
theorem reversingRun_system (stack : SearchStack Step) (index : Nat) (q e : Step) :
    reversingRun (p.context precision tree settings) stack index q e =
      .ok (reversingSteps precision q (chainedActions tree stack (index + 1)) e) := by
  have hfilter := filterM_eq (f := fun b => do return !(← (p.system precision).dependent q b))
    (g := fun b => !Step.dependent precision q b) (fun b => rfl)
    (chainedActions tree stack (index + 1))
  show (do
    let independent ← (chainedActions tree stack (index + 1)).filterM
      fun b => do return !(← (p.system precision).dependent q b)
    pure (independent ++ [e])) = _
  rw [hfilter]
  rfl

/-- Whether a step starts a run, as an exploration asks it. -/
theorem startsRun_system {run : List Step} (ha : p.HasStep a) (hrun : ∀ b ∈ run, p.HasStep b) :
    startsRun (p.system precision) a run = .ok true ↔ Starts (Step.Depends precision) a run := by
  induction run with
  | nil => simp [startsRun, pure, Except.pure]
  | cons b run ih =>
    have hb := hrun b (by simp)
    have ih := ih fun c hc => hrun c (by simp [hc])
    rw [Starts.cons_iff, startsRun]
    by_cases hkey : Action.key b = Action.key a
    · have hab : a = b := ha.eq_of_key_eq hb hkey.symm
      simp [hkey, hab, pure, Except.pure]
    · have hab : a ≠ b := fun h => hkey (by rw [h])
      rw [if_neg hkey]
      show (if Step.dependent precision a b = true then (.ok false : Except Empty Bool)
        else startsRun (p.system precision) a run) = .ok true ↔ _
      by_cases hdep : Step.dependent precision a b = true
      · simp [hdep, hab]
      · rw [if_neg hdep, ih]
        simp [hdep, hab]

/-- The candidates that start a run. -/
theorem initials_system {candidates : ActionSet Step} {run : List Step}
    (hcandidates : candidates.IsGenuine p) (hrun : ∀ b ∈ run, p.HasStep b) :
    ∃ options, initials (p.system precision) candidates run = .ok options ∧
      ∀ b, b ∈ options.toList ↔
        b ∈ candidates.toList ∧ Starts (Step.Depends precision) b run := by
  obtain ⟨options, hoptions, hmem⟩ := exists_filterM_set
    (startsRun (p.system precision) · run) candidates
  refine ⟨options, hoptions, fun b => ?_⟩
  rw [hmem]
  exact and_congr_right fun hb => startsRun_system (hcandidates b hb) hrun

end Exploration

end Interleaving
