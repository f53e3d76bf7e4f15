import Mathlib.Algebra.GroupWithZero.Nat
import Interleaving.Program.Enumeration
import Interleaving.Proofs.Runs

/-!
# Enumerations come to an end

An enumeration that looks at one state after the other ends after some number of looks, although nothing
bounds the number of states: each look is paid for by a run (`Enumeration.effort_look_lt`), and a program
has only finitely many. When no state is left to be looked at, those that have been are the states that
runs reach (`Enumeration.UnderWay`). So the enumeration has an answer, and it consists of the ends of
complete runs (`Program.enumerate_eq_terminalStates`).
-/

namespace Interleaving

namespace Program

variable {p : Program} {s t : ProgramState}

/-- A state that some run of the program leads to. -/
def IsReachable (p : Program) (s : ProgramState) : Prop :=
  ∃ w, p.IsRun p.initialState w ∧ p.initialState.afterAll w = s

theorem isReachable_initialState : p.IsReachable p.initialState := ⟨[], trivial, rfl⟩

theorem IsReachable.successor (hs : p.IsReachable s) (ht : t ∈ p.successors s) : p.IsReachable t := by
  obtain ⟨w, hw, rfl⟩ := hs
  obtain ⟨a, ha, rfl⟩ := mem_successors_iff.1 ht
  exact ⟨w ++ [a], isRun_append.2 ⟨hw, ha, trivial⟩, by simp⟩

theorem successors_of_isTerminal (hs : p.isTerminal s) : p.successors s = [] := by
  rw [successors, List.isEmpty_iff.1 hs, List.map_nil]

/-- What holds at first and is kept by each step holds of all states that can be reached. -/
theorem IsReachable.induction {P : ProgramState → Prop} (h : p.IsReachable s) (hfirst : P p.initialState)
    (hstep : ∀ s a, P s → p.CanRun s a → P (s.after a)) : P s := by
  obtain ⟨w, hw, rfl⟩ := h
  suffices hall : ∀ (w : List Step) (r : ProgramState), P r → p.IsRun r w → P (r.afterAll w) from
    hall w _ hfirst hw
  intro w
  induction w with
  | nil => exact fun r hr _ => hr
  | cons a w ih => exact fun r hr hw => ih _ (hstep r a hr hw.1) hw.2

/-- What contains the initial state, and with each state all those one step away, contains all states
that can be reached. -/
theorem IsReachable.mem_of_closed {seen : StateSet} (hs : p.IsReachable s)
    (hstart : p.initialState ∈ seen) (hclosed : ∀ s ∈ seen, ∀ t ∈ p.successors s, t ∈ seen) :
    s ∈ seen :=
  hs.induction (P := (· ∈ seen)) hstart fun s a hs ha =>
    hclosed s hs (s.after a) (mem_successors_iff.2 ⟨a, ha, rfl⟩)

/-! ## How many runs start in a state -/

/-- The number of runs from a state, complete or not. -/
def runCount (p : Program) (s : ProgramState) : Nat := (p.runsWithin p.instrCount s).length

/-- A run that is not empty goes on from one of the states one step away. -/
theorem runCount_eq (p : Program) (s : ProgramState) :
    p.runCount s = 1 + ((p.successors s).map p.runCount).sum := by
  -- no run is longer than the program has instructions, so a larger bound finds the same runs
  have hperm : (p.runsWithin p.instrCount s).Perm (p.runsWithin (p.instrCount + 1) s) := by
    refine (List.perm_ext_iff_of_nodup nodup_runsWithin nodup_runsWithin).2 fun w => ?_
    rw [mem_runsWithin_iff, mem_runsWithin_iff]
    constructor
    · exact fun ⟨hlength, hw⟩ => ⟨Nat.le_succ_of_le hlength, hw⟩
    · exact fun ⟨_, hw⟩ => ⟨hw.length_le, hw⟩
  rw [runCount, hperm.length_eq, runsWithin, List.length_cons, List.length_flatMap, Nat.add_comm,
    successors, List.map_map]
  refine congrArg (1 + List.sum ·) (List.map_congr_left fun a _ => ?_)
  rw [List.length_map]
  rfl

end Program

namespace Enumeration

variable {p : Program} {e : Enumeration} {s t : ProgramState} {work : List ProgramState}

/-! ## What holds while an enumeration is under way -/

/-- What is known of an enumeration under way: only states that can be reached turn up; from the states
looked at, each step leads to a state that has turned up; the initial state has turned up; and the
terminal ones among those looked at are known. -/
structure UnderWay (p : Program) (e : Enumeration) : Prop where
  reachable : ∀ s, s ∈ e.work ∨ s ∈ e.seen → p.IsReachable s
  closed : ∀ s ∈ e.seen, ∀ t ∈ p.successors s, t ∈ e.work ∨ t ∈ e.seen
  begun : p.initialState ∈ e.work ∨ p.initialState ∈ e.seen
  terminals : ∀ s, s ∈ e.terminals ↔ s ∈ e.seen ∧ p.isTerminal s

theorem underWay_start : (start p.initialState).UnderWay p where
  reachable s hs := by
    have hs : s = p.initialState := by simpa [start] using hs
    exact hs ▸ Program.isReachable_initialState
  closed s hs := by simp [start] at hs
  begun := .inl (List.mem_singleton_self _)
  terminals s := by simp [start]

namespace UnderWay

variable (h : e.UnderWay p) (hwork : e.work = s :: work)
include h hwork

/-- A state that has been looked at before is passed over. -/
theorem skip (hs : s ∈ e.seen) : ({ e with work } : Enumeration).UnderWay p where
  reachable t ht := by
    refine h.reachable t (ht.imp_left fun ht => ?_)
    exact hwork ▸ List.mem_cons_of_mem s ht
  closed r hr t ht := by
    rcases h.closed r hr t ht with ht | ht
    · rw [hwork, List.mem_cons] at ht
      exact ht.elim (fun ht => .inr (ht ▸ hs)) .inl
    · exact .inr ht
  begun := by
    rcases h.begun with hbegun | hbegun
    · rw [hwork, List.mem_cons] at hbegun
      exact hbegun.elim (fun ht => .inr (ht ▸ hs)) .inl
    · exact .inr hbegun
  terminals := h.terminals

/-- The states one step away from a new state are put in front, and it is remembered if it is terminal. -/
theorem visit {front : List ProgramState} {terminals : StateSet}
    (hfront : ∀ t, t ∈ front ↔ t ∈ p.successors s)
    (hterminals : ∀ t, t ∈ terminals ↔ t ∈ e.terminals ∨ t = s ∧ p.isTerminal s) :
    (⟨front ++ work, e.seen.insert s, terminals⟩ : Enumeration).UnderWay p := by
  have hseen : ∀ t, t ∈ e.seen.insert s ↔ t = s ∨ t ∈ e.seen := by
    intro t
    rw [Std.ExtTreeSet.mem_insert, Std.LawfulEqCmp.compare_eq_iff_eq, eq_comm]
  have hs : p.IsReachable s := h.reachable s (.inl (hwork ▸ List.mem_cons_self))
  -- what had turned up before has turned up now
  have hkept : ∀ t, t ∈ e.work ∨ t ∈ e.seen → t ∈ front ++ work ∨ t ∈ e.seen.insert s := by
    intro t ht
    rw [hwork, List.mem_cons] at ht
    rw [List.mem_append, hseen]
    rcases ht with (ht | ht) | ht
    · exact .inr (.inl ht)
    · exact .inl (.inr ht)
    · exact .inr (.inr ht)
  constructor
  · intro t ht
    rcases ht with ht | ht
    · rcases List.mem_append.1 ht with ht | ht
      · exact hs.successor ((hfront t).1 ht)
      · exact h.reachable t (.inl (hwork ▸ List.mem_cons_of_mem s ht))
    · rcases (hseen t).1 ht with rfl | ht
      · exact hs
      · exact h.reachable t (.inr ht)
  · intro r hr t ht
    rcases (hseen r).1 hr with rfl | hr
    · exact .inl (List.mem_append_left _ ((hfront t).2 ht))
    · exact hkept t (h.closed r hr t ht)
  · exact hkept _ h.begun
  · intro t
    rw [hterminals, h.terminals, hseen]
    constructor
    · rintro (⟨ht, hterminal⟩ | ⟨rfl, hterminal⟩)
      · exact ⟨.inr ht, hterminal⟩
      · exact ⟨.inl rfl, hterminal⟩
    · rintro ⟨rfl | ht, hterminal⟩
      · exact .inr ⟨rfl, hterminal⟩
      · exact .inl ⟨ht, hterminal⟩

/-- One look keeps what is known. -/
theorem look : (e.look p s work).UnderWay p := by
  unfold Enumeration.look
  split
  · rename_i hs
    exact h.skip hwork (Std.ExtTreeSet.contains_iff_mem.1 hs)
  split
  · rename_i hterminal
    have hfront : ∀ t, t ∈ ([] : List ProgramState) ↔ t ∈ p.successors s := by
      intro t
      rw [Program.successors_of_isTerminal hterminal]
    refine h.visit hwork hfront fun t => ?_
    rw [Std.ExtTreeSet.mem_insert, Std.LawfulEqCmp.compare_eq_iff_eq, or_comm, eq_comm,
      and_iff_left hterminal]
  · rename_i hterminal
    refine h.visit hwork (fun t => List.mem_reverse) fun t => ?_
    rw [or_iff_left fun ht => hterminal ht.2]

omit hwork in
/-- When no state is left, all that can be reached has been looked at. -/
theorem mem_terminals_iff (hdone : e.work = []) :
    t ∈ e.terminals ↔ p.IsReachable t ∧ p.isTerminal t := by
  have hnone : ∀ s, s ∉ e.work := fun s => hdone ▸ List.not_mem_nil
  rw [h.terminals]
  refine and_congr_left fun _ => ⟨fun ht => h.reachable t (.inr ht), fun ht => ?_⟩
  refine ht.mem_of_closed (h.begun.resolve_left (hnone _)) fun r hr s hs => ?_
  exact (h.closed r hr s hs).resolve_left (hnone s)

end UnderWay

/-! ## The end of an enumeration -/

/-- What is still to be done at most: the runs from the states that are left. -/
def effort (p : Program) (e : Enumeration) : Nat := (e.work.map p.runCount).sum

/-- A look is paid for by the empty run from the state looked at. -/
theorem effort_look_lt (hwork : e.work = s :: work) : (e.look p s work).effort p < e.effort p := by
  have hcount := p.runCount_eq s
  have heffort : e.effort p = p.runCount s + (work.map p.runCount).sum := by
    rw [effort, hwork, List.map_cons, List.sum_cons]
  unfold Enumeration.look
  split
  · show (work.map p.runCount).sum < _
    omega
  split
  · show (work.map p.runCount).sum < _
    omega
  · show (((p.successors s).reverse ++ work).map p.runCount).sum < _
    rw [List.map_append, List.sum_append, List.map_reverse, List.sum_reverse]
    omega

/-- An enumeration ends, with the terminal states that can be reached. -/
theorem UnderWay.run_eq {looks : Nat} (h : e.UnderWay p) (hlooks : e.effort p ≤ looks) :
    ∃ states, run p looks e = some states ∧
      ∀ t, t ∈ states ↔ p.IsReachable t ∧ p.isTerminal t := by
  fun_induction run p looks e with
  | case1 looks e hwork => exact ⟨e.terminals, rfl, fun t => h.mem_terminals_iff hwork⟩
  | case2 e s work hwork =>
    -- as long as a state is left, there are looks left
    have hlt : (e.look p s work).effort p < e.effort p := effort_look_lt hwork
    omega
  | case3 e s work hwork looks ih =>
    have hlt : (e.look p s work).effort p < e.effort p := effort_look_lt hwork
    exact ih (h.look hwork) (by omega)

end Enumeration

namespace Program

/-- The enumeration of a program comes to an end, whatever its threads spawn and whichever threads are
said to run from the start: from some number of looks on, more of them change nothing. It answers with
the terminal states of the program; and these are the states that some run from the initial state leads
to, a sequence of steps each of which can be performed where it stands, and in which no step is
enabled. -/
theorem enumerate_eq_terminalStates (p : Program) :
    (∃ n, ∀ m, p.enumerate (n + m) = some p.terminalStates) ∧
    ∀ t, t ∈ p.terminalStates ↔
      (∃ w, p.IsRun p.initialState w ∧ p.initialState.afterAll w = t) ∧ p.enabled t = [] := by
  have hterminal : ∀ t, t ∈ p.terminalStates ↔ p.IsReachable t ∧ p.isTerminal t := by
    intro t
    rw [mem_terminalStates_iff]
    constructor
    · rintro ⟨w, hw, rfl⟩
      exact ⟨⟨w, hw.isRun, rfl⟩, hw.terminal⟩
    · rintro ⟨⟨w, hw, rfl⟩, ht⟩
      exact ⟨w, ⟨hw, ht⟩, rfl⟩
  refine ⟨⟨Enumeration.effort p (.start p.initialState), fun m => ?_⟩, fun t => ?_⟩
  · obtain ⟨states, hstates, hmem⟩ :=
      (Enumeration.underWay_start (p := p)).run_eq (Nat.le_add_right _ m)
    refine hstates.trans (congrArg some ?_)
    exact Std.ExtTreeSet.ext_mem fun t => (hmem t).trans (hterminal t).symm
  · rw [hterminal, isTerminal, List.isEmpty_iff]
    exact Iff.rfl

end Program

end Interleaving
