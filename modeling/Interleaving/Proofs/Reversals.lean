import Interleaving.Proofs.Races
import Interleaving.Proofs.Sections

/-!
# Immediate races

A new step and an earlier one of another thread are in an immediate race if they are dependent and no
step of the stack stands between them in the order of dependent steps (`ImmediateRace`). For threads
that only read, write and do nothing, the scan of the new step reverses every immediate race: of the
later steps that do not depend on the earlier one, followed by the new one, some can come first, and
such a step is required before the race or redundant there (`Search.add_reversesImmediateRaces`).

The later steps that do not depend on the earlier one may still be ordered after it by others. So what
is required need not begin a run in which only steps that are not ordered after it stand
(`Search.not_reversesTo_unorderedSteps`).
-/

namespace Interleaving

variable {p : Program} {precision : Precision} {t : SearchTree ProgramState Step} {χ : Type}
  {x x' : Exploration Step χ} {w u y : List Step} {n m : NodeId} {a b c e g : Step} {s : ProgramState}

/-! ## Ordinary steps -/

/-- A step of threads that only read, write and do nothing does one of these. -/
theorem Program.HasStep.isOrdinary (h : p.HasStep a)
    (hp : ∀ instrs ∈ p.threads, ∀ i ∈ instrs, i.isOrdinary) : a.instr.isOrdinary := by
  obtain ⟨instrs, hinstrs, hk⟩ := Program.instrAt_eq_some_iff.1 h
  exact hp instrs (List.mem_of_getElem? hinstrs) _ (List.mem_of_getElem? hk)

/-- As far as only the ability to run counts, ordinary steps of different threads are independent. -/
theorem Step.independent_of_isOrdinary (ha : a.instr.isOrdinary) (hb : b.instr.isOrdinary)
    (hprocess : a.process ≠ b.process) : Step.Independent (some ∅) a b := by
  obtain ⟨q, k, i⟩ := a
  obtain ⟨r, l, j⟩ := b
  refine ⟨hprocess, ?_, ?_, ?_, ?_, ?_, ?_⟩ <;>
    cases i <;> cases j <;>
      simp_all [Instr.isOrdinary, Instr.isAtomicBoundary, Step.shareMutex, Instr.mutex,
        Step.conflict, Instr.access, Precision.tracks, Keyed.hasKey]

/-- What an ordinary step needs no lock for can always come earlier. -/
theorem Step.reversible_of_isOrdinary (ha : a.instr.isOrdinary) : Step.reversible s c a := by
  obtain ⟨q, k, i⟩ := a
  cases i <;> simp_all [Instr.isOrdinary, Step.reversible, Instr.neededLock]

/-! ## Immediate races -/

/-- The step `c` of the run `w` and the step `e` after it are in an immediate race. -/
structure ImmediateRace (w : List Step) (c e : Step) : Prop where
  process_ne : c.process ≠ e.process
  depends : Step.Depends none c e
  /-- No step stands between the two. -/
  immediate : ∀ b, HappensBefore (Step.Depends none) w c b →
    ¬HappensBefore (Step.Depends none) (w ++ [e]) b e

namespace ImmediateRace

/-- Two lists that chains do not leave or enter tell an immediate race. -/
theorem of_closed (later earlier : List Step) (hprocess : c.process ≠ e.process)
    (hdepends : Step.Depends none c e)
    (hlater : ∀ a ∈ w, ∀ b ∈ w, Precedes w a b → Step.Depends none a b → a ∈ c :: later → b ∈ later)
    (hearlier : ∀ a ∈ w ++ [e], ∀ b ∈ w ++ [e], Precedes (w ++ [e]) a b → Step.Depends none a b →
      b ∈ e :: earlier → a ∈ earlier)
    (hdisjoint : ∀ b ∈ later, b ∉ earlier) : ImmediateRace w c e :=
  ⟨hprocess, hdepends, fun b hcb hbe =>
    hdisjoint b (hcb.mem_of_closed hlater) (hbe.mem_of_closed_left hearlier)⟩

/-- In an immediate race, one of the later steps does not depend on the earlier one, or is the new step,
and depends on nothing between the earlier one and itself. -/
theorem exists_front (h : ImmediateRace (u ++ c :: y) c e) :
    ∃ x g z, y ++ [e] = x ++ g :: z ∧ (g = e ∨ ¬Step.Depends none c g) ∧
      ∀ d ∈ x, ¬Step.Depends none g d := by
  -- the first of these that leads to `e`
  obtain ⟨x, g, z, hsplit, ⟨hleads, hindependent⟩, hx⟩ : ∃ x g z, y ++ [e] = x ++ g :: z ∧
      ((g = e ∨ HappensBefore (Step.Depends none) (u ++ c :: y ++ [e]) g e) ∧
        (g = e ∨ ¬Step.Depends none c g)) ∧
      ∀ d ∈ x, ¬((d = e ∨ HappensBefore (Step.Depends none) (u ++ c :: y ++ [e]) d e) ∧
        (d = e ∨ ¬Step.Depends none c d)) :=
    exists_first ⟨e, by simp, .inl rfl, .inl rfl⟩
  refine ⟨x, g, z, hsplit, hindependent, fun d hd hgd => ?_⟩
  have hdy : d ∈ y := by
    rcases end_or_inner_of_split hsplit with ⟨rfl, -, -⟩ | ⟨z', -, rfl⟩
    · exact hd
    · exact List.mem_append_left _ hd
  have hdg : Precedes (u ++ c :: y ++ [e]) d g := by
    have hxg : Precedes (y ++ [e]) d g := by
      rw [hsplit]
      exact Precedes.append_iff.2 (.inr (.inr ⟨hd, by simp⟩))
    rw [List.append_assoc, List.cons_append]
    exact Precedes.append_iff.2 (.inr (.inl (Precedes.cons_iff.2 (.inr hxg))))
  have hde : HappensBefore (Step.Depends none) (u ++ c :: y ++ [e]) d e := by
    rcases hleads with rfl | hleads
    · exact .single ⟨hdg, hgd.symm⟩
    · exact .head ⟨hdg, hgd.symm⟩ hleads
  have hcd : Step.Depends none c d := by
    by_contra hcd
    exact hx d hd ⟨.inr hde, .inr hcd⟩
  -- so `d` stands between `c` and `e`
  refine h.immediate d (.single ⟨?_, hcd⟩) hde
  exact Precedes.append_iff.2 (.inr (.inl (Precedes.cons_iff.2 (.inl ⟨rfl, hdy⟩))))

/-- In an immediate race of ordinary steps, some step that could have run before the earlier one starts
the run that reverses the race. -/
theorem exists_starts (hp : ∀ instrs ∈ p.threads, ∀ i ∈ instrs, i.isOrdinary)
    (hrun : p.IsRun s (u ++ c :: (y ++ [e]))) (h : ImmediateRace (u ++ c :: y) c e) :
    ∃ g, p.CanRun (s.afterAll u) g ∧ Starts (Step.Depends none) g (reversingSteps none c y e) := by
  obtain ⟨-, hc, hrest⟩ := Program.isRun_append.1 hrun
  have hnodup : (y ++ [e]).Nodup := hrest.nodup
  -- `g` can come before `c` and all that stands between them
  obtain ⟨x, g, z, hsplit, hindependent, hx⟩ := h.exists_front
  have hafter : p.CanRun ((s.afterAll u).after c) g := hrest.canRun_of_starts ⟨x, z, hsplit, hx⟩
  have hprocess : c.process ≠ g.process := by
    rcases hindependent with rfl | hindependent
    · exact h.process_ne
    · exact fun hcg => hindependent (Step.dependent_of_process_eq hcg)
  have hapart := Step.independent_of_isOrdinary (hc.hasStep.isOrdinary hp)
    (hafter.hasStep.isOrdinary hp) hprocess
  refine ⟨g, (hapart.canRun_after_iff _).1 hafter, ?_⟩
  refine (Starts.iff_of_nodup (hnodup.sublist reversingSteps_sublist)).2
    ⟨mem_reversingSteps_iff.2 ?_, fun d hd => ?_⟩
  · have hg : g ∈ y ++ [e] := by simp [hsplit]
    rcases hindependent with rfl | hindependent
    · exact .inr rfl
    · rcases List.mem_append.1 hg with hg | hg
      · exact .inl ⟨hg, hindependent⟩
      · exact .inr (List.mem_singleton.1 hg)
  · have hdg := hd.of_sublist reversingSteps_sublist
    rw [hsplit] at hdg hnodup
    exact hx d ((Precedes.split_left_iff hnodup).1 hdg)

end ImmediateRace

/-! ## What is required -/

/-- In `x'`, at the node below index `i` of the stack of `x`, some step is required, or redundant and not
taken, that can come first in a run with the same order of dependent steps as `v`. -/
def ReversesTo (t : SearchTree ProgramState Step) (x x' : Exploration Step χ) (i : Nat)
    (v : List Step) : Prop :=
  ∃ below origin g z, x.stack.frame? (i - 1) = some below ∧ t.node? below.node = some origin ∧
    Reorders (Step.Depends none) v (g :: z) ∧
    ((x'.table.get origin.stateId).backtrack.hasKey (Action.key g) ∨
      (x'.table.get origin.stateId).asleep.hasKey (Action.key g))

open Classical in
/-- The steps of `y` that `c` does not happen before in the run `w`, and then `e`. -/
noncomputable def unorderedSteps (w : List Step) (c : Step) (y : List Step) (e : Step) : List Step :=
  y.filter (fun b => ¬HappensBefore (Step.Depends none) w c b) ++ [e]

/-- Where all later steps that `c` happens before depend on it, these are the same steps. -/
theorem unorderedSteps_eq (hw : w = u ++ c :: y)
    (hdirect : ∀ b ∈ y, HappensBefore (Step.Depends none) w c b → Step.Depends none c b) :
    unorderedSteps w c y e = reversingSteps none c y e := by
  unfold unorderedSteps reversingSteps
  congr 1
  refine List.filter_congr fun b hb => ?_
  have hprecedes : Precedes w c b := by
    rw [hw]
    exact Precedes.append_iff.2 (.inr (.inl (Precedes.cons_iff.2 (.inl ⟨rfl, hb⟩))))
  have hiff : HappensBefore (Step.Depends none) w c b ↔ Step.Depends none c b :=
    ⟨hdirect b hb, fun hcb => .single ⟨hprecedes, hcb⟩⟩
  simp [hiff]

/-- What starts a run can come first in it. -/
theorem Starts.exists_reorders (h : Starts (Step.Depends precision) g w) :
    ∃ z, Reorders (Step.Depends precision) w (g :: z) := by
  obtain ⟨x, y, rfl, hx⟩ := h
  exact ⟨x ++ y, Starts.reorders fun d hd hdg => hx d hd hdg.symm⟩

/-- Nothing orders the two steps of an immediate race of ordinary steps. -/
theorem ImmediateRace.not_orderedBefore {i : Nat}
    (hp : ∀ instrs ∈ p.threads, ∀ i ∈ instrs, i.isOrdinary) (ht : t.Sound p)
    (hfollows : Follows t x.stack w) (h : ImmediateRace w c e) :
    ¬OrderedBefore p none t x e i c := by
  have hw : Exploration.chainedActions t x.stack 1 = w := hfollows.chainedActions 0
  unfold OrderedBefore
  simp only [hw]
  rintro (⟨j, f, b, hj, hf, hfb, hcb, hb⟩ | ⟨b, ⟨u, y, rfl, hspawn, -⟩, -⟩)
  · have hbe : Step.Depends none b e := by
      rcases hb with hb | ⟨f', b', _, _, _, _, hs, _⟩
      · exact Step.dependent_of_process_eq hb
      · obtain rfl : f = f' := Option.some.inj (hf.symm.trans hs.frame)
        obtain rfl : b = b' := Option.some.inj (hfb.symm.trans hs.action)
        exact hs.depends
    exact h.immediate b hcb (.single ⟨Precedes.append_iff.2 (.inr (.inr ⟨hcb.mem_right, by simp⟩)), hbe⟩)
  · have hordinary := ((hfollows.isRun ht).hasStep (a := b) (by simp)).isOrdinary hp
    rw [hspawn] at hordinary
    cases hordinary

/-- Where races are reversed, immediate races of ordinary steps are. -/
theorem ReversesRaces.reversesTo (hp : ∀ instrs ∈ p.threads, ∀ i ∈ instrs, i.isOrdinary)
    (ht : t.Sound p) (hfollows : Follows t x.stack (u ++ c :: y))
    (hrun : p.IsRun p.initialState (u ++ c :: (y ++ [e]))) (hrace : ImmediateRace (u ++ c :: y) c e)
    (hreverses : ReversesRaces p none t e x x')
    (hasleep : ∀ k d, x.stack.Holds k → t.node? k = some d →
      (x'.table.get d.stateId).asleep = (x.table.get d.stateId).asleep) :
    ReversesTo t x x' (u.length + 1) (reversingSteps none c y e) := by
  have hlater : Exploration.chainedActions t x.stack (u.length + 1 + 1) = y := by
    rw [hfollows.chainedActions]
    simp
  obtain ⟨g, hg, hstarts⟩ := hrace.exists_starts hp hrun
  have he : e.instr.isOrdinary := (hrun.hasStep (by simp)).isOrdinary hp
  obtain ⟨f, below, origin, hs, hstate⟩ :=
    hfollows.sighted ht hrace.depends (Step.reversible_of_isOrdinary he)
  by_cases hredundant : (x.table.get origin.stateId).asleep.hasKey (Action.key g)
  · -- a redundant start need not be required again
    obtain ⟨z, hz⟩ := hstarts.exists_reorders
    refine ⟨below, origin, g, z, hs.belowFrame, hs.atOrigin, hz, .inr ?_⟩
    rwa [hasleep below.node origin ⟨_, below, hs.belowFrame, rfl⟩ hs.atOrigin]
  have hinitial : Initial p none t x e (u.length + 1) c origin g := by
    refine ⟨hstate ▸ hg, Bool.eq_false_iff.2 hredundant, ?_⟩
    rwa [hlater]
  rcases hreverses _ f c below origin (Nat.succ_pos _) hs hrace.process_ne ⟨g, hinitial⟩ with
    ⟨r, hr, hrequired⟩ | hordered
  · have hstarts' := hr.starts
    rw [hlater] at hstarts'
    obtain ⟨z, hz⟩ := hstarts'.exists_reorders
    exact ⟨below, origin, r, z, hs.belowFrame, hs.atOrigin, hz, .inl hrequired⟩
  · exact absurd hordered (hrace.not_orderedBefore hp ht hfollows)

namespace Search

variable [ChoiceSource χ] [LawfulChoiceSource χ] {s s' : Search ProgramState Step χ}

/-- Immediate races are reversed. In a session for threads that only read, write and do nothing, with
all conflicts counted, a child of the current node is added by the step `a`. If `a` is in an immediate
race with the step `c` at an index of the stack, then afterwards some step is required before `c`, or
redundant there and not taken, that can come first in the run of the later steps that do not depend on
`c`, followed by `a`. Where all later steps that `c` happens before depend on it, this is the run of the
later steps that `c` does not happen before, followed by `a`. -/
theorem add_reversesImmediateRaces (hp : ∀ instrs ∈ p.threads, ∀ i ∈ instrs, i.isOrdinary)
    (h : Session p (· = none) s) (htop : s.exploration.stack.topNode? = some m)
    (hedge : s.tree.Edge m a n) {isNew : Bool}
    (hadd : explore (p.system none) (Exploration.add · n) s = .ok isNew s') :
    let steps := Exploration.chainedActions s.tree s.exploration.stack
    ∀ i f c, s.exploration.stack.frame? i = some f → f.action = some c →
      ImmediateRace (steps 1) c a →
      ReversesTo s.tree s.exploration s'.exploration i
          (reversingSteps none c (steps (i + 1)) a) ∧
        ((∀ b ∈ steps (i + 1), HappensBefore (Step.Depends none) (steps 1) c b →
            Step.Depends none c b) →
          ReversesTo s.tree s.exploration s'.exploration i
            (unorderedSteps (steps 1) c (steps (i + 1)) a)) := by
  intro steps i f c hf hfc hrace
  have ht := h.isOrderly.sound
  obtain ⟨w, hfollows, -⟩ := h.traced.exists_follows htop
  have hsteps : ∀ k, steps (k + 1) = w.drop k := hfollows.chainedActions
  -- the run up to the step, and from there on
  obtain ⟨k, rfl⟩ : ∃ k, i = k + 1 := by
    rcases i with _ | k
    · obtain ⟨f', hf', -, hnone⟩ := hfollows.bottom
      obtain rfl : f = f' := Option.some.inj (hf.symm.trans hf')
      rw [hfc] at hnone
      cases hnone
    · exact ⟨k, rfl⟩
  have hc : w[k]? = some c := (hfollows.action_of_frame hf).symm.trans hfc
  obtain ⟨u, y, rfl, rfl⟩ : ∃ u y, w = u ++ c :: y ∧ k = u.length :=
    ⟨w.take k, w.drop (k + 1), eq_take_append_cons_drop hc,
      (List.length_take_of_le (Nat.le_of_lt (List.getElem?_eq_some_iff.1 hc).1)).symm⟩
  have hall : steps 1 = u ++ c :: y := hsteps 0
  have hlater : steps (u.length + 1 + 1) = y := by simp [hsteps]
  rw [hall] at hrace ⊢
  rw [hlater]
  have hreverses : ReversesTo s.tree s.exploration s'.exploration (u.length + 1)
      (reversingSteps none c y a) := by
    have hadded : Ends (explore (p.system none) (Exploration.add · n)) s (fun _ s' =>
        ReversesRaces p none s.tree a s.exploration s'.exploration ∧
          ∀ k d, s.exploration.stack.Holds k → s.tree.node? k = some d →
            (s'.exploration.table.get d.stateId).asleep =
              (s.exploration.table.get d.stateId).asleep) fun _ => True :=
      ends_explore ((Ends.addChild_traced ht h.traced htop hedge).imp fun _ _ hx => hx.2)
    obtain ⟨hreverses, hasleep⟩ := hadded.of_ok hadd
    refine hreverses.reversesTo hp ht hfollows ?_ hrace hasleep
    -- the step that is added runs on top of the stack
    obtain ⟨last, hlast, rfl⟩ := hfollows.exists_top htop
    have hrun := ht.canRun hedge
    rw [hfollows.state_of_frame ht hlast, List.take_length] at hrun
    rw [← List.cons_append, ← List.append_assoc]
    exact Program.isRun_append.2 ⟨hfollows.isRun ht, hrun, trivial⟩
  refine ⟨hreverses, fun hdirect => ?_⟩
  rwa [unorderedSteps_eq rfl hdirect]

/-- The write of the second thread is in an immediate race with that of the first one. -/
theorem add_reversesImmediateRaces_rivalWriters :
    ∃ (s s' : Search ProgramState Step Seeded) (m n : NodeId) (a c : Step) (isNew : Bool)
      (f : Frame Step), Session rivalWriters (· = none) s ∧
        s.exploration.stack.topNode? = some m ∧ s.tree.Edge m a n ∧
        explore (rivalWriters.system none) (Exploration.add · n) s = .ok isNew s' ∧
        s.exploration.stack.frame? 1 = some f ∧ f.action = some c ∧
        ImmediateRace (Exploration.chainedActions s.tree s.exploration.stack 1) c a ∧
        ReversesTo s.tree s.exploration s'.exploration 1 [a] := by
  let c : Step := ⟨⟨0⟩, 0, .write "x" 1⟩
  let a : Step := ⟨⟨1⟩, 0, .write "x" 2⟩
  have heval : addsAfter rivalWriters none (Seeded.ofSeed 0) [c] a (fun s _ =>
      (s.exploration.stack.frame? 1).any (·.action == some c) &&
        Exploration.chainedActions s.tree s.exploration.stack 2 == []) = true := by
    decide +kernel
  obtain ⟨s, s', m, n, isNew, hsession, htop, hedge, hadd, hrun, htest⟩ := exists_of_addsAfter heval
  simp only [Bool.and_eq_true, beq_iff_eq] at htest
  obtain ⟨hframe, hlater⟩ := htest
  obtain ⟨f, hf, hfc⟩ := (Option.any_eq_true _ _).1 hframe
  have hfc : f.action = some c := by simpa using hfc
  have hrace : ImmediateRace (Exploration.chainedActions s.tree s.exploration.stack 1) c a := by
    rw [hrun]
    exact .of_closed [] [c] (by decide) (by decide) (by decide) (by decide) (by decide)
  refine ⟨s, s', m, n, a, c, isNew, f, hsession, htop, hedge, hadd, hf, hfc, hrace, ?_⟩
  have hreverses := (add_reversesImmediateRaces (by decide) hsession htop hedge hadd 1 f c hf hfc
    hrace).1
  rwa [hlater] at hreverses

/-- One thread writes two variables; two others read them, one of them after a step of its own. -/
def relay : Program :=
  ((Program.empty.thread [.write "x" 1, .write "y" 1]).thread [.idle, .read "x"]).thread [.read "y"]

/-- What is required need not start the later steps that the earlier one does not happen before. The
read of `x` comes last and is in an immediate race with the write of `x`. The read of `y` does not
depend on that write, but comes after the write of `y` by the same thread; it is required before the
write of `x` all the same, and the read of `x` is not. -/
theorem not_reversesTo_unorderedSteps :
    ∃ (s s' : Search ProgramState Step Seeded) (m n : NodeId) (a c : Step) (isNew : Bool)
      (f : Frame Step), (∀ instrs ∈ relay.threads, ∀ i ∈ instrs, i.isOrdinary) ∧
        Session relay (· = none) s ∧ s.exploration.stack.topNode? = some m ∧ s.tree.Edge m a n ∧
        explore (relay.system none) (Exploration.add · n) s = .ok isNew s' ∧
        s.exploration.stack.frame? 2 = some f ∧ f.action = some c ∧
        ImmediateRace (Exploration.chainedActions s.tree s.exploration.stack 1) c a ∧
        ¬ReversesTo s.tree s.exploration s'.exploration 2
          (unorderedSteps (Exploration.chainedActions s.tree s.exploration.stack 1) c
            (Exploration.chainedActions s.tree s.exploration.stack 3) a) := by
  let own : Step := ⟨⟨1⟩, 0, .idle⟩
  let c : Step := ⟨⟨0⟩, 0, .write "x" 1⟩
  let b : Step := ⟨⟨0⟩, 1, .write "y" 1⟩
  let d : Step := ⟨⟨2⟩, 0, .read "y"⟩
  let a : Step := ⟨⟨1⟩, 1, .read "x"⟩
  have heval : addsAfter relay none (Seeded.ofSeed 3) [own, c, b, d] a (fun s s' =>
      (s.exploration.stack.frame? 2).any (·.action == some c) &&
        Exploration.chainedActions s.tree s.exploration.stack 3 == [b, d] &&
        (s.exploration.stack.frame? 1).any fun below => (s.tree.node? below.node).any fun origin =>
          !(s'.exploration.table.get origin.stateId).backtrack.hasKey (Action.key a) &&
            !(s'.exploration.table.get origin.stateId).asleep.hasKey (Action.key a)) = true := by
    decide +kernel
  obtain ⟨s, s', m, n, isNew, hsession, htop, hedge, hadd, hrun, htest⟩ := exists_of_addsAfter heval
  simp only [Bool.and_eq_true, beq_iff_eq] at htest
  obtain ⟨⟨hframe, hlater⟩, hbelow⟩ := htest
  obtain ⟨f, hf, hfc⟩ := (Option.any_eq_true _ _).1 hframe
  obtain ⟨below, hbelow, horigin⟩ := (Option.any_eq_true _ _).1 hbelow
  obtain ⟨origin, horigin, hneither⟩ := (Option.any_eq_true _ _).1 horigin
  have hfc : f.action = some c := by simpa using hfc
  refine ⟨s, s', m, n, a, c, isNew, f, by decide, hsession, htop, hedge, hadd, hf, hfc, ?_, ?_⟩
  · rw [hrun]
    exact .of_closed [b, d] [own, c] (by decide) (by decide) (by decide) (by decide) (by decide)
  rintro ⟨below', origin', g, z, hbelow', horigin', hz, hkey⟩
  obtain rfl : below = below' := Option.some.inj (hbelow.symm.trans hbelow')
  obtain rfl : origin = origin' := Option.some.inj (horigin.symm.trans horigin')
  -- the write of `x` happens before both of the steps between
  have hcb : HappensBefore (Step.Depends none) [own, c, b, d] c b := .single (by decide)
  have hcd : HappensBefore (Step.Depends none) [own, c, b, d] c d := hcb.tail (by decide)
  have hsteps : unorderedSteps [own, c, b, d] c [b, d] a = [a] := by
    unfold unorderedSteps
    simp [hcb, hcd]
  rw [hrun, hlater, hsteps] at hz
  obtain rfl : g = a := List.mem_singleton.1 (hz.mem_iff.2 List.mem_cons_self)
  simp only [Bool.and_eq_true, Bool.not_eq_true'] at hneither
  rcases hkey with hkey | hkey
  · rw [hneither.1] at hkey
    cases hkey
  · rw [hneither.2] at hkey
    cases hkey

end Search

end Interleaving
