import Interleaving.Proofs.Accounts
import Interleaving.Proofs.KeptEdges
import Interleaving.Proofs.Passages

/-!
# Hidden races in a round

When the question for the end of a round is asked at a covered node, a walk looks into what lies below the
node that covers it. The races of the steps above the covered node with those below the covering one are
reversed then, in each round of a history (`Engine.isEmpty_reversesHiddenRaces`). This holds at all nodes
to which the walk comes, and it comes to all of them if no call of it is cut off, as long as the first step
of the walk, which is left out, has no part in what reverses the race. Where it is needed, the race can be
lost (`Engine.backtrack_overwriters`).
-/

namespace Interleaving

variable {p : Program}

namespace AtCovered

variable {precision : Precision} {t : SearchTree ProgramState Step} {settings : Settings} {χ : Type}
  [ChoiceSource χ] [LawfulChoiceSource χ] {x : Exploration Step χ} {w u : List Step} {n c d : NodeId}
  {i : Nat} {q a : Step} {below : Frame Step}

/-- At a node below the covering one, to which the walk comes along the tree, the races with the steps
above the covered node are reversed. The step of the race may be the first one of the walk. -/
theorem isEmpty_reverses_of_walksTo (h : AtCovered p precision t x w n c)
    (hp : ∀ instrs ∈ p.threads, ∀ i ∈ instrs, i.isOrdinary) (ht : t.Sound p) (hclosed : t.Closed)
    (hfaithful : t.Faithful) (hvirtual : settings.virtualExploration = true)
    (hvisited : x.table.isVisited ⟨below.node.index⟩)
    (hwalks : WalkCall.WalksTo (p.context precision t settings) x c d)
    (hwalk : Walk t.Edge c (u ++ [a]) d) (hrace : HiddenRace precision w u i q a)
    (hpart : HaveNoPart precision q u u.head?.toList a) (hbelow : x.stack.frame? i = some below)
    (hg : ∃ g ∉ u.head?, Starter p precision t x below.node
      (reversingSteps precision q (w.drop (i + 1) ++ u) a) g) :
    Succeeds (Exploration.isEmpty (p.context precision t settings)) x fun _ y =>
      RequiresStarter p precision t x y below.node
        (reversingSteps precision q (w.drop (i + 1) ++ u) a) := by
  obtain ⟨call, hcalls, hroots, rfl⟩ := hwalks
  obtain ⟨hroot, u', m, hcomes, hwalk', -⟩ := (h.comes_of_roots ht hfaithful hcalls).2 hroots
  obtain rfl : u' = u ++ [a] := ht.walk_unique hwalk' hwalk
  have hne : call.node ≠ call.root := by
    rw [hroot]
    intro heq
    rw [heq] at hwalk
    exact absurd (ht.walk_unique hwalk (.nil c)) (by simp)
  refine h.isEmpty_reverses hp ht hclosed hfaithful hcomes hne hrace ?_ hbelow hvirtual hvisited
    (hg.imp fun g ⟨hgu, hstarter⟩ => ⟨?_, hstarter⟩)
  · cases u with
    | nil =>
      intro b hb
      obtain rfl : b = a := by simpa using hb
      exact .inl hrace.depends
    | cons b u => exact hpart
  · cases u with
    | nil => simp
    | cons b u => exact fun hmem => absurd (List.mem_singleton.1 hmem ▸ rfl) hgu

end AtCovered

namespace Engine

variable {settings : EngineSettings} {s₀ : Search ProgramState Step Seeded} {e start : Engine}
  {progress : Progress}

/-- During a round the clocks on the stack stay sound. -/
theorem turnsKeep_traced : TurnsKeep p settings s₀ fun e =>
    Traced p e.precision e.tree e.search.exploration.stack where
  isEmpty := by
    intro e tally b x h htraced hempty
    rw [h.context_eq] at hempty
    exact (Ends.isEmpty_traced h.orderly.sound h.orderly.closed h.orderly.orderly htraced).of_ok hempty
  retree _ htraced hretains := htraced.retree hretains
  answer htraced hstack _ := (congrArg (Traced p _ _) hstack).mpr htraced
  add := by
    intro e tally n a c y isNew h htraced htop hedge hadd
    rw [h.context_eq] at hadd
    exact ((Ends.addChild_traced h.orderly.sound htraced htop hedge).of_ok hadd).1

theorem UnderWay.traced (hunderWay : start.UnderWay progress e) (h : start.IsReady p settings) :
    Traced p e.precision e.tree e.search.exploration.stack := by
  refine (hunderWay.keeps h turnsKeep_traced fun isNew x hadd => ?_).2
  obtain ⟨root, hroot, -⟩ := h.orderly.sound.root
  rw [h.context_eq] at hadd
  obtain ⟨-, hstack, -⟩ := (Ends.addRoot_ends (E := fun _ => True) h.orderly.sound rfl hroot).of_ok hadd
  show Traced _ _ _ x.stack
  rw [hstack]
  exact .root rfl

/-- Races hidden behind a covering edge are reversed, unless a walk is cut off or leaves out a step that the
reversed run needs. -/
theorem isEmpty_reversesHiddenRaces {k : Nat} {drawnSeed : UInt64} {n c : NodeId}
    {entry : SearchTree.Node ProgramState Step}
    (hp : ∀ instrs ∈ p.threads, ∀ i ∈ instrs, i.isOrdinary)
    (hvirtual : settings.exploration.virtualExploration = true)
    (h : History (create p settings drawnSeed) k start) (hunderWay : start.UnderWay progress e)
    (htop : e.search.exploration.stack.topNode? = some n) (hn : e.tree.node? n = some entry)
    (hcovering : entry.covering = some c) :
    let x := e.search.exploration
    let w := Exploration.chainedActions e.tree x.stack 1
    Succeeds (explore Exploration.isEmpty) e fun _ e' => ∀ d ∈ e.tree.live, ∀ u a i q below,
      Walk e.tree.Edge c (u ++ [a]) d →
      (e'.search.exploration.counters.virtualCutoffs = x.counters.virtualCutoffs ∨
        WalkCall.WalksTo e.context x c d) →
      HiddenRace e.precision w u i q a → HaveNoPart e.precision q u u.head?.toList a →
      x.stack.frame? i = some below →
      (∃ g ∉ u.head?, Starter p e.precision e.tree x below.node
        (reversingSteps e.precision q (w.drop (i + 1) ++ u) a) g) →
      RequiresStarter p e.precision e.tree x e'.search.exploration below.node
        (reversingSteps e.precision q (w.drop (i + 1) ++ u) a) := by
  intro x w
  have hready := h.isReady isReady_create
  obtain ⟨⟨tally, htallied, -⟩, steps, -, hbalanced⟩ := hunderWay.accounts hready
  have ho := htallied.orderly
  obtain ⟨w', hfollows, hframes⟩ := (hunderWay.traced hready).exists_follows htop
  obtain rfl : w = w' := hfollows.chainedActions 0
  have hlive := htallied.ledger.live n (htallied.ledger.of_top htop)
  have hvirtual' : e.search.settings.virtualExploration = true := by
    rw [htallied.path.settings, h.settings_eq isReady_create]
    exact hvirtual
  have hcovered : AtCovered p e.precision e.tree x w n c :=
    ⟨ho.orderly, hbalanced.climbs, hfollows, hframes, htop, hlive, entry, hn, hcovering⟩
  refine Ends.explore_ends ?_
  rw [htallied.context_eq]
  refine (ho.orderly.isEmpty_leads ho.sound ho.closed).and_ok.imp
    fun b y ⟨_, hok⟩ d hd u a i q below hwalk hreached hrace hpart hbelow hg => ?_
  have hvisited : x.table.isVisited ⟨below.node.index⟩ :=
    (htallied.ledger.visited _).2 (htallied.ledger.stacked _ ⟨i, below, hbelow, rfl⟩)
  have hwalks : WalkCall.WalksTo (p.context e.precision e.tree e.search.settings) x c d :=
    hreached.elim (fun hnone => hcovered.walksTo ho.sound ho.closed htallied.faithful htallied.bare
      (fun _ hcalls => not_cutsOff_of_isEmpty hvirtual' htop hn hcovering
        (ho.sound.identity n entry hn).2 hok (Nat.le_of_eq hnone) hcalls) hwalk hd) id
  exact (hcovered.isEmpty_reverses_of_walksTo hp ho.sound ho.closed htallied.faithful hvirtual' hvisited
    hwalks hwalk hrace hpart hbelow hg).of_ok hok

/-- Two threads write to `x`, one of them to `y` after that, and a third one reads `x`. -/
def lateReader : Program :=
  ((Program.empty.thread [.write "x" 1]).thread [.write "x" 1, .write "y" 1]).thread [.read "x"]

/-- In `lateReader`, node 15 gets covered by node 5. Below that, the second thread writes to `y` and then
the third one reads `x`, which races with the last write above node 15. So one of these two steps becomes
required at node 14, where neither was before. -/
theorem isEmpty_reversesHiddenRaces_lateReader :
    let write : Step := ⟨⟨1⟩, 1, .write "y" 1⟩
    let read : Step := ⟨⟨2⟩, 0, .read "x"⟩
    ∃ e e' isEmpty, (create lateReader { exploration := .ofSeed 11, covering := true } 0).ComesTo e ∧
      e.search.exploration.stack.topNode? = some ⟨15⟩ ∧
      (e.tree.node? ⟨15⟩).bind (·.covering) = some ⟨5⟩ ∧
      explore Exploration.isEmpty e = .ok isEmpty e' ∧ ∃ r, r ∈ [write, read] ∧
        (e.search.exploration.sets ⟨14⟩).backtrack.hasKey (Action.key r) = false ∧
        (e'.search.exploration.sets ⟨14⟩).backtrack.hasKey (Action.key r) := by
  intro write read
  let early : Step := ⟨⟨1⟩, 0, .write "x" 1⟩
  let above : Step := ⟨⟨0⟩, 0, .write "x" 1⟩
  let start : Engine := create lateReader { exploration := .ofSeed 11, covering := true } 0
  have heval : start.passesAfter 20 (fun e =>
      let x := e.search.exploration
      x.stack.topNode? == some ⟨15⟩ && (e.tree.node? ⟨15⟩).bind (·.covering) == some ⟨5⟩ &&
      e.precision == none && Exploration.chainedActions e.tree x.stack 1 == [early, above] &&
      (x.stack.frame? 1).any (·.node == ⟨14⟩) &&
      decide (⟨7⟩ ∈ e.tree.live) &&
      decide (e.tree.parent ⟨6⟩ = some ⟨5⟩ ∧ e.tree.action ⟨6⟩ = some write) &&
      decide (e.tree.parent ⟨7⟩ = some ⟨6⟩ ∧ e.tree.action ⟨7⟩ = some read) &&
      decide (read ∈ lateReader.enabled (e.tree.state ⟨14⟩)) &&
      !(x.sets ⟨14⟩).asleep.hasKey (Action.key read) &&
      !(x.sets ⟨14⟩).backtrack.hasKey (Action.key write) &&
      !(x.sets ⟨14⟩).backtrack.hasKey (Action.key read) &&
      endedWith (fun _ e' => e'.search.exploration.counters.virtualCutoffs ==
        x.counters.virtualCutoffs) (explore Exploration.isEmpty e)) = true := by
    decide +kernel +revert
  obtain ⟨e, hcomes, heval⟩ := exists_comesTo heval
  simp only [Bool.and_eq_true, Bool.not_eq_true', beq_iff_eq, decide_eq_true_eq] at heval
  obtain ⟨⟨⟨⟨⟨⟨⟨⟨⟨⟨⟨⟨htop, hcovering⟩, hprecision⟩, hw⟩, hbelow⟩, hlive⟩, hwrite⟩, hread⟩, henabled⟩,
    hawake⟩, hwriteAbsent⟩, hreadAbsent⟩, hanswer⟩ := heval
  obtain ⟨entry, hn, hcovering'⟩ := Option.bind_eq_some_iff.1 hcovering
  obtain ⟨below, hbelow, hnode⟩ := (Option.any_eq_true _ _).1 hbelow
  rw [beq_iff_eq] at hnode
  obtain ⟨isEmpty, e', hisEmpty, hcutoffs⟩ := exists_of_endedWith hanswer
  have hunderWay : ∃ progress, start.UnderWay progress e := by
    obtain ⟨turns, opened, progress, hstart, hturns, hlimit⟩ := hcomes
    exact ⟨progress, turns, opened, hstart, hturns, hlimit⟩
  obtain ⟨progress, hunderWay⟩ := hunderWay
  have hwalk : Walk e.tree.Edge ⟨5⟩ ([write] ++ [read]) ⟨7⟩ := .cons hwrite (.cons hread (.nil _))
  have hrace : HiddenRace none [early, above] [write] 1 above read := by
    have himmediate : ImmediateRace [early, above, write] above read :=
      .of_closed [] [early, above] (by decide) (by decide) (by decide) (by decide) (by decide)
    exact ⟨rfl, himmediate.process_ne, himmediate.depends, himmediate.immediate⟩
  have hrun : reversingSteps none above ([early, above].drop 2 ++ [write]) read = [write, read] := by
    decide
  have hpart : HaveNoPart none above [write] [write] read := by
    intro b hb
    obtain rfl : b = write := by simpa using hb
    refine .inr fun d hd => ?_
    obtain rfl : d = read := by simpa [Precedes.cons_iff] using hd
    decide
  have hstarter : Starter lateReader none e.tree e.search.exploration below.node
      (reversingSteps none above ([early, above].drop 2 ++ [write]) read) read := by
    rw [hnode, hrun]
    exact ⟨Program.mem_enabled_iff.1 henabled, hawake, [write], [], rfl, by decide⟩
  obtain ⟨r, hr, hkey⟩ := (isEmpty_reversesHiddenRaces (p := lateReader) (by decide) rfl .start
    hunderWay htop hn hcovering').of_ok hisEmpty ⟨7⟩ hlive [write] read 1 above below hwalk
    (.inl (beq_iff_eq.1 hcutoffs)) (by rw [hprecision, hw]; exact hrace)
    (by rw [hprecision]; exact hpart) hbelow
    ⟨read, by simp [write, read], by rw [hprecision, hw]; exact hstarter⟩
  rw [hprecision, hw] at hr
  rw [hnode] at hkey
  have hmem : r ∈ [write, read] := hrun ▸ hr.starts.mem
  refine ⟨e, e', isEmpty, hcomes, htop, hcovering, hisEmpty, r, hmem, ?_, hkey⟩
  simp only [List.mem_cons, List.not_mem_nil, or_false] at hmem
  rcases hmem with rfl | rfl
  · exact hwriteAbsent
  · exact hreadAbsent

/-- In `overwriters`, the step left out is the only one that can start the reversed run. Node 6 is
covered by node 2, and below that the first thread writes to `y` and then to `x`. The last write races
with that of the second thread above node 6, but nothing is required at node 5 to reverse the race. -/
theorem backtrack_overwriters :
    let above : Step := ⟨⟨1⟩, 0, .write "x" 2⟩
    let first : Step := ⟨⟨0⟩, 1, .write "y" 2⟩
    let last : Step := ⟨⟨0⟩, 2, .write "x" 1⟩
    ∃ report e, runRound (.create overwriters { covering := true } 0) = .ok report e ∧
      (e.tree.node? ⟨6⟩).bind (·.covering) = some ⟨2⟩ ∧ e.tree.Edge ⟨5⟩ above ⟨6⟩ ∧
      e.tree.Edge ⟨2⟩ first ⟨3⟩ ∧ e.tree.Edge ⟨3⟩ last ⟨4⟩ ∧
      overwriters.CanRun (e.tree.state ⟨5⟩) first ∧ ¬e.search.exploration.Asleep ⟨5⟩ first ∧
      Starts (Step.Depends none) first (reversingSteps none above [first] last) ∧
      ∀ g, Starts (Step.Depends none) g (reversingSteps none above [first] last) →
        (e.search.exploration.sets ⟨5⟩).backtrack.hasKey (Action.key g) = false := by
  intro above first last
  have heval : endedWith (fun _ e =>
      decide ((e.tree.node? ⟨6⟩).bind (·.covering) = some ⟨2⟩) &&
      decide (e.tree.parent ⟨6⟩ = some ⟨5⟩ ∧ e.tree.action ⟨6⟩ = some above) &&
      decide (e.tree.parent ⟨3⟩ = some ⟨2⟩ ∧ e.tree.action ⟨3⟩ = some first) &&
      decide (e.tree.parent ⟨4⟩ = some ⟨3⟩ ∧ e.tree.action ⟨4⟩ = some last) &&
      decide (first ∈ overwriters.enabled (e.tree.state ⟨5⟩)) &&
      !decide (first ∈ (e.search.exploration.sets ⟨5⟩).asleep.toList) &&
      !(e.search.exploration.sets ⟨5⟩).backtrack.hasKey (Action.key first))
      (runRound (.create overwriters { covering := true } 0)) = true := by
    decide +kernel +revert
  obtain ⟨report, e, hround, heval⟩ := exists_of_endedWith heval
  simp only [Bool.and_eq_true, Bool.not_eq_true', decide_eq_true_eq, decide_eq_false_iff_not] at heval
  obtain ⟨⟨⟨⟨⟨⟨hcovering, habove⟩, hfirst⟩, hlast⟩, henabled⟩, hawake⟩, hmissing⟩ := heval
  have hreversing : reversingSteps none above [first] last = [first, last] := by decide
  have hordered : Step.Depends none last first := Step.dependent_of_process_eq rfl
  refine ⟨report, e, hround, hcovering, habove, hfirst, hlast, Program.mem_enabled_iff.1 henabled,
    hawake, ?_, fun g hg => ?_⟩
  · rw [hreversing]
    exact .head
  · rw [hreversing, Starts.cons_iff, Starts.cons_iff] at hg
    obtain rfl | ⟨hindependent, rfl | ⟨-, hnil⟩⟩ := hg
    · exact hmissing
    · exact absurd hordered hindependent
    · exact absurd hnil Starts.not_nil

end Engine

end Interleaving
