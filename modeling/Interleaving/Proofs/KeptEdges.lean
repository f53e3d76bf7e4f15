import Interleaving.Proofs.Turns

/-!
# Edges of earlier rounds come first

With re-exploration on, a round takes the edges that the tree has before it performs anything new. When
a step is asked for at a node, each of its children has been entered in the round, or the step to it is
redundant there (`Ledger.entered_or_redundant`). The step that is offered is not redundant, so
it leads to no child of the tree; a step is performed exactly where a node is made
(`Engine.round_replaysFirst`).
-/

namespace Interleaving

variable {p : Program} {precision : Precision} {t : SearchTree ProgramState Step}
  {settings : Settings} {χ : Type} {x : Exploration Step χ} {pushed : List NodeId} {n c : NodeId}
  {entry : SearchTree.Node ProgramState Step} {a : Step}

/-- Where no edge can be taken again, each child has been entered, or the step to it is redundant. -/
theorem Ledger.entered_or_redundant (h : Ledger t pushed x) (ht : t.Sound p)
    (hsettled : x.IsSettled p precision t settings) (hlazy : settings.lazyReexploration = true)
    (htop : x.stack.topNode? = some n) (hn : t.node? n = some entry) (hc : c ∈ entry.children) :
    c ∈ pushed ∨ ∃ a, t.action c = some a ∧ (x.table.sleep entry.stateId).contains a := by
  obtain ⟨child, hchild, hparent⟩ := SearchTree.parent_eq_some_iff.1 (ht.child n entry hn c hc)
  obtain ⟨-, a, -, -, haction, -⟩ := ht.edge c child n hchild hparent
  have ha : t.action c = some a := SearchTree.action_eq_some_iff.2 ⟨child, hchild, haction⟩
  rw [← h.visited, ← (ht.identity c child hchild).1]
  exact (hsettled.visited_or_redundant hlazy htop hn hc hchild haction).imp_right fun hredundant =>
    ⟨a, ha, hredundant⟩

/-- Then a step that is not redundant leads to no child. -/
theorem Ledger.childWithAction_eq_none (h : Ledger t pushed x) (ht : t.Sound p)
    (hsettled : x.IsSettled p precision t settings) (hlazy : settings.lazyReexploration = true)
    (htop : x.stack.topNode? = some n) (hn : t.node? n = some entry) (ha : p.HasStep a)
    (hawake : (x.table.sleep entry.stateId).hasKey (Action.key a) = false) :
    t.childWithAction n a = none := by
  refine Option.eq_none_iff_forall_ne_some.2 fun c hchild => Bool.eq_false_iff.1 hawake ?_
  obtain ⟨hc, hedge⟩ := ht.edge_of_childWithAction hn ha hchild
  rcases h.entered_or_redundant ht hsettled hlazy htop hn hc with hpushed | ⟨b, hb, hredundant⟩
  · rw [(ht.identity n entry hn).1]
    exact (h.entered n a c hedge hpushed).2
  · obtain rfl := Option.some.inj (hb.symm.trans hedge.2)
    exact hredundant

namespace Engine

variable {settings : EngineSettings} {s₀ : Search ProgramState Step Seeded} {tally : Tally}
  {e e' start : Engine} {progress progress' : Progress}

/-- The settings of the search are never changed. -/
theorem History.settings_eq {e₀ : Engine} {k : Nat} (h : History e₀ k e) (h₀ : e₀.IsReady p settings) :
    e.search.settings = e₀.search.settings := by
  induction h with
  | start => rfl
  | round hhistory hround ih =>
    obtain ⟨tally, -, htallied, -⟩ := (hhistory.isReady h₀).runRound.of_ok hround
    exact htallied.path.settings.trans ih
  | halt hhistory hround => exact ((hhistory.isReady h₀).runRound.of_error hround).elim
  | setPrecision _ ih => exact ih
  | prune _ _ ih => exact ih

namespace Tallied

variable (h : e.Tallied p settings s₀ tally)
include h

/-- Where nothing is left to do before a step is offered, an expansion performs no step, or a step that
leads to no child, and makes a node for it. -/
theorem expand_performs (hlazy : s₀.settings.lazyReexploration = true)
    (htop : e.search.exploration.stack.topNode? = some n)
    (hsettled : e.search.exploration.IsSettled p e.precision e.tree e.search.settings)
    (hexpand : Engine.expand n progress e = .ok progress' e') :
    e'.executed = e.executed ∧ progress'.newNodes = progress.newNodes ∨
      ∃ a, e'.executed = e.executed.push a ∧ e.tree.childWithAction n a = none ∧
        progress'.newNodes = progress.newNodes + 1 := by
  have hsound := h.orderly.sound
  have hlazy' : e.search.settings.lazyReexploration = true := by rwa [h.path.settings]
  cases expanded.of_ok hexpand with
  | finish _ _ hnewNodes => exact .inl ⟨rfl, hnewNodes⟩
  | @perform entry a _ _ _ _ _ _ hn hnext hchild _ =>
    obtain ⟨-, -, -, -, hoffered⟩ := (h.nextAction htop hn).of_ok hnext
    obtain ⟨hrun, hawake, -⟩ := hoffered a rfl
    have hnone := h.ledger.childWithAction_eq_none hsound hsettled hlazy' htop hn hrun.hasStep hawake
    rcases hchild with ⟨hsome, -⟩ | ⟨-, -, hnewNodes⟩
    · rw [hnone] at hsome
      cases hsome
    · exact .inr ⟨a, rfl, hnone, hnewNodes⟩

/-- A turn performs as many steps as it makes nodes. -/
theorem roundTurn_performs {goesOn : Bool} (hlazy : s₀.settings.lazyReexploration = true)
    (hturn : Engine.roundTurn progress e = .ok (goesOn, progress') e') :
    ∃ steps, e'.executed = e.executed ++ steps ∧ progress'.newNodes = progress.newNodes + steps.size := by
  rcases of_roundTurn hturn with harrive | ⟨n, e₁, -, harrive, hexpand⟩
  · refine ⟨#[], ?_⟩
    cases arrived.of_ok harrive <;> exact ⟨Array.append_empty.symm, rfl⟩
  · have hsame : e₁.executed = e.executed := by cases arrived.of_ok harrive; rfl
    obtain ⟨tally', h₁, hasked⟩ := h.arrive harrive
    obtain ⟨htop, hsettled⟩ := hasked n rfl
    rcases h₁.expand_performs hlazy htop hsettled hexpand with ⟨hexecuted, hnewNodes⟩ |
      ⟨a, hexecuted, -, hnewNodes⟩
    · exact ⟨#[], by rw [hexecuted, hsame, Array.append_empty], hnewNodes⟩
    · exact ⟨#[a], by rw [hexecuted, hsame, Array.push_eq_append], hnewNodes⟩

end Tallied

/-- A round performs as many steps as it makes nodes. -/
theorem IsReady.runRound_performs {report : RoundReport} (h : e.IsReady p settings)
    (hlazy : e.search.settings.lazyReexploration = true)
    (hround : Engine.runRound e = .ok report e') :
    ∃ steps, e'.executed = e.executed ++ steps ∧ report.newNodes = steps.size := by
  obtain ⟨progress, ⟨-, steps, hexecuted, hnewNodes⟩, rfl⟩ : ∃ progress,
      (e'.IsUnderWay p settings e.search progress ∧
        ∃ steps, e'.executed = e.executed ++ steps ∧ progress.newNodes = steps.size) ∧
      report = e'.report progress := by
    refine runRound_preserves (I := fun progress e₁ => e₁.IsUnderWay p settings e.search progress ∧
      ∃ steps, e₁.executed = e.executed ++ steps ∧ progress.newNodes = steps.size) hround ?_ ?_
    · intro opened hstart
      obtain ⟨_, x, -, rfl⟩ := of_startRound hstart
      exact ⟨h.isUnderWay hstart, #[], Array.append_empty.symm, rfl⟩
    · rintro progress e₁ goesOn progress' e₂ ⟨⟨tally, htallied, hcounts⟩, steps, hexecuted,
        hnewNodes⟩ hturn
      obtain ⟨more, hexecuted', hnewNodes'⟩ := htallied.roundTurn_performs hlazy hturn
      refine ⟨IsUnderWay.roundTurn ⟨tally, htallied, hcounts⟩ hturn, steps ++ more, ?_, ?_⟩
      · rw [hexecuted', hexecuted, Array.append_assoc]
      · rw [hnewNodes', hnewNodes, Array.size_append]
  exact ⟨steps, hexecuted, hnewNodes⟩

/-- A round with re-exploration on ends with a report, after any history of rounds, of changes of the
variables tracked, and of prunings. Whenever it asks for a step at a node, each child of the node has been
entered in the round or is reached by a step that is redundant at the node; and a step performed there is
none to a child. The round performs as many steps as it makes nodes. -/
theorem round_replaysFirst (p : Program) {settings : EngineSettings}
    (hlazy : settings.exploration.lazyReexploration = true) (drawnSeed : UInt64) {k : Nat}
    (h : History (create p settings drawnSeed) k e) :
    (∀ n e₁, e.Asks n e₁ → ∃ pushed entry, Search.Path p e.search pushed e₁.search ∧
      (∀ m : NodeId, e₁.search.exploration.table.isVisited ⟨m.index⟩ ↔ m ∈ pushed) ∧
      e₁.search.exploration.stack.topNode? = some n ∧ e₁.tree.node? n = some entry ∧
      (∀ c ∈ entry.children, c ∈ pushed ∨ ∃ a, e₁.tree.action c = some a ∧
        (e₁.search.exploration.table.sleep entry.stateId).contains a) ∧
      ∀ progress progress' e₂, expand n progress e₁ = .ok progress' e₂ →
        e₂.executed = e₁.executed ∨
          ∃ a, e₂.executed = e₁.executed.push a ∧ e₁.tree.childWithAction n a = none) ∧
    ∃ report e' steps, runRound e = .ok report e' ∧ e'.executed = e.executed ++ steps ∧
      report.newNodes = steps.size := by
  have hready := h.isReady isReady_create
  have hlazy' : e.search.settings.lazyReexploration = true := by
    rw [h.settings_eq isReady_create]
    exact hlazy
  constructor
  · rintro n e₁ ⟨progress, before, hunderWay, harrive⟩
    obtain ⟨tally, hbefore, -⟩ := hunderWay.preserves (fun _ => hready.isUnderWay)
      fun _ _ _ _ hmoment hturn => hmoment.roundTurn hturn
    obtain ⟨tally', h₁, hasked⟩ := hbefore.arrive harrive
    obtain ⟨htop, hsettled⟩ := hasked n rfl
    obtain ⟨entry, hn⟩ := h₁.orderly.orderly.stands.of_top htop
    have hlazy₁ : e₁.search.settings.lazyReexploration = true := by rwa [h₁.path.settings]
    refine ⟨tally'.pushed, entry, h₁.path, h₁.ledger.visited, htop, hn, fun c hc => ?_,
      fun progress progress' e₂ hexpand => ?_⟩
    · exact h₁.ledger.entered_or_redundant h₁.orderly.sound hsettled hlazy₁ htop hn hc
    · exact (h₁.expand_performs hlazy' htop hsettled hexpand).imp And.left
        fun ⟨a, hexecuted, hnone, _⟩ => ⟨a, hexecuted, hnone⟩
  · obtain ⟨report, e', hround, -⟩ := hready.runRound.exists_ok
    obtain ⟨steps, hexecuted, hnewNodes⟩ := hready.runRound_performs hlazy' hround
    exact ⟨report, e', steps, hround, hexecuted, hnewNodes⟩

/-- A round with covered nodes comes first, and a pruning after it. The round that follows asks for a step
at a node that has a child already, which it has entered; it makes four nodes and performs four steps. -/
theorem round_replaysFirst_overwriters : ∃ e e₁ pushed report e' steps,
    History (create overwriters { covering := true } 0) 1 e ∧ e.Asks ⟨6⟩ e₁ ∧
      e₁.tree.children ⟨6⟩ = [⟨7⟩] ∧ Search.Path overwriters e.search pushed e₁.search ∧
      (⟨7⟩ ∈ pushed ∨ ∃ a, e₁.tree.action ⟨7⟩ = some a ∧
        (e₁.search.exploration.table.sleep ⟨6⟩).contains a) ∧
      runRound e = .ok report e' ∧ report.newNodes = 4 ∧ e'.executed = e.executed ++ steps ∧
      steps.size = 4 := by
  let first : Engine := (create overwriters { covering := true } 0).setPrecision (some ∅)
  have heval : endedWith (fun _ e => e.tree.ids.contains ⟨4⟩ &&
      let second := (e.prune ⟨4⟩).setPrecision none
      endedWith (fun report _ => report.newNodes == 4) (runRound second) &&
      second.asksAfter 2 fun n e₁ => n == ⟨6⟩ && (e₁.tree.node? n).any fun entry =>
        entry.children == [⟨7⟩] && entry.stateId == ⟨6⟩) (runRound first) = true := by decide +kernel
  obtain ⟨_, e, hround, heval⟩ := exists_of_endedWith heval
  simp only [Bool.and_eq_true] at heval
  obtain ⟨hmem, hnew, hasks⟩ := heval
  obtain ⟨n, e₁, hasks, htest⟩ := exists_asks hasks
  rw [Bool.and_eq_true, beq_iff_eq] at htest
  obtain ⟨rfl, htest⟩ := htest
  obtain ⟨entry, hn, htest⟩ := (Option.any_eq_true _ _).1 htest
  rw [Bool.and_eq_true, beq_iff_eq, beq_iff_eq] at htest
  obtain ⟨hchildren, hid⟩ := htest
  have hhistory : History (create overwriters { covering := true } 0) 1
      ((e.prune ⟨4⟩).setPrecision none) :=
    .setPrecision (.prune (.round (.setPrecision .start) hround) (List.contains_iff_mem.1 hmem))
  obtain ⟨hfirst, report, e', steps, hround', hexecuted, hnewNodes⟩ :=
    round_replaysFirst overwriters rfl 0 hhistory
  obtain ⟨pushed, entry', hpath, -, -, hn', hkept, -⟩ := hfirst _ _ hasks
  obtain rfl : entry = entry' := Option.some.inj (hn.symm.trans hn')
  rw [hid] at hkept
  rw [hround'] at hnew
  have hfour : report.newNodes = 4 := beq_iff_eq.1 hnew
  exact ⟨_, e₁, pushed, report, e', steps, hhistory, hasks,
    (SearchTree.children_eq hn).trans hchildren, hpath, hkept ⟨7⟩ (by rw [hchildren]; simp), hround',
    hfour, hexecuted, hnewNodes.symm.trans hfour⟩

end Engine

end Interleaving
