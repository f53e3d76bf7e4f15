import Interleaving.Proofs.Termination

/-!
# What a round leaves behind

Once a round without covered nodes has come to its end, nothing is left to do at any of the nodes that
it has entered (`Exhausted`): what has become required there, from wherever on the way, is redundant, and
the steps taken are those that lead to the children entered (`Engine.round_exhausts`). That holds
whatever earlier rounds have marked, required or taken, and whatever has been pruned since.
-/

namespace Interleaving

variable {p : Program} {precision : Precision} {t : SearchTree ProgramState Step}
  {x : Exploration Step Seeded} {taken : NodeId → List Step} {pushed : List NodeId} {n c : NodeId}
  {a : Step}

/-- Nothing is left to do at a node in a round that has entered the nodes `pushed`. -/
structure Exhausted (p : Program) (t : SearchTree ProgramState Step) (pushed : List NodeId)
    (x : Exploration Step Seeded) (n : NodeId) : Prop where
  /-- What is required is redundant. -/
  closed : ∀ a ∈ (x.sets n).backtrack.toList, a ∈ (x.sets n).sleep.toList
  /-- The steps taken are those to the children entered. -/
  taken : ∀ k, (x.sets n).explored.hasKey k ↔
    ∃ c ∈ t.children n, c ∈ pushed ∧ (t.action c).map Action.key = some k
  /-- Something has been taken, unless all that can run was redundant when the node was entered. -/
  started : (x.sets n).explored.toList ≠ [] ∨
    ∀ a ∈ p.enabled (t.state n), a ∈ (x.sets n).asleep.toList

namespace Exploring

variable (huncovered : t.Uncovered) (h : Exploring p precision t taken none x)
  (hempty : x.stack.size = 0)
include huncovered h hempty

/-- With an empty stack, what is required at a visited node is redundant. -/
theorem redundant_of_required (hn : x.Visits n) (ha : a ∈ (x.sets n).backtrack.toList) :
    a ∈ (x.sets n).sleep.toList := h.closed huncovered n hn (not_holds hempty) a ha

omit huncovered hempty in
/-- The steps taken at a visited node lead to its children that have been visited. -/
theorem mem_taken_iff (ht : t.Sound p) (hfaithful : t.Faithful)
    (hvisits : ∀ m : NodeId, x.Visits m → m ∈ t.live) :
    a ∈ taken n ↔ ∃ c ∈ t.children n, x.Visits c ∧ t.action c = some a := by
  constructor
  · intro ha
    obtain ⟨c, hc, hedge⟩ := (h.child n a ha).resolve_right fun hnone => by cases hnone.1
    exact ⟨c, hfaithful.mem_children (hvisits c hc) hedge, hc, hedge.2⟩
  · rintro ⟨c, hmem, hc, ha⟩
    obtain ⟨e, he, hmem⟩ := SearchTree.mem_children_iff.1 hmem
    exact (h.edge n a c ⟨ht.child n e he c hmem, ha⟩ hc).2

/-- With an empty stack, nothing is left to do at a visited node. -/
theorem exhausted (ht : t.Sound p) (hfaithful : t.Faithful) (hledger : Ledger t pushed x)
    (hn : n ∈ pushed) : Exhausted p t pushed x n := by
  have hvisits : ∀ m : NodeId, x.Visits m ↔ m ∈ pushed := hledger.visited
  have hlive : ∀ m : NodeId, x.Visits m → m ∈ t.live := fun m hm => hledger.live m ((hvisits m).1 hm)
  have hn := (hvisits n).2 hn
  have hexplored : ∀ b, b ∈ (x.sets n).explored.toList ↔
      ∃ c ∈ t.children n, x.Visits c ∧ t.action c = some b := fun b =>
    Iff.trans ⟨h.explored n hn b, h.recorded n hn (.inr huncovered) b⟩ (h.mem_taken_iff ht hfaithful hlive)
  constructor
  case closed => exact fun a => h.redundant_of_required huncovered hempty hn
  case taken =>
    intro k
    rw [Keyed.hasKey_iff]
    constructor
    · rintro ⟨b, hb, rfl⟩
      obtain ⟨c, hmem, hc, hcb⟩ := (hexplored b).1 hb
      exact ⟨c, hmem, (hvisits c).1 hc, by rw [hcb]; rfl⟩
    · rintro ⟨c, hmem, hc, hkey⟩
      obtain ⟨b, hcb, rfl⟩ := Option.map_eq_some_iff.1 hkey
      exact ⟨b, (hexplored b).2 ⟨c, hmem, (hvisits c).2 hc, hcb⟩, rfl⟩
  case started =>
    by_cases hall : ∀ a ∈ p.enabled (t.state n), x.Asleep n a
    · exact .inr hall
    · -- some step could run and was not redundant, so such a step was required, and taken in the end
      simp only [not_forall] at hall
      obtain ⟨a, hrun, hawake⟩ := hall
      obtain ⟨b, hb⟩ := h.awake n hn (fun _ => huncovered.not_covers) a (Program.mem_enabled_iff.1 hrun)
        ((h.asleep_iff hn (.inr huncovered)).not.1 hawake)
      exact .inl (List.ne_nil_of_mem (h.recorded n hn (.inr huncovered) b (mem_taken hempty hb)))

end Exploring

namespace Engine

variable {e : Engine}

/-- A round in which no node may be covered ends with a report, after any history of rounds, of changes
of the variables tracked, and of prunings. Unless it is cut short, nothing is left to do at the nodes that
it has entered. -/
theorem round_exhausts (p : Program) {settings : EngineSettings} (hcovering : settings.covering = false)
    (drawnSeed : UInt64) {k : Nat} (h : History (create p settings drawnSeed) k e) :
    ∃ report e' pushed, runRound e = .ok report e' ∧ Search.Path p e.search pushed e'.search ∧
      (∀ n : NodeId, e'.search.exploration.table.isVisited ⟨n.index⟩ ↔ n ∈ pushed) ∧
      (report.truncated = false →
        ∀ n ∈ pushed, Exhausted p e'.tree pushed e'.search.exploration n) := by
  have hready := h.isReady isReady_create
  have huncovered := h.isUncovered (isUncovered_create hcovering)
  obtain ⟨report, e', hround, tally, progress, htallied, -⟩ := hready.runRound.exists_ok
  obtain ⟨hinRound, -, hempty⟩ := huncovered.runRound.of_ok hround
  obtain ⟨taken, hexploring⟩ := hinRound.exploring
  refine ⟨report, e', tally.pushed, hround, htallied.path, htallied.ledger.visited,
    fun hwhole n hn => ?_⟩
  exact hexploring.exhausted hinRound.uncovered (hempty hwhole) hinRound.sound htallied.faithful
    htallied.ledger hn

/-- A round that tracks no variable comes first, and a pruning after it. The round that follows enters 13
nodes, six of them by edges of the first one. -/
theorem round_exhausts_guardedPair : ∃ e report e' pushed,
    History (create guardedPair {} 0) 1 e ∧ runRound e = .ok report e' ∧
      Search.Path guardedPair e.search pushed e'.search ∧ pushed.length = 13 ∧
      e'.search.exploration.counters.lazyReplays = 6 ∧
      ∀ n ∈ pushed, Exhausted guardedPair e'.tree pushed e'.search.exploration n := by
  let first : Engine := (create guardedPair {} 0).setPrecision (some ∅)
  have heval : endedWith (fun _ e => e.tree.ids.contains ⟨1⟩ &&
      endedWith (fun report e' => !report.truncated &&
        e'.search.exploration.counters.pushes == e.search.exploration.counters.pushes + 13 &&
        e'.search.exploration.counters.lazyReplays == 6)
        (runRound ((e.prune ⟨1⟩).setPrecision none)))
      (runRound first) = true := by decide +kernel
  obtain ⟨_, e, hround, hlater⟩ := exists_of_endedWith heval
  obtain ⟨hmem, hlater⟩ := Bool.and_eq_true_iff.1 hlater
  obtain ⟨_, _, hlater, hwhole⟩ := exists_of_endedWith hlater
  have hhistory : History (create guardedPair {} 0) 1 ((e.prune ⟨1⟩).setPrecision none) :=
    .setPrecision (.prune (.round (.setPrecision .start) hround) (by simpa using hmem))
  obtain ⟨report, e', pushed, hround', hpath, -, hexhausted⟩ :=
    round_exhausts guardedPair rfl 0 hhistory
  rw [hround', EStateM.Result.ok.injEq] at hlater
  obtain ⟨rfl, rfl⟩ := hlater
  simp only [Bool.and_eq_true, Bool.not_eq_true', beq_iff_eq] at hwhole
  obtain ⟨⟨hwhole, hpushes⟩, hlazy⟩ := hwhole
  have hlength : e.search.exploration.counters.pushes + pushed.length =
      e.search.exploration.counters.pushes + 13 := hpath.pushes.symm.trans hpushes
  exact ⟨_, report, e', pushed, hhistory, hround', hpath, Nat.add_left_cancel hlength, hlazy,
    hexhausted hwhole⟩

end Engine

end Interleaving
