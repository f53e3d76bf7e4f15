import Interleaving.Proofs.CoveredNodes
import Interleaving.Proofs.Replays

/-!
# Rounds that cover nodes

A round may cover nodes and lose no terminal state for that. While no call of a walk has been cut off and
the walks of the tree are unhindered (`Engine.WalksUnhindered`), the turns preserve what is known of the
steps taken (`Engine.Explores`), whatever gets covered. As this is so during a round if it is so at the
end, the terminal states found are then those of the program
(`Engine.terminalStates_firstRound_of_covering`). In other rounds that cover nodes, some can be missing
(`Engine.terminalStates_overwriters_ne`).
-/

namespace Interleaving

variable {p : Program} {settings : EngineSettings} {n c : NodeId}

namespace Engine

variable {e e' : Engine} {s₀ : Search ProgramState Step Seeded} {tally : Tally}
  {progress progress' : Progress} {entry : SearchTree.Node ProgramState Step}
  {taken : NodeId → List Step} {y : Exploration Step Seeded} {b : Bool}

/-- The node that is to cover the current one has been explored before. -/
theorem answersFor_of_coveringFor (ht : e.tree.Sound p)
    (hfaithful : e.tree.Faithful)
    (h : Exploring p none e.tree taken none e.search.exploration)
    (hclimbs : e.search.exploration.stack.Climbs e.tree)
    (htop : e.search.exploration.stack.topNode? = some n) (hn : e.tree.node? n = some entry)
    (hcovering : e.coveringFor n entry = some c) :
    AnswersFor e.tree e.search.exploration taken c n := by
  obtain ⟨-, hbare, d, hd, hlt, hmay⟩ := exists_mayCover hcovering
  simp only [mayCover, Exploration.sleepPermitsCover, Bool.and_eq_true, Bool.not_eq_true', beq_iff_eq,
    (ht.identity _ _ hn).1, (ht.identity _ _ hd).1] at hmay
  obtain ⟨⟨⟨⟨hlive, -⟩, huncovered⟩, hstate⟩, hvisited, hasleep⟩ := hmay
  have hvisit := h.standing n (SearchStack.holds_top htop)
  have hstate : e.tree.state c = e.tree.state n := by
    rw [SearchTree.state_eq hd, SearchTree.state_eq hn, hstate]
  have huntaken : taken n = [] := by
    refine List.eq_nil_iff_forall_not_mem.2 fun a ha => ?_
    obtain ⟨k, hk, hedge⟩ := (h.child n a ha).resolve_right fun hpending => by cases hpending.1
    have hmem := hfaithful.mem_children (h.mem_live hk) hedge
    rw [SearchTree.children_eq hn, hbare] at hmem
    cases hmem
  refine ⟨hvisit, hvisited, fun hc => ?_, fun k hk => ?_, hstate, huntaken, fun b hb => ⟨?_, ?_⟩⟩
  · obtain rfl := hclimbs.eq_of_holds htop hc (by rw [SearchTree.depth, SearchTree.depth, hstate])
    exact Nat.lt_irrefl _ hlt
  · rw [SearchTree.Node.isCovered, (SearchTree.covers_iff hd).1 hk] at huncovered
    cases huncovered
  · have hb : b ∈ (e.search.exploration.table.get ⟨c.index⟩).asleep.toList :=
      h.asleep_of_passesOver hvisited hb
    have hkey := Keyed.isSubset_iff.1 hasleep _ (Keyed.hasKey_of_mem hb)
    exact (ActionSet.IsGenuine.hasKey_iff (h.genuine n hvisit)
      (h.genuine c hvisited b (Keyed.mem_difference.1 hb).1)).1 hkey
  · rw [huntaken]
    exact List.not_mem_nil

/-! ## What a round preserves -/

/-- No call of a walk has been cut off, and the walks of the tree are unhindered. -/
structure WalksUnhindered (e : Engine) : Prop where
  cutoffs : e.search.exploration.counters.virtualCutoffs = 0
  unhindered : e.tree.IsUnhindered none

/-- If it is so in the end, it has been so before. -/
theorem WalksUnhindered.of_keeps (h : e'.WalksUnhindered) (ht : e.tree.Sound p)
    (hle : e.search.exploration.counters.virtualCutoffs ≤
      e'.search.exploration.counters.virtualCutoffs)
    (hkeeps : e.tree.Keeps e'.tree) : e.WalksUnhindered :=
  ⟨Nat.le_zero.1 (h.cutoffs ▸ hle), h.unhindered.of_keeps ht hkeeps⟩

/-- With all conflicts counted, it is known which steps a round has taken so far, unless a walk has been
hindered. -/
structure Explores (p : Program) (e : Engine) : Prop where
  precision_eq : e.precision = none
  virtualExploration : e.search.settings.virtualExploration = true
  exploring : e.WalksUnhindered →
    ∃ taken, Exploring p none e.tree taken none e.search.exploration

section Turns

variable (hp : ∀ instrs ∈ p.threads, ∀ i ∈ instrs, i.isOrdinary)
  (h : e.Tallied p settings s₀ tally)
  (hI : e.Explores p)
include h hI

include hp in
/-- The question for the end of a round. -/
theorem Explores.isEmpty (hclimbs : e.search.exploration.stack.Climbs e.tree)
    (hempty : Exploration.isEmpty e.context e.search.exploration = .ok b y) :
    (e.withExploration y).Explores p := by
  refine ⟨hI.precision_eq, hI.virtualExploration, fun hfree => ?_⟩
  have ho := h.orderly
  have hle := Exploration.KeepsCutoffs.isEmpty.le hempty
  obtain ⟨taken, hx⟩ := hI.exploring (hfree.of_keeps ho.sound hle (.of_extends (.refl _)))
  rw [h.context_eq, hI.precision_eq] at hempty
  refine (hx.isEmpty hp ho.sound ho.closed h.faithful h.bare hfree.unhindered hI.virtualExploration
    ho.orderly hclimbs ?_).of_ok hempty
  rintro n c htop ⟨entry, hn, hcovering⟩ call hcalls z
  exact not_cutsOff_of_isEmpty hI.virtualExploration htop hn hcovering (ho.sound.identity n entry hn).2
    hempty (Nat.le_trans (Nat.le_of_eq hfree.cutoffs) (Nat.zero_le _)) hcalls z

/-- The current node gets covered. -/
theorem Explores.cover (hclimbs : e.search.exploration.stack.Climbs e.tree)
    (htop : e.search.exploration.stack.topNode? = some n) (hn : e.tree.node? n = some entry)
    (hcovering : e.coveringFor n entry = some c) :
    (e.withTree (e.tree.setCovering n (some c))).Explores p := by
  refine ⟨hI.precision_eq, hI.virtualExploration, fun hfree => ?_⟩
  have hnot : ∀ d, ¬e.tree.Covers d n := by
    intro d hd
    have huncovered := (of_coveringFor hcovering).1
    rw [SearchTree.Node.isCovered, (SearchTree.covers_iff hn).1 hd] at huncovered
    cases huncovered
  obtain ⟨taken, hx⟩ := hI.exploring (hfree.of_keeps h.orderly.sound (Nat.le_refl _) (.cover hnot))
  exact ⟨taken, hx.cover (SearchStack.holds_top htop) hnot
    (answersFor_of_coveringFor h.orderly.sound h.faithful hx hclimbs htop hn hcovering)⟩

include hp in
/-- The first part of a turn. -/
theorem Explores.arrive {before : Counters} {executed : Array Step} {r : NodeId ⊕ Bool × Progress}
    (haccounts : e.Accounts before executed)
    (harrive : Engine.arrive progress e = .ok r e') : e'.Explores p := by
  obtain ⟨_, -, hbalanced⟩ := id haccounts
  have hclimbs := hbalanced.climbs
  cases arrived.of_ok harrive with
  | ended hempty => exact hI.isEmpty hp h hclimbs hempty
  | cut hempty => exact hI.isEmpty hp h hclimbs hempty
  | cover hempty hremove hn hcovering =>
    obtain ⟨rfl, htop⟩ := h.remove hempty hremove
    obtain ⟨⟨tally', h₁⟩, -⟩ := h.isEmpty hempty
    obtain ⟨_, -, hbalanced'⟩ := turnsKeep_accounts.isEmpty h haccounts hempty
    exact (hI.isEmpty hp h hclimbs hempty).cover h₁ hbalanced'.climbs htop hn hcovering
  | asks hempty hremove =>
    obtain ⟨rfl, -⟩ := h.remove hempty hremove
    exact hI.isEmpty hp h hclimbs hempty

/-- An expansion of the node to which a turn has come. -/
theorem Explores.expand (htop : e.search.exploration.stack.topNode? = some n)
    (hsettled : e.search.exploration.IsSettled p e.precision e.tree e.search.settings)
    (hexpand : Engine.expand n progress e = .ok progress' e') : e'.Explores p := by
  have ht := h.orderly.sound
  have hcontext := h.context_eq
  rw [hI.precision_eq] at hcontext
  have htop' : e.search.exploration.TopUncovered e.tree := by
    rintro m d hm ⟨entry, hn, hcovering⟩
    obtain ⟨hsubsumed, -⟩ := hsettled m entry hm hn
    rw [SearchTree.Node.isSubsumed, SearchTree.Node.isCovered, hcovering] at hsubsumed
    cases hsubsumed
  cases expanded.of_ok hexpand with
  | finish hn hnext =>
    refine ⟨hI.precision_eq, hI.virtualExploration, fun hfree => ?_⟩
    have hextends := SearchTree.extends_setExpanded (t := e.tree) (n := n) (b := true)
    have hexploring := hI.exploring
      (hfree.of_keeps ht (Exploration.KeepsCutoffs.nextAction.le hnext) (.of_extends hextends))
    rw [hcontext] at hnext
    obtain ⟨taken, hx⟩ := (Ends.nextAction_exploring ht htop' hexploring).of_ok hnext
    exact ⟨taken, hx.extend hextends fun d k hdk => hdk.of_setExpanded⟩
  | @perform entry a c t x y isNew _ hn hnext hchild hadd =>
    refine ⟨hI.precision_eq, hI.virtualExploration, fun hfree => ?_⟩
    have hextends : e.tree.Extends t := by
      rcases hchild with ⟨-, rfl, -⟩ | ⟨-, heq, -⟩
      · exact .refl _
      · obtain ⟨rfl, rfl⟩ := Prod.mk.inj heq
        exact SearchTree.extends_addChild hn
    have hle := Nat.le_trans (Exploration.KeepsCutoffs.nextAction.le hnext)
      (Exploration.KeepsCutoffs.add.le hadd)
    have hexploring := hI.exploring
      (hfree.of_keeps ht hle (.of_extends (hextends.trans SearchTree.extends_setExpanded)))
    rw [hcontext] at hnext
    obtain ⟨taken, m, entry', hx, hm, hentry, hid, hpruned, hrun, hnew⟩ :=
      (Ends.nextAction_exploring ht htop' hexploring).of_ok hnext
    obtain ⟨rfl, rfl⟩ := ht.eq_of_stateId_eq hentry hn hid
    have hcontext' : (e.withTree (t.setExpanded m true)).context =
        p.context none (t.setExpanded m true) e.search.settings := by
      rw [← h.program, ← hI.precision_eq]
      rfl
    rw [hcontext'] at hadd
    exact ⟨taken, (hx.enterChild ht hm hn hpruned hrun hnew
      (hchild.imp (fun hold => ⟨hold.1, hold.2.1⟩) fun hnew => hnew.2.1)).of_ok hadd⟩

include hp in
/-- One turn of a round. -/
theorem Explores.roundTurn {before : Counters} {executed : Array Step} {goesOn : Bool}
    (haccounts : e.Accounts before executed)
    (hturn : Engine.roundTurn progress e = .ok (goesOn, progress') e') : e'.Explores p := by
  rcases of_roundTurn hturn with harrive | ⟨n, e₁, -, harrive, hexpand⟩
  · exact hI.arrive hp h haccounts harrive
  · obtain ⟨tally', h₁, hasked⟩ := h.arrive harrive
    obtain ⟨htop, hsettled⟩ := hasked n rfl
    exact (hI.arrive hp h haccounts harrive).expand h₁ htop hsettled hexpand

end Turns

/-! ## First rounds -/

/-- At the end of a first round it is known which steps have been taken, unless a walk has been hindered. -/
theorem explores_firstRound (hp : ∀ instrs ∈ p.threads, ∀ i ∈ instrs, i.isOrdinary)
    (hvirtual : settings.exploration.virtualExploration = true) (drawnSeed : UInt64)
    {report : RoundReport} (hround : runRound (create p settings drawnSeed) = .ok report e') :
    e'.Explores p := by
  let start : Engine := create p settings drawnSeed
  have hready : start.IsReady p settings := isReady_create
  obtain ⟨_, ⟨-, -, hexplores⟩, -⟩ := runRound_preserves (I := fun progress e =>
    e.IsUnderWay p settings start.search progress ∧
      e.Accounts start.search.exploration.counters start.executed ∧ e.Explores p) hround
    (fun opened hopened => by
      obtain ⟨isNew, x, hadd, rfl⟩ := of_startRound hopened
      refine ⟨hready.isUnderWay hopened, hready.accounts hadd, rfl, hvirtual,
        fun _ => ⟨fun _ => [], ?_⟩⟩
      obtain ⟨hstack, htable⟩ := (Ends.addRoot hready.orderly.sound rfl).of_ok hadd
      exact .start hready.orderly.sound (.singleton _) rfl
        (fun s => DecorationTable.isVisited_clearRound _ s) hstack htable)
    fun progress e goesOn progress' e' ⟨hmoment, haccounts, hexplores⟩ hturn => by
      obtain ⟨tally, htallied, -⟩ := id hmoment
      exact ⟨hmoment.roundTurn hturn, turnsKeep_accounts.roundTurn htallied haccounts hturn,
        hexplores.roundTurn hp htallied haccounts hturn⟩
  exact hexplores

/-- A first round finds only terminal states of the program, with covering on or off. It finds all of them
if it is not cut short and covers no node, or looks below the nodes that cover others by walks that are
unhindered. -/
theorem terminalStates_firstRound_of_covering
    (hp : ∀ instrs ∈ p.threads, ∀ i ∈ instrs, i.isOrdinary) (settings : EngineSettings)
    (drawnSeed : UInt64) {report : RoundReport}
    (hround : runRound (create p settings drawnSeed) = .ok report e) :
    (∀ s ∈ report.terminalStates, s ∈ p.terminalStates) ∧
      (report.truncated = false →
        report.covered = 0 ∨ settings.exploration.virtualExploration = true ∧ e.WalksUnhindered →
        report.terminalStates = p.terminalStates) := by
  have hsectioned : ∀ instrs ∈ p.threads, Sectioned Instr.isOrdinary instrs := fun instrs hinstrs =>
    .of_forall (hp instrs hinstrs)
  have hdisciplined := isDisciplined_of_sectioned (fun _ => Instr.isPlain_of_isOrdinary) hsectioned
  have hspawn := hasSoleSpawners_of_ordinary hsectioned
  obtain ⟨he, hreport⟩ := (isFaithful_create).runRound.of_ok hround
  obtain rfl := he.program
  refine ⟨fun s hs => mem_terminalStates_of_mem he.sound (hreport ▸ hs), fun hwhole => ?_⟩
  rintro (hcovered | ⟨hvirtual, hunhindered⟩)
  · have huncovered : (create e.program settings drawnSeed).withoutCovering.IsUncovered e.program :=
      isUncovered_create rfl
    exact huncovered.terminalStates_runRound hdisciplined hspawn rfl
      (runRound_withoutCovering hround hcovered) hwhole
  · obtain ⟨taken, hx⟩ := (explores_firstRound hp hvirtual drawnSeed hround).exploring hunhindered
    have hready : (create e.program settings drawnSeed).IsReady e.program settings := isReady_create
    have hempty := (hready.runRound_accounts hround).2 hwhole
    rw [hreport]
    exact terminalStates_eq_of_makesDetours he.sound hx hempty
      (ReducedTree.makesDetours_of_isDisciplined _ hspawn hdisciplined)

/-- Four nodes get covered in a first round of `lateReader`. Below one of them a walk leaves out the write
to `y`, and then comes to the read of `x`, which does not depend on that. -/
theorem terminalStates_firstRound_lateReader : ∃ report e,
    runRound (create lateReader { exploration := .ofSeed 11, covering := true } 0) = .ok report e ∧
      report.covered = 4 ∧ report.terminalStates = lateReader.terminalStates := by
  have heval : endedWith (fun report e => !report.truncated && report.covered == 4 &&
      e.search.exploration.counters.virtualCutoffs == 0 && e.tree.unhindered)
      (runRound (create lateReader { exploration := .ofSeed 11, covering := true } 0)) = true := by
    decide +kernel
  obtain ⟨report, e, hround, heval⟩ := exists_of_endedWith heval
  simp only [Bool.and_eq_true, Bool.not_eq_true', beq_iff_eq] at heval
  obtain ⟨⟨⟨hwhole, hcovered⟩, hcutoffs⟩, htest⟩ := heval
  have hp : ∀ instrs ∈ lateReader.threads, ∀ i ∈ instrs, i.isOrdinary := by decide
  have hready := (History.start.round hround).isReady isReady_create
  have hunhindered : e.WalksUnhindered :=
    ⟨hcutoffs, SearchTree.isUnhindered_of_unhindered hready.orderly.sound hready.faithful htest⟩
  exact ⟨report, e, hround, hcovered,
    (terminalStates_firstRound_of_covering hp _ 0 hround).2 hwhole (.inr ⟨rfl, hunhindered⟩)⟩

/-- With covering on, a terminal state of `overwriters` is lost. The second thread writes first, then
the first thread, and the node after these two steps is covered by the one after the same steps in the
other order. -/
theorem terminalStates_overwriters_ne : ∃ report e,
    runRound (create overwriters { covering := true } 0) = .ok report e ∧
      report.truncated = false ∧ report.terminalStates ≠ overwriters.terminalStates := by
  have heval : endedWith (fun report _ => !report.truncated &&
      report.terminalStates.size != overwriters.terminalStates.size)
      (runRound (create overwriters { covering := true } 0)) = true := by decide +kernel
  obtain ⟨report, e, hround, heval⟩ := exists_of_endedWith heval
  simp only [Bool.and_eq_true, Bool.not_eq_true', bne_iff_ne] at heval
  exact ⟨report, e, hround, heval.1, fun h => heval.2 (congrArg Std.ExtTreeSet.size h)⟩

end Engine

end Interleaving
