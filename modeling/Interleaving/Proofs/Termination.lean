import Interleaving.Proofs.Ledger
import Interleaving.Proofs.Reports
import Interleaving.Proofs.Sessions

/-!
# Rounds come to an end

Whatever was done with an engine before, a round ends with a report (`Engine.round_ends`). Each turn of
a round expands a node or covers one. An expansion enters a node, or finds nothing left to offer at the
current one, which is given up then. No node is entered twice, and the nodes entered are told apart by
the runs that lead to them; so there are less than twice as many expansions as the program has runs.
The tree grows by a node with each expansion at most, so only so many nodes can be covered.
-/

namespace Interleaving

variable {p : Program} {settings : EngineSettings} {t : SearchTree ProgramState Step}
  {n m c : NodeId} {a : Step} {entry : SearchTree.Node ProgramState Step}

namespace Engine

/-! ## What a round has come to -/

/-- The nodes that a round has entered, those where it found nothing left to offer, and those that it
has covered. -/
structure Tally where
  pushed : List NodeId
  finished : List NodeId
  covered : List NodeId

/-- An engine between two rounds. -/
structure IsReady (p : Program) (settings : EngineSettings) (e : Engine) : Prop where
  program : e.program = p
  settings : e.settings = settings
  orderly : e.search.IsOrderly p
  faithful : e.tree.Faithful
  bare : e.tree.Bare

/-- A round that has started in `s₀` is under way. Nodes where nothing was left to offer are marked as
expanded, and those that were covered still are. -/
structure Tallied (p : Program) (settings : EngineSettings) (s₀ : Search ProgramState Step Seeded)
    (tally : Tally) (e : Engine) : Prop extends e.IsReady p settings where
  path : Search.Path p s₀ tally.pushed e.search
  ledger : Ledger e.tree tally.pushed e.search.exploration
  nodup_finished : tally.finished.Nodup
  finished : ∀ n ∈ tally.finished, n ∈ tally.pushed ∧ ∃ d, e.tree.node? n = some d ∧ d.expanded
  nodup_covered : tally.covered.Nodup
  covered : ∀ n ∈ tally.covered, ∃ d, e.tree.node? n = some d ∧ d.isCovered

variable {e e' : Engine} {s₀ : Search ProgramState Step Seeded} {tally tally' : Tally}
  {progress : Progress}

namespace IsReady

variable (h : e.IsReady p settings)
include h

theorem context_eq : e.context = p.context e.precision e.tree e.search.settings := by
  rw [context, h.program]

theorem withTree (hchange : e.tree.Change p t) (hfaithful : t.Faithful) (hbare : t.Bare) :
    (e.withTree t).IsReady p settings :=
  ⟨h.program, h.settings, (Search.Move.change hchange).isOrderly h.orderly, hfaithful, hbare⟩

end IsReady

namespace Tallied

variable (h : e.Tallied p settings s₀ tally)
include h

/-- The exploration goes on. -/
theorem withExploration {x : Exploration Step Seeded} {l : List NodeId}
    (htrail : Trail (Exploration.Move p e.tree) e.search.exploration l x)
    (hledger : Ledger e.tree (tally.pushed ++ l) x) :
    (e.withExploration x).Tallied p settings s₀ { tally with pushed := tally.pushed ++ l } := by
  have hpath : Search.Path p e.search l (e.search.withExploration x) := Search.path_explore htrail
  refine ⟨⟨h.program, h.settings, hpath.isOrderly h.orderly, h.faithful, h.bare⟩, h.path.trans hpath,
    hledger, h.nodup_finished, fun n hn => ?_, h.nodup_covered, h.covered⟩
  exact (h.finished n hn).imp_left (List.mem_append_left l)

/-- The tree changes, but no node loses a mark. -/
theorem withTree (hchange : e.tree.Change p t) (hfaithful : t.Faithful) (hbare : t.Bare)
    (hmarks : ∀ n d, e.tree.node? n = some d → ∃ d', t.node? n = some d' ∧ d'.pruned = d.pruned ∧
      (d.expanded → d'.expanded) ∧ (d.isCovered → d'.isCovered)) :
    (e.withTree t).Tallied p settings s₀ tally := by
  have hpath := h.path.tail (.change hchange)
  rw [List.append_nil] at hpath
  refine ⟨h.toIsReady.withTree hchange hfaithful hbare, hpath, h.ledger.retree (fun n hn => ?_) ?_,
    h.nodup_finished, fun n hn => ?_, h.nodup_covered, fun n hn => ?_⟩
  · obtain ⟨d, hd, hpruned⟩ := SearchTree.mem_live_iff.1 hn
    obtain ⟨d', hd', hpruned', -⟩ := hmarks n d hd
    exact SearchTree.mem_live_iff.2 ⟨d', hd', hpruned'.trans hpruned⟩
  · intro m a n hn
    obtain ⟨d, hd, -⟩ := SearchTree.mem_live_iff.1 hn
    exact (hchange.retains.edge_iff hd).1
  · obtain ⟨hpushed, d, hd, hexpanded⟩ := h.finished n hn
    obtain ⟨d', hd', -, hexpanded', -⟩ := hmarks n d hd
    exact ⟨hpushed, d', hd', hexpanded' hexpanded⟩
  · obtain ⟨d, hd, hcovered⟩ := h.covered n hn
    obtain ⟨d', hd', -, -, hcovered'⟩ := hmarks n d hd
    exact ⟨d', hd', hcovered' hcovered⟩

theorem setExpanded (n : NodeId) :
    (e.withTree (e.tree.setExpanded n true)).Tallied p settings s₀ tally := by
  refine h.withTree (.mark n true) h.faithful.setExpanded h.bare.setExpanded fun k d hk => ?_
  rw [SearchTree.setExpanded, SearchTree.node?_modify, hk]
  split
  · exact ⟨_, rfl, rfl, fun _ => rfl, id⟩
  · exact ⟨d, rfl, rfl, id, id⟩

/-- Nothing is left to offer at a node. -/
theorem finish (hn : e.tree.node? n = some entry) (hpushed : n ∈ tally.pushed)
    (hnot : entry.expanded = false) : (e.withTree (e.tree.setExpanded n true)).Tallied p settings s₀
      { tally with finished := n :: tally.finished } := by
  have h' := h.setExpanded n
  refine ⟨h'.toIsReady, h'.path, h'.ledger, ?_, fun k hk => ?_, h'.nodup_covered, h'.covered⟩
  · refine List.nodup_cons.2 ⟨fun hold => ?_, h.nodup_finished⟩
    obtain ⟨-, d, hd, hexpanded⟩ := h.finished n hold
    rw [Option.some.inj (hd.symm.trans hn), hnot] at hexpanded
    cases hexpanded
  · rcases List.mem_cons.1 hk with rfl | hk
    · refine ⟨hpushed, { entry with expanded := true }, ?_, rfl⟩
      show (e.tree.setExpanded k true).node? k = _
      rw [SearchTree.setExpanded, SearchTree.node?_modify, if_pos rfl, hn]
      rfl
    · exact h'.finished k hk

/-- A node is covered that was not. -/
theorem cover (hn : e.tree.node? n = some entry) (hc : e.coveringFor n entry = some c) :
    (e.withTree (e.tree.setCovering n (some c))).Tallied p settings s₀
      { tally with covered := n :: tally.covered } := by
  obtain ⟨huncovered, hleaf, d, hd, hlive, hlt, hstate⟩ := of_coveringFor hc
  have hmarks : ∀ k d, e.tree.node? k = some d → ∃ d',
      (e.tree.setCovering n (some c)).node? k = some d' ∧ d'.pruned = d.pruned ∧
        (d.expanded → d'.expanded) ∧ (d.isCovered → d'.isCovered) := by
    intro k d hk
    rw [SearchTree.setCovering, SearchTree.node?_modify, hk]
    split
    · exact ⟨_, rfl, rfl, id, fun _ => rfl⟩
    · exact ⟨d, rfl, rfl, id, id⟩
  have h' := h.withTree (.cover n hd) (h.faithful.setCovering hn hd hlive hlt hstate)
    (h.bare.setCovering hn hleaf (some c)) hmarks
  refine ⟨h'.toIsReady, h'.path, h'.ledger, h'.nodup_finished, h'.finished, ?_, fun k hk => ?_⟩
  · refine List.nodup_cons.2 ⟨fun hold => ?_, h.nodup_covered⟩
    obtain ⟨d', hd', hcovered⟩ := h.covered n hold
    rw [Option.some.inj (hd'.symm.trans hn), huncovered] at hcovered
    cases hcovered
  · rcases List.mem_cons.1 hk with rfl | hk
    · refine ⟨{ entry with covering := some c }, ?_, rfl⟩
      show (e.tree.setCovering k (some c)).node? k = _
      rw [SearchTree.setCovering, SearchTree.node?_modify, if_pos rfl, hn]
      rfl
    · exact h'.covered k hk

/-- A new child is made. -/
theorem addChild (hn : e.tree.node? n = some entry) (hlive : entry.pruned = false)
    (huncovered : entry.isCovered = false) (hrun : p.CanRun entry.state a)
    (hnew : e.tree.childWithAction n a = none) :
    (e.withTree (e.tree.addChild n a (entry.state.after a)).2).Tallied p settings s₀ tally := by
  refine h.withTree (.grow hn hrun) (h.faithful.addChild h.orderly.sound hn hlive hnew)
    (h.bare.addChild hn huncovered) fun k d hk => ?_
  refine ⟨_, SearchTree.node?_addChild_old hn hk, ?_⟩
  simp [SearchTree.Node.isCovered]

/-- As the next step is asked for, no node is entered, and the stack and the counters stay as they are. -/
theorem nextAction (htop : e.search.exploration.stack.topNode? = some n)
    (hn : e.tree.node? n = some entry) :
    Succeeds (Exploration.nextAction e.context entry.stateId) e.search.exploration fun answer x =>
      (e.withExploration x).Tallied p settings s₀ tally ∧
        x.stack = e.search.exploration.stack ∧ x.counters = e.search.exploration.counters ∧
        (answer = none → (e.search.exploration.table.offerable entry.stateId).isEmpty) ∧
        ∀ a, answer = some a → p.CanRun entry.state a ∧
          (e.search.exploration.table.sleep entry.stateId).hasKey (Action.key a) = false ∧
          (x.table.sleep entry.stateId).hasKey (Action.key a) := by
  rw [h.context_eq]
  refine (h.orderly.orderly.nextAction_moves h.orderly.sound htop hn).imp fun answer x hx => ?_
  obtain ⟨htrail, hstack, hcounters, hvisited, hanswer⟩ := hx
  have hledger := h.ledger.keep h.orderly.sound htrail hvisited fun k hk => hstack ▸ hk
  have h₁ := h.withExploration htrail (by rwa [List.append_nil])
  rw [List.append_nil] at h₁
  exact ⟨h₁, hstack, hcounters, hanswer⟩

/-- A child that has not been entered is entered, by a step that is redundant at the current node. -/
theorem enter (htop : e.search.exploration.stack.topNode? = some n) (hedge : e.tree.Edge n a c)
    (hlive : c ∈ e.tree.live) (hnew : c ∉ tally.pushed)
    (hasleep : (e.search.exploration.table.sleep ⟨n.index⟩).hasKey (Action.key a)) :
    Succeeds (do
      Engine.updateTree (·.setExpanded n true)
      modify fun e => { e with executed := e.executed.push a }
      let _ ← Engine.explore (Exploration.add · c)
      pure progress) e fun progress' e' => progress' = progress ∧ e'.tree.size = e.tree.size ∧
        e'.Tallied p settings s₀ { tally with pushed := tally.pushed ++ [c] } := by
  have h₁ := h.setExpanded n
  have hedge₁ : (e.tree.setExpanded n true).Edge n a c := SearchTree.edge_setExpanded.2 hedge
  have hlive₁ : c ∈ (e.tree.setExpanded n true).live := SearchTree.mem_live_setExpanded.2 hlive
  have hsize : (e.tree.setExpanded n true).size = e.tree.size := SearchTree.size_modify _
  let e₁ : Engine := { e.withTree (e.tree.setExpanded n true) with executed := e.executed.push a }
  have h₁ : e₁.Tallied p settings s₀ tally :=
    ⟨⟨h₁.program, h₁.settings, h₁.orderly, h₁.faithful, h₁.bare⟩, h₁.path, h₁.ledger,
      h₁.nodup_finished, h₁.finished, h₁.nodup_covered, h₁.covered⟩
  refine .bind (.updateTree (.bind (.modify (.bind (.explore_ends ?_)))))
  show Succeeds (Exploration.add e₁.context c) e₁.search.exploration _
  rw [h₁.context_eq]
  refine (h₁.ledger.add_enters h₁.orderly.sound h₁.orderly.orderly htop hedge₁ hlive₁ hnew
    hasleep).imp fun _ x ⟨htrail, _, hledger, _⟩ => ?_
  exact .pure ⟨rfl, hsize, h₁.withExploration htrail hledger⟩

/-- An expansion enters a node, or finds nothing left to offer at the current one. -/
theorem expand (htop : e.search.exploration.stack.topNode? = some n)
    (hsettled : e.search.exploration.IsSettled p e.precision e.tree e.search.settings) :
    Succeeds (Engine.expand n progress) e fun progress' e' =>
      (∃ newNodes sleepBlocked, progress' = { progress with newNodes, sleepBlocked }) ∧
      e'.tree.size ≤ e.tree.size + 1 ∧ ∃ tally', e'.Tallied p settings s₀ tally' ∧
        tally'.covered = tally.covered ∧ tally'.pushed.length + tally'.finished.length =
          tally.pushed.length + tally.finished.length + 1 := by
  have hsound := h.orderly.sound
  have hpushed := h.ledger.of_top htop
  obtain ⟨entry, hn, hlive⟩ := SearchTree.mem_live_iff.1 (h.ledger.live n hpushed)
  obtain ⟨hsubsumed, hoffers, -⟩ := hsettled n entry htop hn
  have hid := (hsound.identity n entry hn).1
  unfold Engine.expand
  refine .bind (.lookUpEntry_of_node? hn (.bind (.explore_ends ?_)))
  refine (h.nextAction htop hn).imp fun answer x ⟨h₁, hstack, _, hnone, hsome⟩ => ?_
  cases answer with
  | none =>
    -- had it been expanded, the settled node would have something to offer
    have hnot : entry.expanded = false := by
      refine Bool.eq_false_iff.2 fun hexpanded => ?_
      rw [hoffers hexpanded] at hnone
      exact Bool.false_ne_true (hnone rfl)
    have h₂ := h₁.finish hn hpushed hnot
    have hsize : (e.tree.setExpanded n true).size ≤ e.tree.size + 1 :=
      Nat.le_succ_of_le (Nat.le_of_eq (SearchTree.size_modify _))
    have hlength : tally.pushed.length + (n :: tally.finished).length =
        tally.pushed.length + tally.finished.length + 1 := rfl
    refine .bind (.updateTree (.bind (.get ?_)))
    split
    · exact .pure ⟨⟨progress.newNodes, progress.sleepBlocked, rfl⟩, hsize, _, h₂, rfl, hlength⟩
    · exact .pure ⟨⟨progress.newNodes, _, rfl⟩, hsize, _, h₂, rfl, hlength⟩
  | some a =>
    obtain ⟨hrun, hawake, hasleep⟩ := hsome a rfl
    rw [hid] at hawake hasleep
    have htop₁ : x.stack.topNode? = some n := hstack ▸ htop
    have hlength : ∀ c, (tally.pushed ++ [c]).length + tally.finished.length =
        tally.pushed.length + tally.finished.length + 1 := by
      intro c
      rw [List.length_append, List.length_singleton]
      omega
    refine .bind (.childFor (fun c hc => ?_) fun hnew => ?_)
    · obtain ⟨hmem, hedge⟩ := hsound.edge_of_childWithAction hn hrun.hasStep hc
      -- the steps to the children entered before are redundant here, and this one was not
      have hfresh : c ∉ tally.pushed := by
        intro hold
        rw [(h.ledger.entered n a c hedge hold).2] at hawake
        cases hawake
      have hlive' := hsound.mem_live_of_child (h.ledger.live n hpushed) hn hmem
      refine (h₁.enter htop₁ hedge hlive' hfresh hasleep).imp fun progress' e' he' => ?_
      obtain ⟨rfl, hsize, h₂⟩ := he'
      exact ⟨⟨_, _, rfl⟩, Nat.le_succ_of_le (Nat.le_of_eq hsize), _, h₂, rfl, hlength c⟩
    · have huncovered : entry.isCovered = false := (Bool.or_eq_false_iff.1 hsubsumed).1
      have h₂ := h₁.addChild hn hlive huncovered hrun hnew
      have hlive' : (⟨e.tree.size⟩ : NodeId) ∈ (e.tree.addChild n a (entry.state.after a)).2.live :=
        (SearchTree.mem_live_addChild hn).2 (.inl rfl)
      have hfresh : (⟨e.tree.size⟩ : NodeId) ∉ tally.pushed := by
        intro hold
        obtain ⟨d, hd, -⟩ := SearchTree.mem_live_iff.1 (h.ledger.live _ hold)
        exact Nat.lt_irrefl _ (SearchTree.index_lt_size hd)
      refine (h₂.enter htop₁ (SearchTree.edge_addChild hn) hlive' hfresh hasleep).imp
        fun progress' e' he' => ?_
      obtain ⟨rfl, hsize, h₃⟩ := he'
      exact ⟨⟨_, _, rfl⟩, Nat.le_of_eq (hsize.trans SearchTree.size_addChild), _, h₃, rfl, hlength _⟩

end Tallied

/-! ## Turns -/

/-- The numbers of a round agree with the nodes on its tally. The tree has grown from `size₀` nodes to
`size`. -/
structure Counts (settings : EngineSettings) (size₀ : Nat) (tally : Tally) (size : Nat)
    (progress : Progress) : Prop where
  covered : progress.covered = tally.covered.length
  expansions : progress.expansions + 1 ≤ tally.pushed.length + tally.finished.length
  grown : size ≤ size₀ + progress.expansions
  bounded : progress.expansions ≤ settings.maxExpansions
  truncated : progress.truncated → settings.maxExpansions ≤ progress.expansions

namespace Tallied

variable (h : e.Tallied p settings s₀ tally)
  (hcounts : Counts settings s₀.tree.size tally e.tree.size progress)
include h hcounts

/-- One turn of a round. If the round goes on, a node has been expanded or covered. -/
theorem roundTurn :
    Succeeds (Engine.roundTurn progress) e fun r e' => ∃ tally', e'.Tallied p settings s₀ tally' ∧
      Counts settings s₀.tree.size tally' e'.tree.size r.2 ∧
      (r.1 = true → r.2.expansions + r.2.covered = progress.expansions + progress.covered + 1) := by
  obtain ⟨hcovered, hexpansions, hgrown, hbounded, htruncated⟩ := hcounts
  have hsound := h.orderly.sound
  unfold Engine.roundTurn
  refine .bind (.explore_ends ?_)
  rw [h.context_eq]
  refine (h.ledger.isEmpty_enters hsound h.orderly.orderly h.orderly.closed h.bare).imp
    fun b x hx => ?_
  obtain ⟨⟨l, htrail, hledger⟩, hempty, hsettled⟩ := hx
  have h₁ := h.withExploration htrail hledger
  have hlength : (tally.pushed ++ l).length = tally.pushed.length + l.length := List.length_append
  split
  · exact .pure ⟨_, h₁, ⟨hcovered, by dsimp only; omega, hgrown, hbounded, htruncated⟩, nofun⟩
  rename_i hnonempty
  refine .bind (.get ?_)
  split
  · rename_i hlimit
    rw [h₁.settings] at hlimit
    exact .pure ⟨_, h₁, ⟨hcovered, by dsimp only; omega, hgrown, hbounded, fun _ => hlimit⟩, nofun⟩
  rename_i hlimit
  rw [h₁.settings] at hlimit
  -- the current node is taken, as nothing is left to do before
  obtain ⟨n, htop⟩ : ∃ n, x.stack.topNode? = some n := by
    cases htop : x.stack.topNode? with
    | none => exact absurd (hempty.2 (SearchStack.topNode?_eq_none_iff.1 htop)) hnonempty
    | some n => exact ⟨n, rfl⟩
  obtain ⟨entry, hn⟩ := h₁.orderly.orderly.stands.of_top htop
  refine .bind (.explore_ends ?_)
  rw [h₁.context_eq]
  refine (Ends.remove_settled (fun _ => h₁.orderly.orderly.stands.of_top) hsettled htop).imp ?_
  rintro _ y ⟨rfl, rfl⟩
  refine .bind (.lookUpEntry_of_node? hn (.bind (.get ?_)))
  split
  · rename_i covering hcovering
    refine .bind (.updateTree (.pure ⟨_, h₁.cover hn hcovering, ⟨?_, ?_, ?_, hbounded, htruncated⟩, ?_⟩))
    · exact congrArg (· + 1) hcovered
    · dsimp only
      omega
    · exact Nat.le_trans (Nat.le_of_eq (SearchTree.size_modify _)) hgrown
    · intro _
      dsimp only
      omega
  · refine .bind ((h₁.expand htop hsettled).imp fun progress' e' he' => .pure ?_)
    obtain ⟨⟨newNodes, sleepBlocked, rfl⟩, hsize, tally', h₂, hsame, hmore⟩ := he'
    have hsize : e'.tree.size ≤ e.tree.size + 1 := hsize
    refine ⟨tally', h₂, ⟨hcovered.trans (congrArg List.length hsame.symm), ?_, ?_, ?_, fun hcut => ?_⟩,
      fun _ => ?_⟩
    · dsimp only at hmore ⊢
      omega
    · dsimp only
      omega
    · dsimp only
      omega
    · exact Nat.le_succ_of_le (htruncated hcut)
    · dsimp only
      omega

/-- A round ends: there are no more turns than nodes to expand or to cover. -/
theorem continueRound {turns : Nat} (hturns : s₀.tree.size + 2 * settings.maxExpansions + 2 ≤
      turns + progress.expansions + progress.covered) :
    Succeeds (Engine.continueRound turns progress) e fun progress' e' => ∃ tally',
      e'.Tallied p settings s₀ tally' ∧
      Counts settings s₀.tree.size tally' e'.tree.size progress' := by
  induction turns generalizing e tally progress with
  | zero =>
    -- the turns that are over would have covered more nodes than the tree has
    have hcovered := SearchTree.length_le_size h.nodup_covered fun n hn =>
      (h.covered n hn).imp fun _ hd => hd.1
    have hsame := hcounts.covered
    have hgrown := hcounts.grown
    have hbounded := hcounts.bounded
    omega
  | succ turns ih =>
    refine .bind ((h.roundTurn hcounts).imp fun r e' he' => ?_)
    obtain ⟨goesOn, progress'⟩ := r
    obtain ⟨tally', h', hcounts', hmore⟩ := he'
    dsimp only at hmore ⊢
    split
    · rename_i hgoesOn
      have hmore := hmore hgoesOn
      exact ih h' hcounts' (by omega)
    · exact .pure ⟨tally', h', hcounts'⟩

end Tallied

/-! ## Rounds -/

/-- Different nodes that have been entered are reached by different runs. -/
theorem Tallied.length_pushed_le (h : e.Tallied p settings s₀ tally) :
    tally.pushed.length ≤ p.runs.length := by
  have hsound := h.orderly.sound
  have hwalk : ∀ n ∈ tally.pushed,
      Walk e.tree.Edge SearchTree.root (e.tree.traceTo n) n := by
    intro n hn
    obtain ⟨d, hd, -⟩ := SearchTree.mem_live_iff.1 (h.ledger.live n hn)
    exact hsound.walk_traceTo hd
  -- a run leads to one live node at most
  have hnodup : (tally.pushed.map e.tree.traceTo).Nodup := by
    refine h.ledger.nodup.map_on fun n hn m hm heq => ?_
    exact h.faithful.eq_of_walk (h.ledger.live n hn) (h.ledger.live m hm) (hwalk n hn)
      (heq ▸ hwalk m hm)
  have hruns : tally.pushed.map e.tree.traceTo ⊆ p.runs := by
    intro w hw
    obtain ⟨n, hn, rfl⟩ := List.mem_map.1 hw
    rw [Program.mem_runs_iff, ← hsound.state_root]
    exact (hsound.run_of_walk (hwalk n hn)).1
  rw [← List.length_map e.tree.traceTo]
  exact (hnodup.subperm hruns).length_le

/-- A round starts with the root. -/
theorem IsReady.startRound (h : e.IsReady p settings) :
    Succeeds Engine.startRound e fun _ e' => e'.tree = e.tree ∧
      e'.Tallied p settings e.search ⟨[SearchTree.root], [], []⟩ := by
  have hsound := h.orderly.sound
  obtain ⟨root, hroot, -⟩ := hsound.root
  unfold Engine.startRound
  refine .bind (.modify (.bind (.explore_ends ?_)))
  show Succeeds (Exploration.add e.context SearchTree.root) e.search.exploration.clear _
  rw [h.context_eq]
  refine (Ends.addRoot_ends hsound rfl hroot).imp fun _ x hx => .pure ⟨rfl, ?_⟩
  obtain ⟨-, hstack, htable, haccount⟩ := hx
  have hstart := Ends.addRoot_moves (t := e.tree) (x := e.search.exploration.clear) rfl hstack htable
    haccount
  have hpath : Search.Path p e.search [SearchTree.root] (e.search.withExploration x) :=
    Search.path_clear.trans
      (Search.path_explore (s := e.search.withExploration e.search.exploration.clear) hstart)
  have hledger : Ledger e.tree [SearchTree.root] x := by
    refine .start (x := e.search.exploration.clear) hsound rfl (fun _ => ?_) hstack fun s => ?_
    · exact DecorationTable.isVisited_clearRound _ _
    · rw [htable, DecorationTable.isVisited_reset, DecorationTable.isVisited_markVisited, eq_comm]
  exact ⟨⟨h.program, h.settings, hpath.isOrderly h.orderly, h.faithful, h.bare⟩, hpath, hledger,
    List.nodup_nil, nofun, List.nodup_nil, nofun⟩

/-- A round ends with a report. -/
theorem IsReady.runRound (h : e.IsReady p settings) :
    Succeeds Engine.runRound e fun report e' => ∃ tally progress,
      e'.Tallied p settings e.search tally ∧
      Counts settings e.tree.size tally e'.tree.size progress ∧ report = e'.report progress := by
  unfold Engine.runRound
  refine .bind (h.startRound.imp fun _ e₁ ⟨htree, h₁⟩ => .bind (.get ?_))
  have hcounts : Counts settings e.search.tree.size ⟨[SearchTree.root], [], []⟩ e₁.tree.size {} :=
    ⟨rfl, Nat.le_refl _, Nat.le_of_eq (congrArg SearchTree.size htree), Nat.zero_le _, nofun⟩
  refine .bind ((h₁.continueRound hcounts ?_).imp fun progress e₂ ⟨tally, h₂, hcounts₂⟩ => ?_)
  · rw [turnLimit, htree, h₁.settings]
    exact Nat.le_refl _
  · exact .bind (.get (.pure ⟨tally, progress, h₂, hcounts₂, rfl⟩))

theorem isReady_create {drawnSeed : UInt64} : (create p settings drawnSeed).IsReady p settings :=
  ⟨rfl, rfl, Search.isOrderly_ofChoices .., .singleton _, .singleton _⟩

theorem History.isReady {e₀ : Engine} {k : Nat} (h : History e₀ k e) (h₀ : e₀.IsReady p settings) :
    e.IsReady p settings := by
  induction h with
  | start => exact h₀
  | round _ hround ih =>
    obtain ⟨tally, progress, h', -⟩ := ih.runRound.of_ok hround
    exact h'.toIsReady
  | halt _ hround ih => exact (ih.runRound.of_error hround).elim
  | setPrecision _ ih => exact ⟨ih.program, ih.settings, ih.orderly, ih.faithful, ih.bare⟩
  | prune _ _ ih =>
    exact ih.withTree (.prune _) (ih.faithful.prune ih.orderly.sound) (ih.bare.prune _)

/-- A round ends with a report, after any history of rounds, of changes of the variables tracked, and
of prunings. It puts no node twice on the stack to be explored; the nodes that it does are those marked
as visited at the end. It has less than twice as many expansions as the program has runs, so it is not
cut short if twice as many are allowed. -/
theorem round_ends (p : Program) (settings : EngineSettings) (drawnSeed : UInt64) {k : Nat}
    (h : History (create p settings drawnSeed) k e) :
    ∃ report e' pushed, runRound e = .ok report e' ∧ Search.Path p e.search pushed e'.search ∧
      e'.search.exploration.counters.pushes = e.search.exploration.counters.pushes + pushed.length ∧
      pushed.Nodup ∧
      (∀ n : NodeId, e'.search.exploration.table.isVisited ⟨n.index⟩ ↔ n ∈ pushed) ∧
      report.expansions ≤ 2 * p.runs.length - 1 ∧
      (2 * p.runs.length ≤ settings.maxExpansions → report.truncated = false) := by
  obtain ⟨report, e', hround, tally, progress, htallied, hcounts, rfl⟩ :=
    (h.isReady isReady_create).runRound.exists_ok
  have hfinished : tally.finished.length ≤ tally.pushed.length :=
    (htallied.nodup_finished.subperm fun n hn => (htallied.finished n hn).1).length_le
  have hexpansions := hcounts.expansions
  have hruns := htallied.length_pushed_le
  refine ⟨_, e', tally.pushed, hround, htallied.path, htallied.path.pushes, htallied.ledger.nodup,
    htallied.ledger.visited, ?_, fun hroom => ?_⟩
  · show progress.expansions ≤ _
    omega
  · refine Bool.eq_false_iff.2 fun htruncated => ?_
    have hlimit := hcounts.truncated htruncated
    omega

/-- With covering on, a second round in which nothing is tracked ends too, after a node was pruned. The
program has 14 runs, and no round is allowed more than 28 expansions. -/
theorem round_ends_overwriters : ∃ e report e' pushed,
    History (create overwriters { covering := true, maxExpansions := 28 } 0) 1 e ∧
      runRound e = .ok report e' ∧ Search.Path overwriters e.search pushed e'.search ∧
      pushed.Nodup ∧ overwriters.runs.length = 14 ∧ report.expansions ≤ 27 ∧
      report.truncated = false := by
  have heval : endedWith (fun _ e => e.tree.ids.contains ⟨4⟩)
      (runRound (create overwriters { covering := true, maxExpansions := 28 } 0)) = true := by
    decide +kernel
  obtain ⟨first, e, hround, hmem⟩ := exists_of_endedWith heval
  have hhistory : History (create overwriters { covering := true, maxExpansions := 28 } 0) 1
      ((e.prune ⟨4⟩).setPrecision (some ∅)) :=
    .setPrecision (.prune (.round .start hround) (List.contains_iff_mem.1 hmem))
  have hruns : overwriters.runs.length = 14 := by decide +kernel
  obtain ⟨report, e', pushed, hround', hpath, -, hnodup, -, hexpansions, htruncated⟩ :=
    round_ends overwriters _ 0 hhistory
  rw [hruns] at hexpansions htruncated
  exact ⟨_, report, e', pushed, hhistory, hround', hpath, hnodup, hruns, hexpansions,
    htruncated (Nat.le_refl 28)⟩

end Engine

end Interleaving
