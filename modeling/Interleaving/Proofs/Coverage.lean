import Interleaving.Proofs.Exploring
import Interleaving.Proofs.Rounds

/-!
# Coverage

A round that ends with an empty stack has visited a reduced tree. If that makes detours, every complete
run of the program is a reordering of one in the tree, and the terminal states in the tree are those of
the program (`Engine.InRound.terminalStates_eq`). Here no node is covered, and conflicts on all variables
count.

If threads take a mutex only while they hold nothing, the tree makes detours. Threads with nested sections
may be stuck where a path ends, and then terminal states can be missing; so they can where two threads
spawn the same one (`Engine.terminalStates_nestedSections_ne`).
-/

namespace Interleaving

namespace Engine

/-- No node of the tree is covered and none is going to be. -/
structure IsUncovered (p : Program) (e : Engine) : Prop where
  program : e.program = p
  covering : e.settings.covering = false
  sound : e.tree.Sound p
  uncovered : e.tree.Uncovered

/-- A round without covered nodes is under way. -/
structure InRound (p : Program) (precision : Precision) (e : Engine) : Prop
    extends e.IsUncovered p where
  precision_eq : e.precision = precision
  exploring : ∃ taken, Exploring p precision e.tree taken none e.search.exploration

end Engine

variable {p : Program} {precision : Precision} {e : Engine} {n c : NodeId} {a : Step}
  {progress : Engine.Progress}

/-- The child of the current node by the pending step is entered after that node has been marked. It
stands in the tree, or is added to it. -/
theorem Exploring.enterChild {t t' : SearchTree ProgramState Step} {settings : Settings}
    {x : Exploration Step Seeded} {taken : NodeId → List Step}
    {entry : SearchTree.Node ProgramState Step} (h : Exploring p precision t taken (some a) x)
    (ht : t.Sound p) (htop : x.stack.topNode? = some n) (hn : t.node? n = some entry)
    (hpruned : entry.pruned = false) (hrun : p.CanRun entry.state a)
    (hnew : ∀ c, x.Visits c → ¬t.Edge n a c)
    (hchild : t.childWithAction n a = some c ∧ t' = t ∨
      (c, t') = t.addChild n a (entry.state.after a)) :
    Yields (Exploration.add (p.context precision (t'.setExpanded n true) settings) c) x fun _ y =>
      Exploring p precision (t'.setExpanded n true) taken none y := by
  obtain ⟨ht', hextends, hcovers, hedge, hlive, hc⟩ : t'.Sound p ∧ t.Extends t' ∧
      (∀ d k, t'.Covers d k → t.Covers d k) ∧ t'.Edge n a c ∧
      (∃ d, t'.node? c = some d ∧ d.pruned = false) ∧ ¬x.Visits c := by
    rcases hchild with ⟨hc, rfl⟩ | heq
    · -- the child is there already, but this round has not been to it
      obtain ⟨hmem, hedge⟩ := ht.edge_of_childWithAction hn hrun.hasStep hc
      exact ⟨ht, .refl _, fun _ _ h => h, hedge, ht.live n entry hn hpruned c hmem,
        fun hvisit => hnew c hvisit hedge⟩
    · obtain ⟨rfl, rfl⟩ := Prod.mk.inj heq
      refine ⟨ht.addChild hn hrun, SearchTree.extends_addChild hn, fun _ _ h => h.of_addChild hn,
        SearchTree.edge_addChild hn, ⟨_, SearchTree.node?_addChild_new hn, rfl⟩, fun hvisit => ?_⟩
      -- only nodes that were in the tree have been visited
      obtain ⟨d, hd, -⟩ := h.node _ hvisit
      exact absurd (SearchTree.index_lt_size hd) (Nat.lt_irrefl _)
  obtain ⟨d, hd, hpruned⟩ := hlive
  have hexpanded : t'.Extends (t'.setExpanded n true) := SearchTree.extends_setExpanded
  have hx := h.extend (hextends.trans hexpanded) fun c k hck => hcovers c k hck.of_setExpanded
  refine (Ends.add_exploring ht'.setExpanded hx htop ((hexpanded.edge_iff hd).2 hedge) hc
    fun d' hd' => ?_).imp fun _ y hy => hy.1
  obtain ⟨cs, b, hd''⟩ := hexpanded c d hd
  rw [← Option.some.inj (hd''.symm.trans hd')]
  exact hpruned

namespace Engine

theorem IsUncovered.withExploration (h : e.IsUncovered p) (x : Exploration Step Seeded) :
    (e.withExploration x).IsUncovered p := ⟨h.program, h.covering, h.sound, h.uncovered⟩

theorem InRound.context_eq (h : e.InRound p precision) :
    e.context = p.context precision e.tree e.search.settings := by
  rw [context, h.program, h.precision_eq]

theorem InRound.withExploration (h : e.InRound p precision) {x : Exploration Step Seeded}
    (hx : ∃ taken, Exploring p precision e.tree taken none x) :
    (e.withExploration x).InRound p precision :=
  ⟨h.toIsUncovered.withExploration x, h.precision_eq, hx⟩

/-- The child by the step taken last is added. -/
theorem IsUncovered.addNext {t : SearchTree ProgramState Step} {x : Exploration Step Seeded}
    {taken : NodeId → List Step} (h : e.IsUncovered p) (hprecision : e.precision = precision)
    (ht : t.Sound p) (hu : t.Uncovered)
    (hadd : Yields (Exploration.add (p.context precision (t.setExpanded n true) e.search.settings) c) x
      fun _ y => Exploring p precision (t.setExpanded n true) taken none y) :
    Ends (do
      Engine.updateTree (·.setExpanded n true)
      modify fun e => { e with executed := e.executed.push a }
      let _ ← Engine.explore (Exploration.add · c)
      pure progress) ((e.withExploration x).withTree t) (fun _ e' => e'.InRound p precision)
      (IsUncovered p) := by
  obtain rfl := h.program
  obtain rfl := hprecision
  have ht' : (t.setExpanded n true).Sound e.program := ht.setExpanded
  have hu' : (t.setExpanded n true).Uncovered := hu.modify fun _ h => h
  refine .bind (.updateTree (.bind (.modify (.bind (.explore ?_ fun y => ?_)))))
  · exact hadd.imp fun _ y hy => .pure ⟨⟨rfl, h.covering, ht', hu'⟩, rfl, taken, hy⟩
  · exact ⟨rfl, h.covering, ht', hu'⟩

/-- The step offered at the current node is performed. -/
theorem InRound.expand (h : e.InRound p precision) :
    Ends (Engine.expand n progress) e (fun _ e' => e'.InRound p precision)
      (IsUncovered p) := by
  unfold Engine.expand
  refine .bind (.lookUpEntry (fun entry hn => ?_) h.toIsUncovered)
  refine .bind (.explore ?_ fun x => h.toIsUncovered.withExploration x)
  rw [h.context_eq]
  refine (Ends.nextAction_exploring h.sound (fun _ _ _ => h.uncovered.not_covers) h.exploring).imp
    fun answer x hx => ?_
  cases answer with
  | none =>
    obtain ⟨taken, hx⟩ := hx
    have hmarked : (e.tree.setExpanded n true).Uncovered := h.uncovered.modify fun _ h => h
    have hinRound : ((e.withExploration x).withTree (e.tree.setExpanded n true)).InRound p precision :=
      ⟨⟨h.program, h.covering, h.sound.setExpanded, hmarked⟩, h.precision_eq, taken,
        hx.extend SearchTree.extends_setExpanded fun c n hc => absurd hc hmarked.not_covers⟩
    refine .bind (.updateTree (.bind (.get ?_)))
    split <;> exact .pure hinRound
  | some a =>
    obtain ⟨taken, m, entry', hx, htop, hm, hid, hpruned, hrun, hnew⟩ := hx
    obtain ⟨rfl, rfl⟩ := h.sound.eq_of_stateId_eq hm hn hid
    refine .bind (.childFor (fun c hc => ?_) fun _ => ?_)
    · exact h.toIsUncovered.addNext h.precision_eq h.sound h.uncovered
        (hx.enterChild h.sound htop hn hpruned hrun hnew (.inl ⟨hc, rfl⟩))
    · exact h.toIsUncovered.addNext h.precision_eq (h.sound.addChild hn hrun) (h.uncovered.addChild hn)
        (hx.enterChild h.sound htop hn hpruned hrun hnew (.inr rfl))

/-- One turn of a round. -/
theorem InRound.roundTurn (h : e.InRound p precision) :
    Ends (Engine.roundTurn progress) e (fun r e' => e'.InRound p precision ∧
      (r.1 = false → r.2.truncated = false → e'.search.exploration.stack.size = 0))
      (IsUncovered p) := by
  unfold Engine.roundTurn
  refine .bind (.explore ?_ fun x => h.toIsUncovered.withExploration x)
  rw [h.context_eq]
  refine (Ends.isEmpty_exploring h.sound h.uncovered h.exploring).imp fun b x hx => ?_
  have h₁ := h.withExploration hx.1
  split
  · rename_i hb
    exact .pure ⟨h₁, fun _ _ => hx.2 hb⟩
  refine .bind (.get ?_)
  split
  · exact .pure ⟨h₁, fun _ htruncated => by cases htruncated⟩
  refine .bind (.explore ?_ fun x => h₁.toIsUncovered.withExploration x)
  rw [h₁.context_eq]
  refine (Ends.remove ((Ends.isEmpty_exploring h₁.sound h₁.uncovered h₁.exploring).imp
    fun _ _ hx => hx.1)).imp fun n x₂ hx₂ => ?_
  have h₂ := h₁.withExploration hx₂.1
  refine .bind (.lookUpEntry (fun entry hn => .bind (.get ?_)) h₂.toIsUncovered)
  have hnone : ((e.withExploration x).withExploration x₂).coveringFor n entry = none := by
    simp [Engine.coveringFor, h₂.covering]
  rw [hnone]
  exact .bind (h₂.expand.imp fun _ e' he' => .pure ⟨he', fun hfalse => by cases hfalse⟩)

theorem InRound.continueRound {turns : Nat} (h : e.InRound p precision) :
    Ends (Engine.continueRound turns progress) e (fun r e' => e'.InRound p precision ∧
      (r.truncated = false → e'.search.exploration.stack.size = 0)) (IsUncovered p) :=
  .continueRound (fun _ h => h.toIsUncovered) (fun _ _ h => h.roundTurn) h

theorem IsUncovered.startRound (h : e.IsUncovered p) :
    Ends Engine.startRound e (fun _ e' => e'.InRound p e.precision) (IsUncovered p) := by
  obtain rfl := h.program
  unfold Engine.startRound
  refine .bind (.modify (.bind (.explore ?_ fun x => ?_)))
  · show Yields (Exploration.add (e.program.context e.precision e.tree _) _) _ _
    refine (Ends.addRoot h.sound rfl).imp fun _ x hx => .pure ?_
    refine ⟨⟨rfl, h.covering, h.sound, h.uncovered⟩, rfl, fun _ => [], ?_⟩
    exact .start h.sound h.uncovered (x := e.search.exploration.clear) rfl
      (fun s => DecorationTable.isVisited_clearRound _ s) hx.1 hx.2
  · exact ⟨rfl, h.covering, h.sound, h.uncovered⟩

/-- A round keeps the tree without covered nodes; unless it is cut short, it ends with an empty
stack. -/
theorem IsUncovered.runRound (h : e.IsUncovered p) :
    Ends Engine.runRound e (fun report e' => e'.InRound p e.precision ∧
      report.terminalStates = e'.terminalStates ∧
      (report.truncated = false → e'.search.exploration.stack.size = 0)) (IsUncovered p) := by
  unfold Engine.runRound
  refine .bind (h.startRound.imp fun _ e₁ h₁ => .bind (.get ?_))
  refine .bind (h₁.continueRound.imp fun progress e₂ h₂ => .bind (.get (.pure ?_)))
  exact ⟨h₂.1, rfl, h₂.2⟩

end Engine

/-! ## Terminal states -/

namespace SearchTree

/-- The node at which the exploration goes on below a node: the one that covers it, or itself. -/
def answering (t : SearchTree ProgramState Step) (n : NodeId) : NodeId :=
  ((t.node? n).bind (·.covering)).getD n

variable {t : SearchTree ProgramState Step}

theorem Covers.answering_eq (h : t.Covers c n) : t.answering n = c := by
  obtain ⟨e, he, hcovering⟩ := h
  rw [answering, he, Option.bind_some, hcovering]
  rfl

theorem covers_answering_or : t.Covers (t.answering n) n ∨
    t.answering n = n ∧ ∀ c, ¬t.Covers c n := by
  by_cases hcovers : ∃ c, t.Covers c n
  · obtain ⟨c, hc⟩ := hcovers
    exact .inl (hc.answering_eq ▸ hc)
  · refine .inr ⟨?_, not_exists.1 hcovers⟩
    cases hn : t.node? n with
    | none => rw [answering, hn]; rfl
    | some e =>
      cases hcovering : e.covering with
      | none => rw [answering, hn, Option.bind_some, hcovering]; rfl
      | some c => exact absurd ⟨c, e, hn, hcovering⟩ hcovers

theorem Uncovered.answering_eq (h : t.Uncovered) : t.answering n = n :=
  (covers_answering_or.resolve_left h.not_covers).1

end SearchTree

namespace Exploring

variable {t : SearchTree ProgramState Step} {x : Exploration Step Seeded}
  {taken : NodeId → List Step} (h : Exploring p precision t taken none x)
include h

/-- A visited node is answered for by a visited one with the same state, which is not covered. -/
theorem answering (hn : x.Visits n) : x.Visits (t.answering n) ∧
    t.state (t.answering n) = t.state n ∧ (∀ c, ¬t.Covers c (t.answering n)) ∧
    ∀ b, x.PassesOver taken (t.answering n) b → x.PassesOver taken n b := by
  rcases SearchTree.covers_answering_or (t := t) (n := n) with hcovers | ⟨heq, hnot⟩
  · have hanswers := h.covered _ _ hcovers
    exact ⟨hanswers.answers, hanswers.state_eq, hanswers.uncovered, hanswers.passesOver⟩
  · rw [heq]
    exact ⟨hn, rfl, hnot, fun _ hb => hb⟩

variable (hempty : x.stack.size = 0)
include hempty

omit h in
theorem not_holds : ¬x.stack.Holds n := by
  rintro ⟨i, f, hf, -⟩
  have := SearchStack.frame?_lt hf
  omega

omit h in
/-- Once the stack is empty, what is due at a node has been taken. -/
theorem mem_taken (hdue : x.Due taken n a) : a ∈ taken n :=
  hdue.resolve_right fun hstill => not_holds hempty hstill.1

/-- Once the stack is empty, a step leads on to the children of the node that answers for its node. -/
theorem leadsOn_iff (hc : x.Visits c) : t.LeadsOn x.stack n a c ↔ t.Edge (t.answering n) a c := by
  constructor
  · intro hleads
    cases hleads with
    | edge hedge =>
      rcases SearchTree.covers_answering_or (t := t) (n := n) with hcovers | ⟨heq, -⟩
      · exact absurd hcovers (h.not_covers_of_edge hedge hc)
      · rwa [heq]
    | past hcovers _ hedge => rwa [hcovers.answering_eq]
  · intro hedge
    rcases SearchTree.covers_answering_or (t := t) (n := n) with hcovers | ⟨heq, -⟩
    · exact .past hcovers (not_holds hempty) hedge
    · exact .edge (heq ▸ hedge)

end Exploring

namespace Exploring

variable {t : SearchTree ProgramState Step} {x : Exploration Step Seeded}
  {taken : NodeId → List Step}

/-- The visited nodes, once the stack is empty, are a reduced tree. -/
def reducedTree (ht : t.Sound p) (h : Exploring p none t taken none x)
    (hempty : x.stack.size = 0) : ReducedTree p { n // x.Visits n } where
  state n := t.state n
  edge n a c := t.LeadsOn x.stack n a c
  asleep n a := x.PassesOver taken (t.answering n) a
  taken n := taken (t.answering n)
  coherent n := by
    obtain ⟨e, he, -⟩ := h.node n n.2
    obtain ⟨w, hw, hstate⟩ := ht.exists_run he
    rw [SearchTree.state_eq he, hstate]
    exact Program.coherent_initialState.afterAll hw
  canRun n a c hleads := by
    rw [← (h.answering n.2).2.1]
    exact ht.canRun ((h.leadsOn_iff hempty c.2).1 hleads)
  state_eq n a c hleads := by
    rw [← (h.answering n.2).2.1]
    exact ht.state_edge ((h.leadsOn_iff hempty c.2).1 hleads)
  mem_taken n a c hleads := (h.edge _ a c ((h.leadsOn_iff hempty c.2).1 hleads) c.2).2
  exists_edge n a ha := by
    obtain ⟨c, hc, hedge⟩ := (h.child _ a ha).resolve_right fun hnone => nomatch hnone.1
    exact ⟨⟨c, hc⟩, (h.leadsOn_iff hempty hc).2 hedge⟩
  exists_taken n a hrun hawake := by
    obtain ⟨hvisit, hstate, hnot, -⟩ := h.answering n.2
    obtain ⟨b, hb⟩ := h.awake _ hvisit hnot a (hstate ▸ hrun) hawake
    exact List.ne_nil_of_mem (mem_taken hempty hb)
  awake n a ha hpassed := hpassed.2 ha
  inherited n l₁ a l₂ c b hsplit hleads hb :=
    (h.inherited _ l₁ a l₂ c b hsplit ((h.leadsOn_iff hempty c.2).1 hleads) c.2).1
      ((h.answering c.2).2.2.2 b hb)
  reversed n q y e m hwalk hrace hstart := by
    obtain ⟨-, hstate, -⟩ := h.answering n.2
    cases hwalk with
    | @cons _ k _ _ _ hleads hwalk =>
      have hedge := (h.leadsOn_iff hempty k.2).1 hleads
      rw [← hstate] at hrace hstart
      have hwalk := hwalk.map (E := t.LeadsOn x.stack) (f := Subtype.val) fun _ _ _ hleads => hleads
      obtain ⟨f, hrun, hawake, hf⟩ := hstart
      obtain ⟨r, hr, hstarts⟩ :=
        h.reversed _ q k y e m hedge hwalk m.2 hrace ⟨f, hrun, hawake, hf⟩
      exact ⟨r, mem_taken hempty hr, hstarts⟩

/-- If no node is covered, what is redundant stays so, as long as no step depends on it. -/
theorem keepsAsleep_reducedTree (ht : t.Sound p) (huncovered : t.Uncovered)
    (h : Exploring p none t taken none x) (hempty : x.stack.size = 0) :
    (h.reducedTree ht hempty).KeepsAsleep := by
  rintro ⟨n, hn⟩ a ⟨c, hc⟩ b hleads hasleep hba
  have hedge : t.Edge n a c := SearchTree.LeadsOn.edge_of_uncovered hleads huncovered
  have hasleep : x.PassesOver taken n b := by
    rw [← huncovered.answering_eq (n := n)]
    exact hasleep
  obtain ⟨l₁, l₂, hsplit⟩ := List.append_of_mem (h.edge n a c hedge hc).2
  have hpassed := (h.inherited n l₁ a l₂ c b hsplit hedge hc).2 ⟨hba, .inl hasleep⟩
  show x.PassesOver taken (t.answering c) b
  rwa [huncovered.answering_eq]

end Exploring

namespace Engine

theorem mem_terminalStates_iff {s : ProgramState} : s ∈ e.terminalStates ↔
    (∃ n ∈ e.tree.leaves, ∃ entry, e.tree.node? n = some entry ∧ entry.state = s) ∧
      e.program.isTerminal s := by
  rw [terminalStates, Std.ExtTreeSet.mem_ofList, List.contains_iff_mem, List.mem_filter]
  refine and_congr_left fun _ => ?_
  simp only [List.mem_filterMap, Option.map_eq_some_iff]

/-- A terminal state in the tree is one of the program. -/
theorem mem_terminalStates_of_mem (ht : e.tree.Sound e.program) {s : ProgramState}
    (hs : s ∈ e.terminalStates) : s ∈ e.program.terminalStates := by
  obtain ⟨⟨n, -, entry, hn, rfl⟩, hterminal⟩ := mem_terminalStates_iff.1 hs
  obtain ⟨w, hw, hstate⟩ := ht.exists_run hn
  rw [hstate] at hterminal
  exact Program.mem_terminalStates_iff.2 ⟨w, ⟨hw, hterminal⟩, hstate.symm⟩

/-- The states in which the paths of the last round end: those of the nodes visited at which nothing was
taken. -/
def pathEnds (e : Engine) : List ProgramState :=
  (e.tree.ids.filter fun n =>
    e.search.exploration.table.isVisited ⟨n.index⟩ &&
      (e.search.exploration.table.get ⟨n.index⟩).explored.isEmpty).map e.tree.state

theorem mem_pathEnds {taken : NodeId → List Step}
    (h : Exploring p precision e.tree taken none e.search.exploration)
    (hn : e.search.exploration.Visits n) (htaken : taken n = []) : e.tree.state n ∈ e.pathEnds := by
  obtain ⟨d, hd, -⟩ := h.node n hn
  refine List.mem_map_of_mem (List.mem_filter.2 ⟨SearchTree.mem_ids_iff.2 ⟨d, hd⟩, ?_⟩)
  rw [Bool.and_eq_true]
  refine ⟨hn, List.isEmpty_iff.2 (List.eq_nil_iff_forall_not_mem.2 fun a ha => ?_)⟩
  have hmem := h.explored n hn a ha
  rw [htaken] at hmem
  cases hmem

/-- After a round that has run to its end, with all conflicts counted, the terminal states in the
tree are those of the program, if the visited nodes make detours. -/
theorem terminalStates_eq_of_makesDetours {taken : NodeId → List Step}
    (ht : e.tree.Sound e.program) (h : Exploring e.program none e.tree taken none e.search.exploration)
    (hempty : e.search.exploration.stack.size = 0) (hdetours : (h.reducedTree ht hempty).MakesDetours) :
    e.terminalStates = e.program.terminalStates := by
  refine Std.ExtTreeSet.ext_mem fun s => ⟨mem_terminalStates_of_mem ht, fun hs => ?_⟩
  obtain ⟨w, hw, rfl⟩ := Program.mem_terminalStates_iff.1 hs
  let T := h.reducedTree ht hempty
  let root : { n // e.search.exploration.Visits n } := ⟨SearchTree.root, h.started⟩
  have hroot : T.state root = e.program.initialState := ht.state_root
  have hawake : T.IsAwake root w := by
    intro a ha
    exact absurd ((h.answering h.started).2.2.2 a ha) (h.root a)
  obtain ⟨w', m, hr, hwalk⟩ := T.exists_walk hdetours (hroot ▸ hw) hawake
  -- the reordered run ends at the same state
  obtain ⟨hvisit, hsame, hnot, -⟩ := h.answering m.2
  obtain ⟨entry, hentry, hpruned⟩ := h.node _ hvisit
  have hstate : entry.state = e.program.initialState.afterAll w := by
    have hwalk' := (hwalk.isRun T.canRun T.state_eq).2
    rw [hroot, (hw.isRun.reorder hr).2] at hwalk'
    rw [← SearchTree.state_eq hentry, hsame, ← hwalk']
    rfl
  refine mem_terminalStates_iff.2 ⟨⟨_, ?_, entry, hentry, hstate⟩, hw.terminal⟩
  -- and nothing can run there, so the node is a leaf
  have hchildren : entry.children = [] := by
    refine List.eq_nil_iff_forall_not_mem.2 fun c hc => ?_
    obtain ⟨a, hedge⟩ := ht.exists_edge_of_child hentry hc
    have hrun := ht.canRun hedge
    rw [SearchTree.state_eq hentry, hstate] at hrun
    exact Program.isTerminal_iff.1 hw.terminal a hrun
  refine SearchTree.mem_leaves_iff.2 ⟨entry, hentry, hpruned, hchildren, ?_⟩
  exact Option.eq_none_iff_forall_ne_some.2 fun c hc => hnot c ⟨entry, hentry, hc⟩

/-- So it is if the program is disciplined, or every thread could release where a path ended. -/
theorem InRound.terminalStates_eq (hspawn : p.HasSoleSpawners) (h : e.InRound p none)
    (hempty : e.search.exploration.stack.size = 0)
    (hends : p.IsDisciplined ∨ p.RespawnsFree ∧ ∀ s ∈ e.pathEnds, p.IsReleasable s) :
    e.terminalStates = p.terminalStates := by
  obtain rfl := h.program
  obtain ⟨taken, hx⟩ := h.exploring
  refine terminalStates_eq_of_makesDetours h.sound hx hempty ?_
  rcases hends with hp | ⟨hrespawns, hends⟩
  · exact ReducedTree.makesDetours_of_isDisciplined _ hspawn hp
  · refine ReducedTree.makesDetours_of_ends _ hspawn hrespawns
      (hx.keepsAsleep_reducedTree h.sound h.uncovered hempty) fun m hm q => ?_
    obtain ⟨hvisit, hsame, -⟩ := hx.answering m.2
    have hreleasable := hends _ (mem_pathEnds hx hvisit hm)
    rw [hsame] at hreleasable
    exact hreleasable.canRelease q

/-- A round with all conflicts counted that is not cut short finds all terminal states, if the program is
disciplined or every thread could release where a path ended. -/
theorem IsUncovered.terminalStates_runRound_of_pathEnds (hspawn : p.HasSoleSpawners)
    (h : e.IsUncovered p) (hprecision : e.precision = none) {report : RoundReport} {e' : Engine}
    (hround : Engine.runRound e = .ok report e') (hwhole : report.truncated = false)
    (hends : p.IsDisciplined ∨ p.RespawnsFree ∧ ∀ s ∈ e'.pathEnds, p.IsReleasable s) :
    report.terminalStates = p.terminalStates := by
  obtain ⟨he', hreport, hempty⟩ := h.runRound.of_ok hround
  rw [hprecision] at he'
  rw [hreport]
  exact he'.terminalStates_eq hspawn (hempty hwhole) hends

theorem IsUncovered.terminalStates_runRound (hp : p.IsDisciplined) (hspawn : p.HasSoleSpawners)
    (h : e.IsUncovered p) (hprecision : e.precision = none) {report : RoundReport} {e' : Engine}
    (hround : Engine.runRound e = .ok report e') (hwhole : report.truncated = false) :
    report.terminalStates = p.terminalStates :=
  h.terminalStates_runRound_of_pathEnds hspawn hprecision hround hwhole (.inl hp)

theorem isUncovered_create {settings : EngineSettings} {drawnSeed : UInt64}
    (hcovering : settings.covering = false) : (create p settings drawnSeed).IsUncovered p :=
  ⟨rfl, hcovering, SearchTree.sound_singleton p, .singleton _⟩

/-- Threads of sections and blocks give back what they take. -/
theorem isDisciplined_of_sectioned {plain : Instr → Bool} (hplain : ∀ i, plain i → i.isPlain)
    (hp : ∀ instrs ∈ p.threads, Sectioned plain instrs) : p.IsDisciplined := fun instrs hinstrs =>
  (hp instrs hinstrs).disciplined hplain

/-- Without spawns, no thread has two spawners. -/
theorem hasSoleSpawners_of_ordinary
    (hp : ∀ instrs ∈ p.threads, Sectioned Instr.isOrdinary instrs) : p.HasSoleSpawners := by
  intro a ha r hr
  obtain ⟨instrs, hinstrs, hk⟩ := Program.instrAt_eq_some_iff.1 ha
  rw [Instr.mem_spawned_iff.1 hr] at hk
  have hordinary := (hp instrs (List.mem_of_getElem? hinstrs)).plain_of_mem
    (List.mem_of_getElem? hk) rfl
  cases hordinary

/-! ## First rounds -/

/-- The first round of an engine finds all terminal states, unless it is cut short: for threads of
reads, writes and local steps, sections of one mutex each, and atomic blocks, whatever the seed and
the switches, as long as covering is off. -/
theorem terminalStates_firstRound (hp : ∀ instrs ∈ p.threads, Sectioned Instr.isOrdinary instrs)
    {settings : EngineSettings} (hcovering : settings.covering = false) (drawnSeed : UInt64)
    {report : RoundReport} {e : Engine}
    (hround : runRound (create p settings drawnSeed) = .ok report e)
    (hwhole : report.truncated = false) : report.terminalStates = p.terminalStates :=
  (isUncovered_create hcovering).terminalStates_runRound
    (isDisciplined_of_sectioned (fun _ => Instr.isPlain_of_isOrdinary) hp)
    (hasSoleSpawners_of_ordinary hp) rfl hround hwhole

/-- One thread reads what the other writes; both use the same mutex. -/
def guardedPair : Program :=
  (Program.empty.thread [.lock "m", .read "x", .unlock "m"]).thread
    [.lock "m", .write "x" 1, .unlock "m"]

theorem sectioned_guardedPair : ∀ instrs ∈ guardedPair.threads, Sectioned Instr.isOrdinary instrs := by
  intro instrs hinstrs
  simp only [guardedPair, Program.thread, Program.empty, List.nil_append, List.cons_append,
    List.mem_cons, List.not_mem_nil, or_false] at hinstrs
  rcases hinstrs with rfl | rfl
  · have hread : ∀ i ∈ [Instr.read "x"], i.isOrdinary := by simp [Instr.isOrdinary]
    exact .locked hread .done
  · have hwrite : ∀ i ∈ [Instr.write "x" 1], i.isOrdinary := by simp [Instr.isOrdinary]
    exact .locked hwrite .done

theorem terminalStates_firstRound_guardedPair : ∃ report e,
    runRound (create guardedPair {} 0) = .ok report e ∧ report.truncated = false ∧
      report.terminalStates = guardedPair.terminalStates := by
  have heval : endedWith (fun report _ => !report.truncated)
      (runRound (create guardedPair {} 0)) = true := by decide +kernel
  obtain ⟨report, e, hround, hwhole⟩ := exists_of_endedWith heval
  have hwhole : report.truncated = false := by simpa using hwhole
  exact ⟨report, e, hround, hwhole,
    terminalStates_firstRound sectioned_guardedPair rfl 0 hround hwhole⟩

/-! ## Later rounds -/

/-- What can be done with an engine between two rounds, and how many rounds have been run: rounds of
every kind, changes of the variables tracked, and prunings of nodes of the tree. -/
inductive History (e₀ : Engine) : Nat → Engine → Prop
  | start : History e₀ 0 e₀
  | round {k : Nat} {e e' : Engine} {report : RoundReport} : History e₀ k e →
    runRound e = .ok report e' → History e₀ (k + 1) e'
  | halt {k : Nat} {e e' : Engine} {h : Halt Empty} : History e₀ k e →
    runRound e = .error h e' → History e₀ (k + 1) e'
  | setPrecision {k : Nat} {e : Engine} {precision : Precision} : History e₀ k e →
    History e₀ k (e.setPrecision precision)
  | prune {k : Nat} {e : Engine} {n : NodeId} : History e₀ k e → n ∈ e.tree.ids →
    History e₀ k (e.prune n)

/-- Whatever happens between the rounds, no node gets covered. -/
theorem History.isUncovered {e₀ : Engine} {k : Nat} (h : History e₀ k e) (h₀ : e₀.IsUncovered p) :
    e.IsUncovered p := by
  induction h with
  | start => exact h₀
  | round _ hround ih => exact (ih.runRound.of_ok hround).1.toIsUncovered
  | halt _ hround ih => exact ih.runRound.of_error hround
  | setPrecision _ ih => exact ⟨ih.program, ih.covering, ih.sound, ih.uncovered⟩
  | prune _ _ ih => exact ⟨ih.program, ih.covering, ih.sound.prune, ih.uncovered.prune⟩

/-- A later round finds all terminal states too, if all conflicts count in it and it is not cut short,
whatever the rounds before it tracked, left out, or lost to pruning. -/
theorem terminalStates_laterRound (hp : ∀ instrs ∈ p.threads, Sectioned Instr.isOrdinary instrs)
    {settings : EngineSettings} (hcovering : settings.covering = false) (drawnSeed : UInt64) {k : Nat}
    (hhistory : History (create p settings drawnSeed) (k + 1) e) {report : RoundReport} {e' : Engine}
    (hround : runRound (e.setPrecision none) = .ok report e') (hwhole : report.truncated = false) :
    report.terminalStates = p.terminalStates := by
  have h : History _ _ (e.setPrecision none) := hhistory.setPrecision
  exact (h.isUncovered (isUncovered_create hcovering)).terminalStates_runRound
    (isDisciplined_of_sectioned (fun _ => Instr.isPlain_of_isOrdinary) hp)
    (hasSoleSpawners_of_ordinary hp) rfl hround hwhole

/-- A round that tracks no variable comes first, and a pruning after it. -/
theorem terminalStates_laterRound_guardedPair : ∃ e report e',
    History (create guardedPair {} 0) 1 e ∧ runRound (e.setPrecision none) = .ok report e' ∧
      report.truncated = false ∧ report.terminalStates = guardedPair.terminalStates := by
  let first : Engine := (create guardedPair {} 0).setPrecision (some ∅)
  have heval : endedWith (fun _ e => e.tree.ids.contains ⟨1⟩ &&
      endedWith (fun report _ => !report.truncated) (runRound ((e.prune ⟨1⟩).setPrecision none)))
      (runRound first) = true := by decide +kernel
  obtain ⟨report, e, hround, hlater⟩ := exists_of_endedWith heval
  obtain ⟨hmem, hlater⟩ := Bool.and_eq_true_iff.1 hlater
  obtain ⟨report', e', hround', hwhole⟩ := exists_of_endedWith hlater
  have hwhole : report'.truncated = false := by simpa using hwhole
  have hhistory : History (create guardedPair {} 0) 1 (e.prune ⟨1⟩) :=
    .prune (.round (.setPrecision .start) hround) (by simpa using hmem)
  exact ⟨e.prune ⟨1⟩, report', e', hhistory, hround', hwhole,
    terminalStates_laterRound sectioned_guardedPair rfl 0 hhistory hround' hwhole⟩

/-! ## Nested sections and spawned threads -/

/-- The first round of an engine finds only terminal states of the program. It finds all of them if it
is not cut short, no thread that does not run from the start is spawned by two others, and one of two
things holds. Either the threads hold nothing when they take a mutex, and give back what they take; or a
thread that may be spawned when it runs already uses no mutex, and each path of the round has ended where
every thread that holds a lock could come to hold none by running alone. -/
theorem terminalStates_firstRound_of_pathEnds {settings : EngineSettings}
    (hcovering : settings.covering = false) (drawnSeed : UInt64) {report : RoundReport} {e : Engine}
    (hround : runRound (create p settings drawnSeed) = .ok report e) :
    (∀ s ∈ report.terminalStates, s ∈ p.terminalStates) ∧
      (report.truncated = false → p.HasSoleSpawners →
        (p.IsDisciplined ∨ p.RespawnsFree ∧ ∀ s ∈ e.pathEnds, p.IsReleasable s) →
        report.terminalStates = p.terminalStates) := by
  have h : (create p settings drawnSeed).IsUncovered p := isUncovered_create hcovering
  constructor
  · obtain ⟨he, hreport, -⟩ := h.runRound.of_ok hround
    obtain rfl := he.program
    intro s hs
    exact mem_terminalStates_of_mem he.sound (hreport ▸ hs)
  · intro hwhole hspawn hends
    exact h.terminalStates_runRound_of_pathEnds hspawn rfl hround hwhole hends

/-- One thread spawns the other and has a section within a section. -/
def spawnedReader : Program :=
  (Program.empty.thread
    [.spawn ⟨1⟩, .lock "a", .lock "b", .write "x" 1, .unlock "b", .unlock "a"]).dormantThread
    [.lock "b", .read "x", .unlock "b"]

theorem terminalStates_firstRound_spawnedReader : ∃ report e,
    runRound (create spawnedReader {} 0) = .ok report e ∧ ¬spawnedReader.IsDisciplined ∧
      report.terminalStates = spawnedReader.terminalStates := by
  have heval : endedWith (fun report e => !report.truncated &&
      decide (∀ s ∈ e.pathEnds, spawnedReader.IsReleasable s))
      (runRound (create spawnedReader {} 0)) = true := by decide +kernel
  obtain ⟨report, e, hround, heval⟩ := exists_of_endedWith heval
  simp only [Bool.and_eq_true, Bool.not_eq_true', decide_eq_true_eq] at heval
  have hspawn : spawnedReader.HasSoleSpawners := by decide +kernel
  have hrespawns : spawnedReader.RespawnsFree := by decide +kernel
  have hnested : ¬spawnedReader.IsDisciplined := by
    intro hp
    have hfits := hp.fits (q := ⟨0⟩) (k := 2) (i := .lock "b") (by decide)
    exact absurd (hfits.needed _ rfl).2 (by decide)
  exact ⟨report, e, hround, hnested,
    (terminalStates_firstRound_of_pathEnds rfl 0 hround).2 heval.1 hspawn
      (.inr ⟨hrespawns, heval.2⟩)⟩

/-- The threads release all they take, but a first round with the given seed, which is not cut short,
does not find all terminal states. -/
def LosesStates (p : Program) (seed : UInt64) : Prop :=
  (∀ instrs ∈ p.threads, instrs.foldl Instr.hold [] = []) ∧ ∃ report e,
    runRound (create p (.ofSeed seed) 0) = .ok report e ∧ report.truncated = false ∧
      report.terminalStates ≠ p.terminalStates

theorem losesStates_of_size {seed : UInt64}
    (hp : ∀ instrs ∈ p.threads, instrs.foldl Instr.hold [] = [])
    (heval : endedWith (fun report _ => !report.truncated &&
      report.terminalStates.size != p.terminalStates.size)
      (runRound (create p (.ofSeed seed) 0)) = true) : LosesStates p seed := by
  obtain ⟨report, e, hround, heval⟩ := exists_of_endedWith heval
  simp only [Bool.and_eq_true, Bool.not_eq_true', bne_iff_ne] at heval
  exact ⟨hp, report, e, hround, heval.1, fun h => heval.2 (congrArg Std.ExtTreeSet.size h)⟩

/-- Sections of two mutexes, one within the other, always in the same order. -/
def nestedSections : Program :=
  ((Program.empty.thread [.idle, .idle, .lock "b", .read "x", .unlock "b"]).thread
    [.lock "b", .lock "a", .write "x" 2, .unlock "a", .unlock "b"]).thread
    [.lock "a", .write "x" 1, .unlock "a"]

/-- Two threads that spawn the same third thread. -/
def twoSpawners : Program :=
  ((Program.empty.thread [.write "x" 1, .spawn ⟨2⟩]).thread [.read "x", .spawn ⟨2⟩]).dormantThread
    [.read "x"]

/-- Terminal states are lost where sections nest, though no deadlock is possible, and where a thread is
spawned by two others. -/
theorem terminalStates_nestedSections_ne :
    LosesStates nestedSections 770 ∧ LosesStates twoSpawners 0 := by
  constructor
  · exact losesStates_of_size (by decide) (by decide +kernel)
  · exact losesStates_of_size (by decide) (by decide +kernel)

end Engine

end Interleaving
