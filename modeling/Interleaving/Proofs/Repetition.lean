import Interleaving.Proofs.Rounds
import Interleaving.Proofs.Walks

/-!
# No run is completed twice

In the first round of an engine, every step offered at a node is new there (`SearchTree.IsNewAt`), so
the tree never repeats a run: the traces of two leaves are no reorderings of each other
(`Engine.not_reorders_firstRound`). It does not matter how the round ends, which variables it tracks,
and whether nodes are covered.
-/

namespace Interleaving

namespace Engine

/-- The tree of the engine repeats nothing. -/
structure IsReduced (p : Program) (precision : Precision) (e : Engine) : Prop where
  program : e.program = p
  precision_eq : e.precision = precision
  sound : e.tree.Sound p
  tidy : e.tree.Tidy
  unrepeated : e.tree.Unrepeated precision

/-- The first round is under way. -/
structure InFirstRound (p : Program) (precision : Precision) (e : Engine) : Prop
    extends e.IsReduced p precision where
  sleeping : Sleeping p precision e.tree e.search.exploration

end Engine

variable {p : Program} {precision : Precision} {e : Engine} {n m c : NodeId} {a : Step}
  {progress : Engine.Progress} {t : SearchTree ProgramState Step} {settings : Settings}
  {x : Exploration Step Seeded}

/-- The question for the end of a round. -/
theorem Ends.isEmpty_sleeping (ht : t.Sound p) (htidy : t.Tidy) (h : Sleeping p precision t x) :
    Yields (Exploration.isEmpty (p.context precision t settings)) x fun _ x' =>
      Sleeping p precision t x' ∧ ∀ top entry, x'.stack.topNode? = some top →
        t.node? top = some entry → entry.isSubsumed = false := by
  refine (isEmpty (fun _ _ => trivial) h ?_ ?_ ?_).imp fun b x' hx' => ⟨hx'.1, hx'.2.2⟩
  · intro x top entry covering h htop hn hcovering
    exact virtualExploration_sleeping ht htidy h htop hn hcovering
  · intro x top entry h _ _ _
    exact popFrame.imp fun _ x' hx' => h.pop ht hx'
  · exact fun x h => exploreLazily_sleeping ht h

namespace Engine

theorem IsReduced.withExploration (h : e.IsReduced p precision) (x : Exploration Step Seeded) :
    (e.withExploration x).IsReduced p precision :=
  ⟨h.program, h.precision_eq, h.sound, h.tidy, h.unrepeated⟩

theorem IsReduced.context_eq (h : e.IsReduced p precision) :
    e.context = p.context precision e.tree e.search.settings := by
  rw [context, h.program, h.precision_eq]

theorem InFirstRound.withExploration (h : e.InFirstRound p precision) {x : Exploration Step Seeded}
    (hx : Sleeping p precision e.tree x) : (e.withExploration x).InFirstRound p precision :=
  ⟨h.toIsReduced.withExploration x, hx⟩

/-- Nodes may be covered or marked as expanded. -/
theorem InFirstRound.mark (h : e.InFirstRound p precision)
    {f : SearchTree.Node ProgramState Step → SearchTree.Node ProgramState Step}
    (hf : ∀ e, ∃ covering expanded, f e = { e with covering, expanded })
    (htidy : (e.tree.modify n f).Tidy) :
    (e.withTree (e.tree.modify n f)).InFirstRound p precision := by
  refine ⟨⟨h.program, h.precision_eq, h.sound.modify hf, htidy, ?_⟩, ?_⟩
  · exact h.unrepeated.congr fun _ _ _ => SearchTree.edge_modify hf
  · refine h.sleeping.extend (fun _ _ _ => SearchTree.state_modify hf) ?_ ?_
    · exact fun _ _ _ hedge => (SearchTree.edge_modify hf).2 hedge
    · exact fun _ _ _ hedge => .inl ((SearchTree.edge_modify hf).1 hedge)

theorem InFirstRound.setExpanded (h : e.InFirstRound p precision) :
    (e.withTree (e.tree.setExpanded n true)).InFirstRound p precision :=
  h.mark (fun d => ⟨d.covering, true, rfl⟩) h.tidy.setExpanded

/-- A child by a step that has been taken is added to the tree. -/
theorem InFirstRound.addChild {entry : SearchTree.Node ProgramState Step}
    (h : e.InFirstRound p precision) (hn : e.tree.node? n = some entry)
    (hsubsumed : entry.isSubsumed = false) (hrun : p.CanRun entry.state a)
    (hnew : e.tree.IsNewAt precision n a)
    (hsleep : a ∈ (e.search.exploration.sets n).sleep.toList) :
    (e.withTree (e.tree.addChild n a (entry.state.after a)).2).InFirstRound p precision := by
  have hextends : e.tree.Extends (e.tree.addChild n a (entry.state.after a)).2 :=
    SearchTree.extends_addChild hn
  have huncovered : entry.isCovered = false := by
    rw [SearchTree.Node.isSubsumed, Bool.or_eq_false_iff] at hsubsumed
    exact hsubsumed.1
  refine ⟨⟨h.program, h.precision_eq, h.sound.addChild hn hrun, h.tidy.addChild hn huncovered,
    h.unrepeated.addChild h.sound hn hnew⟩, ?_⟩
  refine h.sleeping.extend (fun k d hk => hextends.state_eq hk) (fun k b c => hextends.edge)
    fun k b c hedge => ?_
  by_cases hc : c = ⟨e.tree.size⟩
  · subst hc
    have hedge' := SearchTree.edge_addChild (a := a) (s := entry.state.after a) hn
    obtain ⟨rfl, rfl⟩ := hedge.unique hedge'
    exact .inr hsleep
  · exact .inl (SearchTree.edge_of_addChild hn hedge hc).1

/-- The new child has no children yet. -/
theorem not_edge_addChild {entry : SearchTree.Node ProgramState Step} {s : ProgramState} {b : Step}
    (ht : (t.addChild n a s).2.Sound p) (hn : t.node? n = some entry) :
    ¬(t.addChild n a s).2.Edge ⟨t.size⟩ b c := by
  intro hedge
  have hlt := ht.index_lt hedge
  have hc : c ≠ ⟨t.size⟩ := by
    rintro rfl
    exact Nat.lt_irrefl _ hlt
  obtain ⟨-, d, hd⟩ := SearchTree.edge_of_addChild hn hedge hc
  exact Nat.lt_irrefl _ (Nat.lt_trans hlt (SearchTree.index_lt_size hd))

/-- A new child of the current node is entered. -/
theorem InFirstRound.enter (h : e.InFirstRound p precision)
    (htop : e.search.exploration.stack.topNode? = some n) (hedge : e.tree.Edge n a c)
    (hleaf : ∀ b k, ¬e.tree.Edge c b k) :
    Ends (do
      Engine.updateTree (·.setExpanded n true)
      modify fun e => { e with executed := e.executed.push a }
      let _ ← Engine.explore (Exploration.add · c)
      pure progress) e (fun _ e' => e'.InFirstRound p precision) (IsReduced p precision) := by
  obtain rfl := h.program
  obtain rfl := h.precision_eq
  have h₁ := h.setExpanded (n := n)
  refine .bind (.updateTree (.bind (.modify (.bind (.explore ?_ fun y => ?_)))))
  · show Yields (Exploration.add
      (e.program.context e.precision (e.tree.setExpanded n true) e.search.settings) c)
      e.search.exploration _
    have hedge₁ : (e.tree.setExpanded n true).Edge n a c := SearchTree.edge_setExpanded.2 hedge
    refine (Ends.add_sleeping h₁.sound h₁.sleeping htop hedge₁ ?_).imp fun _ y hy => .pure ?_
    · exact fun b k hbk => hleaf b k (SearchTree.edge_setExpanded.1 hbk)
    · exact ⟨⟨rfl, rfl, h₁.sound, h₁.tidy, h₁.unrepeated⟩, hy⟩
  · exact ⟨rfl, rfl, h₁.sound, h₁.tidy, h₁.unrepeated⟩

/-- The step offered at the current node is performed. -/
theorem InFirstRound.expand (h : e.InFirstRound p precision)
    (htop : e.search.exploration.stack.topNode? = some n)
    (hsubsumed : ∀ entry, e.tree.node? n = some entry → entry.isSubsumed = false) :
    Ends (Engine.expand n progress) e (fun _ e' => e'.InFirstRound p precision)
      (IsReduced p precision) := by
  unfold Engine.expand
  refine .bind (.lookUpEntry (fun entry hn => ?_) h.toIsReduced)
  refine .bind (.explore ?_ fun x => h.toIsReduced.withExploration x)
  rw [h.context_eq]
  refine (Ends.nextAction_sleeping h.sound h.sleeping).imp fun answer x ⟨hx, hanswer⟩ => ?_
  have h₁ := h.withExploration hx
  cases answer with
  | none =>
    refine .bind (.updateTree (.bind (.get ?_)))
    split <;> exact .pure h₁.setExpanded
  | some a =>
    obtain ⟨k, entry', htop', hk, hid, hrun, hnew, hsleep⟩ := hanswer a rfl
    obtain ⟨rfl, rfl⟩ := h.sound.eq_of_stateId_eq hk hn hid
    refine .bind (.childFor (fun c hc => ?_) fun _ => ?_)
    · -- a child by this step would make it redundant
      obtain ⟨-, hedge⟩ := h.sound.edge_of_childWithAction hn hrun.hasStep hc
      obtain ⟨d, hd, -⟩ := hnew k [] c hedge (.nil k)
      cases hd
    · -- the new child is a leaf, so there is nothing below it to repeat
      have h₂ := h₁.addChild hn (hsubsumed entry' hn) hrun hnew hsleep
      refine h₂.enter htop' (SearchTree.edge_addChild hn) fun b c => ?_
      exact not_edge_addChild h₂.sound hn

/-- One turn of a round. -/
theorem InFirstRound.roundTurn (h : e.InFirstRound p precision) :
    Ends (Engine.roundTurn progress) e (fun _ e' => e'.InFirstRound p precision)
      (IsReduced p precision) := by
  unfold Engine.roundTurn
  refine .bind (.explore ?_ fun x => h.toIsReduced.withExploration x)
  rw [h.context_eq]
  refine (Ends.isEmpty_sleeping h.sound h.tidy h.sleeping).imp fun b x hx => ?_
  have h₁ := h.withExploration hx.1
  split
  · exact .pure h₁
  refine .bind (.get ?_)
  split
  · exact .pure h₁
  refine .bind (.explore ?_ fun x => h₁.toIsReduced.withExploration x)
  rw [h₁.context_eq]
  refine (Ends.remove (Ends.isEmpty_sleeping h₁.sound h₁.tidy h₁.sleeping)).imp fun n x₂ hx₂ => ?_
  obtain ⟨⟨hsleeping, hsubsumed⟩, htop⟩ := hx₂
  have h₂ := h₁.withExploration hsleeping
  refine .bind (.lookUpEntry (fun entry hn => .bind (.get ?_)) h₂.toIsReduced)
  split
  · rename_i covering hcovering
    refine .bind (.updateTree (.pure (h₂.mark (fun d => ⟨some covering, d.expanded, rfl⟩) ?_)))
    exact h₂.tidy.setCovering hn (of_coveringFor hcovering).2.1 (some covering)
  · exact .bind ((h₂.expand htop fun entry => hsubsumed n entry htop).imp fun _ e' he' => .pure he')

theorem InFirstRound.continueRound {turns : Nat} (h : e.InFirstRound p precision) :
    Ends (Engine.continueRound turns progress) e (fun _ e' => e'.InFirstRound p precision)
      (IsReduced p precision) :=
  (Ends.continueRound (R := fun _ _ => True) (fun _ h => h.toIsReduced)
    (fun _ _ h => h.roundTurn.imp fun _ _ he' => ⟨he', fun _ => trivial⟩) h).imp fun _ _ he' => he'.1

/-- The first round repeats nothing, however it ends. -/
theorem isReduced_firstRound (p : Program) (settings : EngineSettings) (drawnSeed : UInt64)
    (precision : Precision) :
    Ends Engine.runRound ((create p settings drawnSeed).setPrecision precision)
      (fun _ => IsReduced p precision) (IsReduced p precision) := by
  have hsound := SearchTree.sound_singleton p
  have htidy : (SearchTree.singleton p.initialState).Tidy := .singleton _
  have hunrepeated : (SearchTree.singleton p.initialState).Unrepeated precision := .singleton _
  unfold Engine.runRound Engine.startRound
  refine .bind (.bind (.modify (.bind (.explore ?_ fun x => ?_))))
  · show Yields (Exploration.add
      (p.context precision (SearchTree.singleton p.initialState) settings.exploration) _) _ _
    refine (Ends.addRoot hsound rfl).imp fun _ x hx => .pure ?_
    have hsleeping : Sleeping p precision (SearchTree.singleton p.initialState) x :=
      .start hsound (fun _ _ _ => SearchTree.not_edge_singleton) rfl (fun _ => rfl) hx.1 hx.2
    have h : InFirstRound p precision
        (((create p settings drawnSeed).setPrecision precision).withExploration x) :=
      ⟨⟨rfl, rfl, hsound, htidy, hunrepeated⟩, hsleeping⟩
    exact .bind (.get (.bind (h.continueRound.imp fun _ e he => .bind (.get (.pure he.toIsReduced)))))
  · exact ⟨rfl, rfl, hsound, htidy, hunrepeated⟩

/-- The engine after a round, however that ends. -/
def afterRound (e : Engine) : Engine :=
  match runRound e with
  | .ok _ e' => e'
  | .error _ e' => e'

/-- After the first round, the traces of two nodes are no reorderings of each other that keep the
order of dependent steps. In particular no run is completed twice, at two leaves: for every program,
all settings, every seed and all variables tracked, whether or not the round was cut short. -/
theorem not_reorders_firstRound (p : Program) (settings : EngineSettings) (drawnSeed : UInt64)
    (precision : Precision) :
    let tree := (afterRound ((create p settings drawnSeed).setPrecision precision)).tree
    ∀ n ∈ tree.ids, ∀ m ∈ tree.ids, n ≠ m →
      ¬Reorders (Step.Depends precision) (tree.traceTo n) (tree.traceTo m) := by
  intro tree n hn m hm hne
  have h : IsReduced p precision (afterRound ((create p settings drawnSeed).setPrecision precision)) := by
    have hround := isReduced_firstRound p settings drawnSeed precision
    unfold afterRound
    cases hresult : runRound ((create p settings drawnSeed).setPrecision precision) with
    | ok report e => exact hround.of_ok hresult
    | error halt e => exact hround.of_error hresult
  obtain ⟨d, hd⟩ := SearchTree.mem_ids_iff.1 hn
  obtain ⟨d', hd'⟩ := SearchTree.mem_ids_iff.1 hm
  exact h.unrepeated.not_reorders_traceTo h.sound hd hd' hne

/-- Two threads write to the same variable. -/
def twoWriters : Program := (Program.empty.thread [.write "x" 1]).thread [.write "x" 2]

/-- Both orders of the two writes are completed, with covering on. -/
theorem not_reorders_firstRound_twoWriters :
    let tree := (afterRound ((create twoWriters { covering := true } 0).setPrecision none)).tree
    ∃ n ∈ tree.leaves, ∃ m ∈ tree.leaves, n ≠ m ∧
      ¬Reorders (Step.Depends none) (tree.traceTo n) (tree.traceTo m) := by
  intro tree
  have heval : (tree.leaves == [⟨2⟩, ⟨4⟩]) = true := by decide +kernel
  have hleaves : tree.leaves = [⟨2⟩, ⟨4⟩] := beq_iff_eq.1 heval
  have hids : ∀ n ∈ tree.leaves, n ∈ tree.ids := fun n hn =>
    List.mem_of_mem_filter (List.mem_of_mem_filter hn)
  have hn : (⟨2⟩ : NodeId) ∈ tree.leaves := by simp [hleaves]
  have hm : (⟨4⟩ : NodeId) ∈ tree.leaves := by simp [hleaves]
  have hne : (⟨2⟩ : NodeId) ≠ ⟨4⟩ := by decide
  exact ⟨⟨2⟩, hn, ⟨4⟩, hm, hne, not_reorders_firstRound twoWriters { covering := true } 0 none
    ⟨2⟩ (hids _ hn) ⟨4⟩ (hids _ hm) hne⟩

end Engine

end Interleaving
