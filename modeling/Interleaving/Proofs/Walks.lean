import Interleaving.Proofs.Sleeping

/-!
# Walks below covering nodes

The subtree of a covering node is walked on top of the stack, starting at a covered node. A covered
node has no children (`SearchTree.Tidy`), so no frame of such a walk is that of a child of the frame
below the walk: every state is only looked into, its redundant steps stay as they are, and the frames
below the walk keep their nodes and steps (`Looking`, `Ends.walkVirtual_looking`).
-/

namespace Interleaving

variable {p : Program} {precision : Precision} {t : SearchTree ProgramState Step}
  {settings : Settings} {x x' x₀ x₁ : Exploration Step Seeded} {n m : NodeId} {a : Step}

/-! ## Trees with covered nodes -/

namespace SearchTree

namespace Bare

theorem singleton (s : ProgramState) : (SearchTree.singleton s : SearchTree _ Step).Bare := by
  intro n e he hcovered
  rw [Node.isCovered, Uncovered.singleton s n e he] at hcovered
  cases hcovered

variable (h : t.Bare)
include h

theorem modify {f : Node ProgramState Step → Node ProgramState Step}
    (hf : ∀ e, t.node? n = some e → (e.isCovered → e.children = []) → (f e).isCovered →
      (f e).children = []) : (t.modify n f).Bare := by
  intro k e' he' hcovered
  rw [node?_modify] at he'
  split at he'
  · rename_i hk
    obtain ⟨e, he, rfl⟩ := Option.map_eq_some_iff.1 he'
    exact hf e (hk ▸ he) (h k e he) hcovered
  · exact h k e' he' hcovered

theorem setExpanded {b : Bool} : (t.setExpanded n b).Bare := h.modify fun _ _ hbare => hbare

theorem setCovering {e : Node ProgramState Step} (hn : t.node? n = some e) (hbare : e.children = [])
    (covering : Option NodeId) : (t.setCovering n covering).Bare := by
  refine h.modify fun d hd _ _ => ?_
  rwa [Option.some.inj (hd.symm.trans hn)]

theorem addChild {d : Node ProgramState Step} {s : ProgramState} (hm : t.node? m = some d)
    (huncovered : d.isCovered = false) : (t.addChild m a s).2.Bare := by
  intro k e' he' hcovered
  rcases new_or_old_of_addChild hm he' with ⟨rfl, rfl⟩ | ⟨e, he, rfl⟩
  · rfl
  rw [Node.isCovered, covering_adopting] at hcovered
  unfold adopting
  split
  · rename_i hkm
    obtain rfl : d = e := Option.some.inj (hm.symm.trans (hkm ▸ he))
    rw [Node.isCovered, hcovered] at huncovered
    cases huncovered
  · exact h k e he hcovered

end Bare

/-- Each node is listed at its parent, and covered nodes have no children. -/
structure Tidy (t : SearchTree ProgramState Step) : Prop where
  listed : ∀ n m, t.parent n = some m → n ∈ t.children m
  bare : ∀ n e, t.node? n = some e → e.isCovered → e.children = []

namespace Tidy

theorem singleton (s : ProgramState) : (SearchTree.singleton s : SearchTree _ Step).Tidy := by
  refine ⟨fun n m hm => ?_, Bare.singleton s⟩
  obtain ⟨e, he, hparent⟩ := parent_eq_some_iff.1 hm
  rw [(eq_of_node?_singleton he).2] at hparent
  cases hparent

variable (h : t.Tidy)
include h

theorem not_edge {e : Node ProgramState Step} (hn : t.node? n = some e) (hcovered : e.isCovered) :
    ¬t.Edge n a m := by
  intro hedge
  obtain ⟨d, hd, hmem⟩ := mem_children_iff.1 (h.listed m n hedge.1)
  rw [h.bare n d hd (Option.some.inj (hn.symm.trans hd) ▸ hcovered)] at hmem
  cases hmem

/-- Marks do not matter, unless a node with children gets covered. -/
theorem modify {f : Node ProgramState Step → Node ProgramState Step}
    (hf : ∀ e, ∃ covering expanded, f e = { e with covering, expanded })
    (hcovered : ∀ e, t.node? n = some e → (f e).isCovered → e.isCovered ∨ e.children = []) :
    (t.modify n f).Tidy := by
  refine ⟨fun k m hm => ?_, Bare.modify h.bare fun e he hbare hcov => ?_⟩
  · rw [parent_modify hf] at hm
    rw [children_modify hf]
    exact h.listed k m hm
  · obtain ⟨covering, expanded, heq⟩ := hf e
    have hchildren : (f e).children = e.children := by rw [heq]
    exact hchildren.trans ((hcovered e he hcov).elim hbare id)

theorem setExpanded {b : Bool} : (t.setExpanded n b).Tidy :=
  h.modify (fun e => ⟨e.covering, b, rfl⟩) fun _ _ hcov => .inl hcov

theorem setCovering {e : Node ProgramState Step} (hn : t.node? n = some e) (hbare : e.children = [])
    (covering : Option NodeId) : (t.setCovering n covering).Tidy := by
  refine h.modify (fun e => ⟨covering, e.expanded, rfl⟩) fun d hd _ => .inr ?_
  rwa [Option.some.inj (hd.symm.trans hn)]

theorem addChild {d : Node ProgramState Step} {s : ProgramState} (hm : t.node? m = some d)
    (huncovered : d.isCovered = false) : (t.addChild m a s).2.Tidy := by
  refine ⟨fun k j hj => ?_, Bare.addChild h.bare hm huncovered⟩
  rw [parent_addChild hm] at hj
  rw [mem_children_addChild hm]
  split at hj
  · rename_i hk
    exact .inr ⟨(Option.some.inj hj).symm, hk⟩
  · exact .inl (h.listed k j hj)

end Tidy

end SearchTree

/-! ## What a walk leaves alone -/

/-- From `x₀` to `x`, only frames from `start` on have come and gone: the frames below are the same
apart from their locks, and so is what is redundant at each node. -/
structure Looking (p : Program) (t : SearchTree ProgramState Step) (start : Nat)
    (x₀ x : Exploration Step Seeded) : Prop where
  size_le : start ≤ x.stack.size
  below : ∀ i < start, ∀ f, x₀.stack.frame? i = some f →
    ∃ locks, x.stack.frame? i = some { f with locks }
  genuine : x.stack.IsGenuine p
  sleep : ∀ n, (x.sets n).sleep = (x₀.sets n).sleep
  canRun : ∀ n, ∀ a ∈ (x.sets n).backtrack.toList, p.CanRun (t.state n) a

/-- The frame below `start` stands for a covered node. -/
def SearchStack.IsCoveredBelow (t : SearchTree ProgramState Step) (start : Nat)
    (s : SearchStack Step) : Prop :=
  0 < start ∧ ∃ f e, s.frame? (start - 1) = some f ∧ t.node? f.node = some e ∧ e.isCovered

/-- The current node is covered. -/
theorem SearchStack.IsCoveredBelow.of_topNode? {s : SearchStack Step} {c : NodeId}
    {entry : SearchTree.Node ProgramState Step} (htop : s.topNode? = some n)
    (hn : t.node? n = some entry) (hcovering : entry.covering = some c) :
    s.IsCoveredBelow t s.size := by
  obtain ⟨f, hf, hfn⟩ := topNode?_eq_some_iff.1 htop
  refine ⟨Nat.zero_lt_of_lt (frame?_lt hf), f, entry, hf, hfn ▸ hn, ?_⟩
  rw [SearchTree.Node.isCovered, hcovering]
  rfl

/-- Where a walk starts anew, it does so on top of a covered node: the root of a walk has no frame, and
stands for the node below. -/
theorem SearchStack.IsCoveredBelow.restart {s s' : SearchStack Step} {start : Nat}
    {root node c : NodeId} {parent : Option NodeId} {entry : SearchTree.Node ProgramState Step}
    (hcovered : s'.IsCoveredBelow t start) (hentry : t.node? node = some entry)
    (hcovering : entry.covering = some c)
    (hnode : (node = root ∧ s.size = start) ∨ root.index < node.index)
    (hbelow : (node = root ∧ s' = s.unwindTo start parent) ∨ s'.topNode? = some node) :
    s'.IsCoveredBelow t s'.size := by
  rcases hbelow with ⟨rfl, hunwound⟩ | htop
  · obtain ⟨-, hsize⟩ := hnode.resolve_right (Nat.lt_irrefl _)
    have hsize' : s'.size = start := by
      rw [hunwound, unwindTo, hsize, Nat.sub_self]
      exact hsize
    rw [hsize']
    exact hcovered
  · exact .of_topNode? htop hentry hcovering

namespace Looking

variable {start start' : Nat}

theorem refl (hsize : start ≤ x.stack.size) (hgenuine : x.stack.IsGenuine p)
    (hcanRun : ∀ n, ∀ a ∈ (x.sets n).backtrack.toList, p.CanRun (t.state n) a) :
    Looking p t start x x :=
  ⟨hsize, fun _ _ f hf => ⟨f.locks, hf⟩, hgenuine, fun _ => rfl, hcanRun⟩

theorem trans (h : Looking p t start x₀ x₁) (h' : Looking p t start' x₁ x) (hle : start ≤ start') :
    Looking p t start x₀ x := by
  refine ⟨Nat.le_trans hle h'.size_le, fun i hi f hf => ?_, h'.genuine,
    fun n => (h'.sleep n).trans (h.sleep n), h'.canRun⟩
  obtain ⟨locks, hf₁⟩ := h.below i hi f hf
  obtain ⟨locks', hf₂⟩ := h'.below i (by omega) _ hf₁
  exact ⟨locks', hf₂⟩

variable (h : Looking p t start x₀ x)
include h

/-- Frames above may go. -/
theorem shrink (htable : x'.table = x.table) (hstack : SearchStack.Prefix start x.stack x'.stack) :
    Looking p t start x₀ x' := by
  have hsets : ∀ n, x'.sets n = x.sets n := fun n => by rw [Exploration.sets, htable]; rfl
  refine ⟨hstack.size_le, fun i hi f hf => ?_, fun i f a hf => h.genuine i f a (hstack.frame i f hf),
    fun n => by rw [hsets, h.sleep], fun n a ha => h.canRun n a (hsets n ▸ ha)⟩
  rw [hstack.low i hi]
  exact h.below i hi f hf

theorem of_eq (hstack : x'.stack = x.stack) (htable : x'.table = x.table) : Looking p t start x₀ x' :=
  h.shrink htable (by rw [hstack]; exact .refl h.size_le)

theorem widen (ht : t.Sound p) (hwidens : Widens p t x x') : Looking p t start x₀ x' := by
  refine ⟨hwidens.stack ▸ h.size_le, fun i hi f hf => ?_, hwidens.stack ▸ h.genuine,
    fun n => (hwidens.sleep _).trans (h.sleep n), fun n a ha => ?_⟩
  · rw [hwidens.stack]
    exact h.below i hi f hf
  · rcases hwidens.adds _ a ha with ha | ⟨i, f, e, hf, he, hid, hrun⟩
    · exact h.canRun n a ha
    · rw [(ht.identity _ _ he).1] at hid
      rw [← NodeId.eq_of_stateId_eq hid, SearchTree.state_eq he]
      exact hrun

theorem isCoveredBelow (hcovered : x₀.stack.IsCoveredBelow t start) :
    x.stack.IsCoveredBelow t start := by
  obtain ⟨hpos, f, e, hf, he, hcov⟩ := hcovered
  obtain ⟨locks, hf'⟩ := h.below (start - 1) (by omega) f hf
  exact ⟨hpos, _, e, hf', he, hcov⟩

/-- The sets of one state change, but not what is redundant there. -/
theorem reset {s : StateId} {d : Decoration Step} (hstack : x'.stack = x.stack)
    (htable : x'.table = x.table.reset s d) (hsleep : d.sleep = (x.table.get s).sleep)
    (hcanRun : ∀ n : NodeId, s = ⟨n.index⟩ → ∀ a ∈ d.backtrack.toList, p.CanRun (t.state n) a) :
    Looking p t start x₀ x' := by
  have hsets : ∀ n : NodeId, x'.sets n = if s = ⟨n.index⟩ then d else x.sets n := fun n => by
    rw [Exploration.sets, htable, DecorationTable.get_reset]
    rfl
  refine ⟨hstack ▸ h.size_le, fun i hi f hf => ?_, hstack ▸ h.genuine, fun n => ?_, fun n a ha => ?_⟩
  · rw [hstack]
    exact h.below i hi f hf
  · rw [hsets, ← h.sleep n]
    split
    · rename_i hs
      rw [hsleep, hs]
      rfl
    · rfl
  · rw [hsets] at ha
    split at ha
    · rename_i hs
      exact hcanRun n hs a ha
    · exact h.canRun n a ha

/-- A frame is put on top, and locks are released. -/
theorem push {s : SearchStack Step} {f : Frame Step} (hrelocks : x.stack.Relocks s)
    (haction : ∀ a, f.action = some a → p.HasStep a) (hstack : x'.stack = s.push f)
    (htable : x'.table = x.table) : Looking p t start x₀ x' := by
  have hsets : ∀ n, x'.sets n = x.sets n := fun n => by rw [Exploration.sets, htable]; rfl
  have hsize := hrelocks.size_eq
  have hle := h.size_le
  refine ⟨?_, fun i hi g hg => ?_, fun i g a hg hga => ?_, fun n => by rw [hsets, h.sleep],
    fun n a ha => h.canRun n a (hsets n ▸ ha)⟩
  · rw [hstack, SearchStack.size_push]
    omega
  · obtain ⟨locks, hg'⟩ := h.below i hi g hg
    obtain ⟨locks', hg''⟩ := hrelocks.frame i _ hg'
    rw [hstack, SearchStack.frame?_push, if_neg (by omega)]
    exact ⟨locks', hg''⟩
  · rw [hstack, SearchStack.frame?_push] at hg
    split at hg
    · exact haction a (Option.some.inj hg ▸ hga)
    · obtain ⟨locks, hg'⟩ := hrelocks.exists_frame hg
      exact h.genuine i _ a hg' hga

end Looking

/-! ## The walk -/

namespace Ends

variable {start realSize depth : Nat} {roots : List NodeId} {root node covering : NodeId}

/-- A node of the walk is pushed. -/
theorem push_looking (ht : t.Sound p) (htidy : t.Tidy) (hcovered : x₀.stack.IsCoveredBelow t start)
    (h : Looking p t start x₀ x) (hparent : t.parent node = some m) :
    Yields (Exploration.push (p.context precision t settings) node start) x fun isNew x' =>
      Looking p t start x₀ x' ∧ (isNew = true → x'.stack.topNode? = some node) := by
  have hle := h.size_le
  have hpos := hcovered.1
  obtain ⟨last, hlast⟩ := SearchStack.exists_top (Nat.lt_of_lt_of_le hpos hle)
  unfold Exploration.push
  refine .bind (.lookUp fun entry (hentry : t.node? node = some entry) => ?_)
  obtain ⟨entry', hentry', hm⟩ := SearchTree.parent_eq_some_iff.1 hparent
  obtain rfl : entry' = entry := Option.some.inj (hentry'.symm.trans hentry)
  obtain ⟨-, a, -, -, haction, -⟩ := ht.edge node entry' m hentry hm
  have hedge : t.Edge m a node := SearchTree.edge_iff.2 ⟨entry', hentry, hm, haction⟩
  have hstep := (ht.canRun hedge).hasStep
  have hid := (ht.identity node entry' hentry).1
  rw [haction]
  refine (pushStep_widens ht hentry hlast h.genuine hstep).imp ?_
  rintro isNew x' ⟨scan, x₁, before, hwidens, hbefore, hpushed⟩
  have h₁ := h.widen ht hwidens
  cases hpushed with
  | refused _ hstack htable =>
    refine ⟨?_, fun hnew => by cases hnew⟩
    rcases htable with htable | ⟨-, htable⟩
    · exact h₁.of_eq hstack htable
    · refine h₁.reset hstack htable rfl fun n hn b hb => ?_
      rw [← NodeId.eq_of_stateId_eq (hid.symm.trans hn), SearchTree.state_eq hentry]
      exact Program.mem_enabledSet_iff.1 hb
  | visited _ _ hinstalled =>
    obtain ⟨s, spawned, acquired, released, hrelocks, -, hstack⟩ := hinstalled.stack
    -- the sets first, then the frame
    have h₂ : Looking p t start x₀ { x' with stack := x₁.stack } := by
      refine h₁.reset rfl hinstalled.table rfl fun n hn b hb => ?_
      refine h₁.canRun n b ?_
      rw [hn] at hb
      exact hb
    refine ⟨h₂.push hrelocks (fun b hb => ?_) hstack rfl, fun _ => ?_⟩
    · rwa [← Option.some.inj (show some a = some b from hb)]
    · exact hinstalled.topNode?_eq
  | entered _ hlimit hchild _ _ =>
    -- a covered node has no children
    exfalso
    rw [hwidens.stack] at hlimit
    obtain ⟨-, f, e, hf, he, hcov⟩ := h.isCoveredBelow hcovered
    have hsize : x.stack.size = start := by omega
    rw [hsize, hf, Option.some.injEq] at hlast
    obtain rfl : m = last.node := Option.some.inj (hm.symm.trans hchild)
    rw [← hlast] at hedge
    exact htidy.not_edge he hcov hedge

/-- A node of the walk is entered; the root of the walk has no frame. -/
theorem enterVirtual_looking (ht : t.Sound p) (htidy : t.Tidy)
    (hcovered : x₀.stack.IsCoveredBelow t start) (h : Looking p t start x₀ x)
    (hnode : node ≠ root → ∃ m, t.parent node = some m) :
    Yields (Exploration.enterVirtual (p.context precision t settings) realSize start root node) x
      fun below x' => Looking p t start x₀ x' ∧ (below = true →
        (node = root ∧ x'.stack = x.stack) ∨ x'.stack.topNode? = some node) := by
  unfold Exploration.enterVirtual
  split
  · rename_i hroot
    exact .pure ⟨h, fun _ => .inl ⟨hroot, rfl⟩⟩
  · rename_i hroot
    obtain ⟨m, hm⟩ := hnode hroot
    refine .bind ((push_looking ht htidy hcovered h hm).imp fun isNew x₁ hx₁ => ?_)
    split
    · rename_i hnew
      refine .bind (.get ?_)
      split
      · exact .bind (.modify (.pure ⟨hx₁.1.of_eq rfl rfl, fun hfalse => by cases hfalse⟩))
      · exact .pure ⟨hx₁.1, fun _ => .inr (hx₁.2 hnew)⟩
    · exact .pure ⟨hx₁.1, fun hfalse => by cases hfalse⟩

/-- A walk leaves alone what is below it, and what is redundant. -/
theorem walkVirtual_looking (ht : t.Sound p) (htidy : t.Tidy)
    (hcovered : x₀.stack.IsCoveredBelow t start) (h : Looking p t start x₀ x)
    (hnode : (node = root ∧ x.stack.size = start) ∨
      root.index < node.index ∧ ∃ m, t.parent node = some m) :
    Yields (Exploration.walkVirtual (p.context precision t settings) realSize depth roots root start
      node) x fun _ x' => Looking p t start x₀ x' := by
  induction depth generalizing roots root start node x₀ x with
  | zero => exact .throw trivial
  | succ depth ih =>
    unfold Exploration.walkVirtual
    refine .bind (.lookUp fun entry hentry => .bind (.modify ?_))
    have h₁ : Looking p t start x₀
        { x with stack := x.stack.unwindTo start entry.parent } :=
      h.shrink rfl (.unwindTo h.size_le)
    refine .bind ((enterVirtual_looking ht htidy hcovered h₁ fun hne => ?_).imp fun below x₂ hx₂ => ?_)
    · exact (hnode.resolve_left fun hroot => hne hroot.1).2
    obtain ⟨h₂, hbelow⟩ := hx₂
    split
    swap
    · exact .pure h₂
    rename_i hin
    split
    · rename_i covering hcovering
      split
      swap
      · exact .pure h₂
      -- a walk of its own, on top of a covered node
      refine .bind (.get ?_)
      have hcovered' : x₂.stack.IsCoveredBelow t x₂.stack.size :=
        (h₂.isCoveredBelow hcovered).restart hentry hcovering (hnode.imp_right And.left) (hbelow hin)
      refine .bind ((ih hcovered' (.refl (Nat.le_refl _) h₂.genuine h₂.canRun)
        (.inl ⟨rfl, rfl⟩)).imp fun _ x₃ h₃ => .modify ?_)
      exact (h₂.trans h₃ h₂.size_le).shrink rfl
        ((SearchStack.Prefix.truncate h₃.size_le).mono h₂.size_le)
    · refine forM h₂ fun c hc y hy => ih hcovered hy (.inr ?_)
      obtain ⟨b, hedge⟩ := ht.exists_edge_of_child hentry (List.mem_reverse.1 hc)
      have hlt := ht.index_lt hedge
      refine ⟨?_, node, hedge.1⟩
      rcases hnode with ⟨rfl, -⟩ | ⟨hroot, -⟩
      · exact hlt
      · omega

/-- The walk below the node that covers the current one changes nothing that is redundant. -/
theorem virtualExploration_sleeping {entry : SearchTree.Node ProgramState Step} (ht : t.Sound p)
    (htidy : t.Tidy) (h : Sleeping p precision t x) (htop : x.stack.topNode? = some n)
    (hn : t.node? n = some entry) (hcovering : entry.covering = some covering) :
    Yields (Exploration.virtualExploration (p.context precision t settings) covering) x fun _ x' =>
      Sleeping p precision t x' := by
  obtain ⟨w, hfollows⟩ := h.path.resolve_left (SearchStack.size_ne_zero htop)
  have hcovered : x.stack.IsCoveredBelow t x.stack.size := .of_topNode? htop hn hcovering
  have hlooking : Looking p t x.stack.size x x :=
    .refl (Nat.le_refl _) (hfollows.isGenuine ht) h.canRun
  unfold Exploration.virtualExploration
  refine .bind (.get (.bind ((walkVirtual_looking ht htidy hcovered hlooking
    (.inl ⟨rfl, rfl⟩)).imp fun _ x₁ h₁ => .modify ?_)))
  refine h.congr ⟨?_, fun i f hf => ?_⟩ h₁.sleep h₁.canRun
  · show (x₁.stack.truncate x.stack.size).size = _
    rw [SearchStack.size_truncate, Nat.min_eq_left h₁.size_le]
  · have hi := SearchStack.frame?_lt hf
    obtain ⟨locks, hf'⟩ := h₁.below i hi f hf
    refine ⟨locks, ?_⟩
    show (x₁.stack.truncate x.stack.size).frame? i = _
    rw [SearchStack.frame?_truncate, if_pos hi, hf']

end Ends

end Interleaving
