import Mathlib.Data.List.Induction
import Interleaving.Proofs.Nodes
import Interleaving.Proofs.Reduction

/-!
# Sound search trees

A search tree of a program is sound (`SearchTree.Sound`) if its root holds the initial state, every
other node holds the state after the step on its edge, and no live node has a child that was pruned.
Growing, marking and pruning keep a tree sound, and the path to a node is a run to its state
(`Sound.exists_run`).
-/

namespace Interleaving
namespace SearchTree

/-! ## Edges -/

section Nodes

variable {σ α : Type} {t : SearchTree σ α} {n m k : NodeId}

/-- The node `n` is a child of `m` by `a`. -/
def Edge (t : SearchTree σ α) (m : NodeId) (a : α) (n : NodeId) : Prop :=
  t.parent n = some m ∧ t.action n = some a

theorem edge_iff {a : α} :
    t.Edge m a n ↔ ∃ e, t.node? n = some e ∧ e.parent = some m ∧ e.action = some a := by
  simp only [Edge, parent_eq_some_iff, action_eq_some_iff]
  constructor
  · rintro ⟨⟨e, he, hm⟩, ⟨e', he', ha⟩⟩
    rw [he] at he'
    cases he'
    exact ⟨e, he, hm, ha⟩
  · rintro ⟨e, he, hm, ha⟩
    exact ⟨⟨e, he, hm⟩, ⟨e, he, ha⟩⟩

/-- A node is the child of one node, by one step. -/
theorem Edge.unique {a b : α} (h : t.Edge m a n) (h' : t.Edge k b n) : m = k ∧ a = b :=
  ⟨Option.some.inj (h.1.symm.trans h'.1), Option.some.inj (h.2.symm.trans h'.2)⟩

theorem Edge.exists_node {a : α} (h : t.Edge m a n) : ∃ e, t.node? n = some e := by
  obtain ⟨e, he, -⟩ := edge_iff.1 h
  exact ⟨e, he⟩

/-- Covering a node or marking it as expanded changes no edge. -/
theorem edge_modify {a : α} {c : NodeId} {f : Node σ α → Node σ α}
    (hf : ∀ e, ∃ covering expanded, f e = { e with covering, expanded }) :
    (t.modify n f).Edge m a c ↔ t.Edge m a c := by
  have hmap (t : SearchTree σ α) : t.Edge m a c ↔
      (t.node? c).map (fun e => (e.parent, e.action)) = some (some m, some a) := by
    simp [edge_iff]
  rw [hmap, hmap, map_node?_modify hf fun _ _ _ => rfl]

theorem edge_setExpanded {a : α} {c : NodeId} {b : Bool} :
    (t.setExpanded n b).Edge m a c ↔ t.Edge m a c :=
  edge_modify fun e => ⟨e.covering, b, rfl⟩

/-- The nodes of `t` stand in `t'` too; at most their children and marks have changed. -/
def Extends (t t' : SearchTree σ α) : Prop :=
  ∀ n e, t.node? n = some e → ∃ children expanded,
    t'.node? n = some { e with children, expanded }

theorem Extends.refl (t : SearchTree σ α) : t.Extends t := fun _ e h => ⟨e.children, e.expanded, h⟩

theorem Extends.trans {t' t'' : SearchTree σ α} (h : t.Extends t') (h' : t'.Extends t'') :
    t.Extends t'' := by
  intro n e he
  obtain ⟨cs, x, he'⟩ := h n e he
  obtain ⟨cs', x', he''⟩ := h' n _ he'
  exact ⟨cs', x', he''⟩

theorem extends_setExpanded {b : Bool} : t.Extends (t.setExpanded n b) := by
  intro k e hk
  rw [setExpanded, node?_modify]
  split
  · exact ⟨e.children, b, by rw [hk]; rfl⟩
  · exact ⟨e.children, e.expanded, hk⟩

theorem extends_addChild {a : α} {s : σ} {d : Node σ α} (hm : t.node? m = some d) :
    t.Extends (t.addChild m a s).2 := by
  intro k e hk
  rw [node?_addChild_old hm hk]
  unfold adopting
  split
  · exact ⟨_, e.expanded, rfl⟩
  · exact ⟨e.children, e.expanded, rfl⟩

theorem edge_addChild {a : α} {s : σ} {d : Node σ α} (hm : t.node? m = some d) :
    (t.addChild m a s).2.Edge m a ⟨t.size⟩ :=
  edge_iff.2 ⟨_, node?_addChild_new hm, rfl, rfl⟩

theorem Extends.edge_iff {t' : SearchTree σ α} {a : α} {e : Node σ α} (h : t.Extends t')
    (hn : t.node? n = some e) : t'.Edge m a n ↔ t.Edge m a n := by
  obtain ⟨cs, x, hn'⟩ := h n e hn
  simp only [SearchTree.edge_iff, hn, hn', Option.some.injEq, exists_eq_left']

/-- No edge is lost. -/
theorem Extends.edge {t' : SearchTree σ α} {a : α} (h : t.Extends t') (hedge : t.Edge m a n) :
    t'.Edge m a n := by
  obtain ⟨e, hn⟩ := hedge.exists_node
  exact (h.edge_iff hn).2 hedge

end Nodes

/-! ## Sound trees -/

variable {p : Program} {t : SearchTree ProgramState Step} {n m c : NodeId} {a : Step}

/-- The state of a node. -/
def state (t : SearchTree ProgramState Step) (n : NodeId) : ProgramState :=
  match t.node? n with
  | some e => e.state
  | none => default

theorem state_eq {e : Node ProgramState Step} (h : t.node? n = some e) : t.state n = e.state := by
  rw [state, h]

/-- Covering a node or marking it as expanded changes no state. -/
theorem state_modify {f : Node ProgramState Step → Node ProgramState Step}
    (hf : ∀ e, ∃ covering expanded, f e = { e with covering, expanded }) :
    (t.modify n f).state m = t.state m := by
  have hmap (t : SearchTree ProgramState Step) :
      t.state m = ((t.node? m).map Node.state).getD default := by
    unfold state
    cases t.node? m <;> rfl
  rw [hmap, hmap, map_node?_modify hf fun _ _ _ => rfl]

/-- The tree holds runs of the program, and no live node has a child that was pruned. -/
structure Sound (p : Program) (t : SearchTree ProgramState Step) : Prop where
  root : ∃ e, t.node? SearchTree.root = some e ∧ e.parent = none ∧ e.action = none ∧
    e.state = p.initialState ∧ e.pruned = false
  identity : ∀ n e, t.node? n = some e → e.stateId = ⟨n.index⟩ ∧ e.feasible
  edge : ∀ n e m, t.node? n = some e → e.parent = some m → ∃ d a, t.node? m = some d ∧
    m.index < n.index ∧ e.action = some a ∧ p.CanRun d.state a ∧ e.state = d.state.after a
  orphan : ∀ n e, t.node? n = some e → e.parent = none → n = SearchTree.root
  child : ∀ n e, t.node? n = some e → ∀ c ∈ e.children, t.parent c = some n
  live : ∀ n e, t.node? n = some e → e.pruned = false →
    ∀ c ∈ e.children, ∃ d, t.node? c = some d ∧ d.pruned = false

theorem sound_singleton (p : Program) : Sound p (singleton p.initialState) := by
  constructor
  case root => exact ⟨_, rfl, rfl, rfl, rfl, rfl⟩
  case identity =>
    intro n e h
    obtain ⟨rfl, rfl⟩ := eq_of_node?_singleton h
    exact ⟨rfl, rfl⟩
  case edge =>
    intro n e m h hm
    obtain ⟨rfl, rfl⟩ := eq_of_node?_singleton h
    cases hm
  case orphan => exact fun n e h _ => (eq_of_node?_singleton h).1
  case child =>
    intro n e h c hc
    obtain ⟨rfl, rfl⟩ := eq_of_node?_singleton h
    cases hc
  case live =>
    intro n e h _ c hc
    obtain ⟨rfl, rfl⟩ := eq_of_node?_singleton h
    cases hc

theorem Extends.state_eq {t' : SearchTree ProgramState Step} {e : Node ProgramState Step}
    (h : t.Extends t') (hn : t.node? n = some e) : t'.state n = t.state n := by
  obtain ⟨cs, x, hn'⟩ := h n e hn
  rw [SearchTree.state_eq hn, SearchTree.state_eq hn']

namespace Sound

variable (h : t.Sound p)
include h

/-- The states of different nodes are told apart. -/
theorem eq_of_stateId_eq {d e : Node ProgramState Step} (hm : t.node? m = some d)
    (hn : t.node? n = some e) (hid : d.stateId = e.stateId) : m = n ∧ d = e := by
  rw [(h.identity m d hm).1, (h.identity n e hn).1] at hid
  obtain rfl := NodeId.eq_of_stateId_eq hid
  exact ⟨rfl, Option.some.inj (hm.symm.trans hn)⟩

theorem canRun (he : t.Edge m a n) : p.CanRun (t.state m) a := by
  obtain ⟨e, hn, hm, ha⟩ := edge_iff.1 he
  obtain ⟨d, a', hd, -, ha', hrun, -⟩ := h.edge n e m hn hm
  rw [ha, Option.some.injEq] at ha'
  rw [state_eq hd, ha']
  exact hrun

theorem state_edge (he : t.Edge m a n) : t.state n = (t.state m).after a := by
  obtain ⟨e, hn, hm, ha⟩ := edge_iff.1 he
  obtain ⟨d, a', hd, -, ha', -, hstate⟩ := h.edge n e m hn hm
  rw [ha, Option.some.injEq] at ha'
  rw [state_eq hn, state_eq hd, hstate, ha']

theorem index_lt (he : t.Edge m a n) : m.index < n.index := by
  obtain ⟨e, hn, hm, ha⟩ := edge_iff.1 he
  obtain ⟨d, a', hd, hlt, -⟩ := h.edge n e m hn hm
  exact hlt

theorem exists_edge {e : Node ProgramState Step} (hn : t.node? n = some e)
    (hm : e.parent = some m) : ∃ a, t.Edge m a n := by
  obtain ⟨-, a, -, -, ha, -⟩ := h.edge n e m hn hm
  exact ⟨a, edge_iff.2 ⟨e, hn, hm, ha⟩⟩

/-- A listed child is reached by a step. -/
theorem exists_edge_of_child {e : Node ProgramState Step} {c : NodeId} (hn : t.node? n = some e)
    (hc : c ∈ e.children) : ∃ a, t.Edge n a c := by
  obtain ⟨d, hd, hparent⟩ := parent_eq_some_iff.1 (h.child n e hn c hc)
  exact h.exists_edge hd hparent

/-- A node with an action is the child of another one. -/
theorem exists_parent_of_action {e : Node ProgramState Step} (hn : t.node? n = some e)
    (ha : e.action = some a) : ∃ m, e.parent = some m ∧ t.Edge m a n := by
  cases hparent : e.parent with
  | none =>
    obtain ⟨r, hr, -, hnone, -⟩ := h.root
    rw [h.orphan n e hn hparent, hr, Option.some.injEq] at hn
    rw [← hn, hnone] at ha
    cases ha
  | some m => exact ⟨m, rfl, edge_iff.2 ⟨e, hn, hparent, ha⟩⟩

theorem linked : t.Linked where
  root := by
    obtain ⟨e, he, hparent, -⟩ := h.root
    rw [parent, he]
    exact hparent
  child n c hc := by
    obtain ⟨e, he, hc⟩ := mem_children_iff.1 hc
    exact h.child n e he c hc
  ages n c hc := by
    obtain ⟨e, he, hc⟩ := mem_children_iff.1 hc
    obtain ⟨a, hedge⟩ := h.exists_edge_of_child he hc
    exact h.index_lt hedge

theorem state_root : t.state SearchTree.root = p.initialState := by
  obtain ⟨e, he, -, -, hstate, -⟩ := h.root
  rw [state_eq he, hstate]

/-- Along a path of the tree, a run leads from state to state. -/
theorem run_of_walk {w : List Step} (hw : Walk t.Edge n w m) :
    p.IsRun (t.state n) w ∧ t.state m = (t.state n).afterAll w :=
  hw.isRun (fun _ _ _ => h.canRun) fun _ _ _ => h.state_edge

theorem index_le_of_walk {w : List Step} (hw : Walk t.Edge n w m) : n.index ≤ m.index := by
  induction hw with
  | nil => exact Nat.le_refl _
  | cons hedge _ ih => exact Nat.le_trans (Nat.le_of_lt (h.index_lt hedge)) ih

/-- Only one path of the tree leads from a node to another one. -/
theorem walk_unique {v w : List Step} (hv : Walk t.Edge n v m) (hw : Walk t.Edge n w m) : v = w := by
  -- a path with a last edge leads to a younger node
  have hlater : ∀ {u : List Step} {a : Step}, ¬Walk t.Edge n (u ++ [a]) n := fun hu => by
    obtain ⟨k, hk, hedge⟩ := Walk.snoc_iff.1 hu
    exact absurd (h.index_lt hedge) (Nat.not_lt_of_le (h.index_le_of_walk hk))
  induction v using List.reverseRecOn generalizing w m with
  | nil =>
    cases hv
    rcases List.eq_nil_or_concat w with rfl | ⟨w, a, rfl⟩
    · rfl
    · exact absurd (List.concat_eq_append ▸ hw) hlater
  | append_singleton v a ih =>
    rcases List.eq_nil_or_concat w with rfl | ⟨w, b, rfl⟩
    · cases hw
      exact absurd hv hlater
    -- the last edge is the same, since a node is the child of one node only
    rw [List.concat_eq_append] at hw ⊢
    obtain ⟨k, hk, hedge⟩ := Walk.snoc_iff.1 hv
    obtain ⟨k', hk', hedge'⟩ := Walk.snoc_iff.1 hw
    obtain ⟨rfl, rfl⟩ := hedge.unique hedge'
    rw [ih hk hk']

/-- Every node is reached from the root. -/
theorem exists_walk {e : Node ProgramState Step} (hn : t.node? n = some e) :
    ∃ w, Walk t.Edge SearchTree.root w n := by
  induction hindex : n.index using Nat.strong_induction_on generalizing n e with
  | _ index ih =>
  subst hindex
  cases hm : e.parent with
  | none =>
    obtain rfl := h.orphan n e hn hm
    exact ⟨[], .nil _⟩
  | some m =>
    obtain ⟨d, a, hd, hlt, ha, -⟩ := h.edge n e m hn hm
    obtain ⟨w, hw⟩ := ih m.index hlt hd rfl
    exact ⟨w ++ [a], Walk.snoc_iff.2 ⟨m, hw, edge_iff.2 ⟨e, hn, hm, ha⟩⟩⟩

/-- Every state in the tree is reached by a run. -/
theorem exists_run {e : Node ProgramState Step} (hn : t.node? n = some e) :
    ∃ w, p.IsRun p.initialState w ∧ e.state = p.initialState.afterAll w := by
  obtain ⟨w, hw⟩ := h.exists_walk hn
  obtain ⟨hrun, hstate⟩ := h.run_of_walk hw
  rw [h.state_root] at hrun hstate
  exact ⟨w, hrun, by rw [← state_eq hn, hstate]⟩

/-- A path in a larger tree to a node of the tree is a path of the tree. -/
theorem walk_of_extends {t' : SearchTree ProgramState Step} (ht : t.Extends t')
    {e : Node ProgramState Step} {w : List Step} (hm : t.node? m = some e)
    (hw : Walk t'.Edge n w m) : Walk t.Edge n w m ∧ ∃ d, t.node? n = some d := by
  induction hw with
  | nil => exact ⟨.nil _, e, hm⟩
  | cons hedge _ ih =>
    obtain ⟨hw, d, hc⟩ := ih hm
    have hedge := (ht.edge_iff hc).1 hedge
    obtain ⟨d', hd', hparent, -⟩ := SearchTree.edge_iff.1 hedge
    obtain ⟨d'', -, hd'', -⟩ := h.edge _ d' _ hd' hparent
    exact ⟨.cons hedge hw, d'', hd''⟩

/-! ## Growing and pruning -/

omit h in
/-- A change of marks and children keeps a tree sound, if it only takes children away, and prunes the
children of a node that it prunes. -/
theorem of_map {t' : SearchTree ProgramState Step}
    {g : NodeId → Node ProgramState Step → Node ProgramState Step} (h : t.Sound p)
    (hg : ∀ n, t'.node? n = (t.node? n).map (g n))
    (hcore : ∀ n e, (g n e).parent = e.parent ∧ (g n e).action = e.action ∧
      (g n e).state = e.state ∧ (g n e).stateId = e.stateId ∧ (g n e).feasible = e.feasible)
    (hchildren : ∀ n e, (g n e).children ⊆ e.children)
    (hroot : ∀ e, t.node? SearchTree.root = some e → (g SearchTree.root e).pruned = e.pruned)
    (hpruned : ∀ n e, (g n e).pruned = false → e.pruned = false)
    (hlive : ∀ n e c d, t.node? n = some e → t.node? c = some d → c ∈ (g n e).children →
      (g n e).pruned = false → d.pruned = false → (g c d).pruned = false) : t'.Sound p := by
  have hparent : ∀ n, t'.parent n = t.parent n := fun _ => parent_of_map hg fun n e => (hcore n e).1
  constructor
  case root =>
    obtain ⟨e, he, hnone, haction, hstate, hp⟩ := h.root
    obtain ⟨hparent', haction', hstate', -⟩ := hcore SearchTree.root e
    exact ⟨_, node?_of_map hg he, hparent'.trans hnone, haction'.trans haction, hstate'.trans hstate,
      (hroot e he).trans hp⟩
  case identity =>
    intro n e' he'
    obtain ⟨e, he, rfl⟩ := exists_node?_of_map hg he'
    obtain ⟨-, -, -, hid, hfeasible⟩ := hcore n e
    rw [hid, hfeasible]
    exact h.identity n e he
  case edge =>
    intro n e' m he' hm
    obtain ⟨e, he, rfl⟩ := exists_node?_of_map hg he'
    obtain ⟨hparent', haction', hstate', -⟩ := hcore n e
    obtain ⟨d, a, hd, hlt, ha, hrun, hstate⟩ := h.edge n e m he (hparent' ▸ hm)
    have hbefore := (hcore m d).2.2.1
    -- the states at both ends stay, and so does the step that leads from one to the other
    refine ⟨g m d, a, node?_of_map hg hd, hlt, haction'.trans ha, ?_, ?_⟩
    · rwa [hbefore]
    · rw [hstate', hbefore, hstate]
  case orphan =>
    intro n e' he' hm
    obtain ⟨e, he, rfl⟩ := exists_node?_of_map hg he'
    exact h.orphan n e he ((hcore n e).1 ▸ hm)
  case child =>
    intro n e' he' c hc
    obtain ⟨e, he, rfl⟩ := exists_node?_of_map hg he'
    exact (hparent c).trans (h.child n e he c (hchildren n e hc))
  case live =>
    intro n e' he' hp c hc
    obtain ⟨e, he, rfl⟩ := exists_node?_of_map hg he'
    obtain ⟨d, hd, hdp⟩ := h.live n e he (hpruned n e hp) c (hchildren n e hc)
    exact ⟨g c d, node?_of_map hg hd, hlive n e c d he hd hc hp hdp⟩

/-- Covering a node or marking it as expanded keeps a tree sound. -/
theorem modify {f : Node ProgramState Step → Node ProgramState Step}
    (hf : ∀ e, ∃ covering expanded, f e = { e with covering, expanded }) : (t.modify n f).Sound p := by
  have hpruned : ∀ k e, (if n = k then f e else e).pruned = e.pruned :=
    proj_marks hf (fun _ _ _ => rfl) n
  have hchildren : ∀ k e, (if n = k then f e else e).children = e.children :=
    proj_marks hf (fun _ _ _ => rfl) n
  refine of_map h (fun _ => node?_modify_eq_map f) (fun k e => ?_)
    (fun k e => hchildren k e ▸ List.Subset.refl _) (fun e _ => hpruned _ e)
    (fun k e hp => (hpruned k e).symm.trans hp) fun _ _ c d _ _ _ _ hd => (hpruned c d).trans hd
  obtain ⟨covering, expanded, heq⟩ := exists_marks hf n k e
  rw [heq]
  exact ⟨rfl, rfl, rfl, rfl, rfl⟩

theorem setExpanded {b : Bool} : (t.setExpanded n b).Sound p :=
  h.modify fun e => ⟨e.covering, b, rfl⟩

theorem setCovering {covering : Option NodeId} : (t.setCovering n covering).Sound p :=
  h.modify fun e => ⟨covering, e.expanded, rfl⟩

/-- A node may get a child by a step that can run there. -/
theorem addChild {d : Node ProgramState Step} (hm : t.node? m = some d) (ha : p.CanRun d.state a) :
    (t.addChild m a (d.state.after a)).2.Sound p := by
  have hnew := node?_addChild_new (a := a) (s := d.state.after a) hm
  have hold := fun {k e} => node?_addChild_old (k := k) (a := a) (s := d.state.after a) (e := e) hm
  constructor
  case root =>
    obtain ⟨e, he, hroot⟩ := h.root
    exact ⟨_, hold he, by simpa using hroot⟩
  case identity =>
    intro k e' he'
    rcases new_or_old_of_addChild hm he' with ⟨rfl, rfl⟩ | ⟨e, he, rfl⟩
    · exact ⟨rfl, rfl⟩
    · simpa using h.identity k e he
  case edge =>
    intro k e' j he' hj
    rcases new_or_old_of_addChild hm he' with ⟨rfl, rfl⟩ | ⟨e, he, rfl⟩
    · obtain rfl : m = j := Option.some.inj hj
      exact ⟨_, a, hold hm, index_lt_size hm, rfl, by simpa using ha, by simp [Node.fresh]⟩
    · rw [parent_adopting] at hj
      obtain ⟨d', a', hd', hlt, ha', hrun, hstate⟩ := h.edge k e j he hj
      exact ⟨_, a', hold hd', hlt, by simpa using ha', by simpa using hrun, by simpa using hstate⟩
  case orphan =>
    intro k e' he' hk
    rcases new_or_old_of_addChild hm he' with ⟨rfl, rfl⟩ | ⟨e, he, rfl⟩
    · cases hk
    · exact h.orphan k e he (by simpa using hk)
  case child =>
    intro k e' he' c hc
    rcases new_or_old_of_addChild hm he' with ⟨rfl, rfl⟩ | ⟨e, he, rfl⟩
    · cases hc
    rcases mem_children_adopting.1 hc with hc | ⟨rfl, rfl⟩
    · obtain ⟨d', hd', hparent⟩ := parent_eq_some_iff.1 (h.child k e he c hc)
      exact parent_eq_some_iff.2 ⟨_, hold hd', by simpa using hparent⟩
    · exact parent_eq_some_iff.2 ⟨_, hnew, rfl⟩
  case live =>
    intro k e' he' hp c hc
    rcases new_or_old_of_addChild hm he' with ⟨rfl, rfl⟩ | ⟨e, he, rfl⟩
    · cases hc
    rcases mem_children_adopting.1 hc with hc | ⟨rfl, rfl⟩
    · obtain ⟨d', hd', hlive⟩ := h.live k e he (by simpa using hp) c hc
      exact ⟨_, hold hd', by simpa using hlive⟩
    · exact ⟨_, hnew, rfl⟩

theorem prune : (t.prune n).Sound p := by
  refine h.of_map (fun _ => node?_prune) (fun _ _ => ⟨rfl, rfl, rfl, rfl, rfl⟩)
    (fun _ _ => children_cutBack_sublist.subset) (fun e _ => ?_)
    (fun _ _ hp => (pruned_cutBack_eq_false_iff.1 hp).1) fun k e c d he _ hc hp hd => ?_
  · simp [cutBack, h.linked.root_not_mem_doomed]
  · have hk := (pruned_cutBack_eq_false_iff.1 hp).2
    exact pruned_cutBack_eq_false_iff.2 ⟨hd, h.linked.not_mem_doomed_of_mem_children he hk hc⟩

end Sound

/-! ## Covered nodes -/

/-- The node `n` is covered by `c`. -/
def Covers (t : SearchTree ProgramState Step) (c n : NodeId) : Prop :=
  ∃ e, t.node? n = some e ∧ e.covering = some c

theorem Covers.unique {d : NodeId} (h : t.Covers c n) (h' : t.Covers d n) : c = d := by
  obtain ⟨e, he, hc⟩ := h
  obtain ⟨e', he', hd⟩ := h'
  obtain rfl := Option.some.inj (he.symm.trans he')
  exact Option.some.inj (hc.symm.trans hd)

theorem covers_iff {e : Node ProgramState Step} (he : t.node? n = some e) :
    t.Covers c n ↔ e.covering = some c := by
  refine ⟨fun ⟨e', he', hc⟩ => ?_, fun hc => ⟨e, he, hc⟩⟩
  rwa [Option.some.inj (he.symm.trans he')]

theorem Covers.of_setExpanded {b : Bool} (h : (t.setExpanded m b).Covers c n) : t.Covers c n := by
  obtain ⟨e', he', hcovering⟩ := h
  rw [setExpanded, node?_modify] at he'
  split at he'
  · obtain ⟨e, he, rfl⟩ := Option.map_eq_some_iff.1 he'
    exact ⟨e, he, hcovering⟩
  · exact ⟨e', he', hcovering⟩

/-- A new child is not covered. -/
theorem Covers.of_addChild {d : Node ProgramState Step} {s : ProgramState} (hm : t.node? m = some d)
    (h : (t.addChild m a s).2.Covers c n) : t.Covers c n := by
  obtain ⟨e', he', hcovering⟩ := h
  rcases new_or_old_of_addChild hm he' with ⟨rfl, rfl⟩ | ⟨e, he, rfl⟩
  · cases hcovering
  · exact ⟨e, he, by simpa using hcovering⟩

/-- Covered nodes have no children. -/
def Bare (t : SearchTree ProgramState Step) : Prop :=
  ∀ n e, t.node? n = some e → e.isCovered → e.children = []

theorem Bare.not_covers {e : Node ProgramState Step} {k : NodeId} (h : t.Bare) (he : t.node? n = some e)
    (hk : k ∈ e.children) (c : NodeId) : ¬t.Covers c n := by
  intro hcovers
  have hempty := h n e he (by rw [Node.isCovered, (covers_iff he).1 hcovers]; rfl)
  rw [hempty] at hk
  cases hk

theorem not_isCovered {e : Node ProgramState Step} (he : t.node? n = some e)
    (h : ∀ c, ¬t.Covers c n) : e.isCovered = false := by
  rw [Node.isCovered, Option.isSome_eq_false_iff, Option.isNone_iff_eq_none]
  exact Option.eq_none_iff_forall_ne_some.2 fun c hc => h c ⟨e, he, hc⟩

/-! ### Trees without covered nodes -/

/-- No node is covered. -/
def Uncovered (t : SearchTree ProgramState Step) : Prop :=
  ∀ n e, t.node? n = some e → e.covering = none

namespace Uncovered

theorem singleton (s : ProgramState) : (SearchTree.singleton s : SearchTree _ Step).Uncovered := by
  intro n e he
  rw [(eq_of_node?_singleton he).2]
  rfl

variable (h : t.Uncovered)
include h

theorem modify {f : Node ProgramState Step → Node ProgramState Step}
    (hf : ∀ e, e.covering = none → (f e).covering = none) : (t.modify n f).Uncovered := by
  intro k e he
  rw [node?_modify] at he
  split at he
  · obtain ⟨e, he', rfl⟩ := Option.map_eq_some_iff.1 he
    exact hf e (h k e he')
  · exact h k e he

theorem addChild {d : Node ProgramState Step} {s : ProgramState} (hm : t.node? m = some d) :
    (t.addChild m a s).2.Uncovered := by
  intro k e' he'
  rcases new_or_old_of_addChild hm he' with ⟨rfl, rfl⟩ | ⟨e, he, rfl⟩
  · rfl
  · simpa using h k e he

theorem prune : (t.prune n).Uncovered := by
  intro k e' he'
  obtain ⟨e, he, rfl⟩ := exists_node?_of_map (fun _ => node?_prune) he'
  simp [cutBack, h k e he]

theorem not_covers : ¬t.Covers c n := by
  rintro ⟨e, he, hcovering⟩
  rw [h n e he] at hcovering
  cases hcovering

theorem bare : t.Bare := by
  intro n e he hcovered
  rw [Node.isCovered, h n e he] at hcovered
  cases hcovered

end Uncovered

end SearchTree
end Interleaving
