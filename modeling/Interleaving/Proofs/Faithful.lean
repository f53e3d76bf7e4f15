import Interleaving.Proofs.Trees

/-!
# Faithful search trees

Pruning leaves nodes behind that are no longer part of the tree. What can be relied on concerns the
live ones (`SearchTree.Faithful`): the parent of a live node is live and lists it, the edges below a
node have different steps, and the node that covers a live one is live too, older, and has the same
state. Growing, covering and pruning keep a tree faithful.
-/

namespace Interleaving
namespace SearchTree

variable {p : Program} {t t' : SearchTree ProgramState Step} {n m c : NodeId} {a : Step}

/-- The children of a live node are live. -/
theorem Sound.mem_live_of_child {e : Node ProgramState Step} (ht : t.Sound p) (hlive : n ∈ t.live)
    (hn : t.node? n = some e) (hc : c ∈ e.children) : c ∈ t.live := by
  obtain ⟨d, hd, hpruned⟩ := mem_live_iff.1 hlive
  obtain rfl : d = e := Option.some.inj (hd.symm.trans hn)
  exact mem_live_iff.2 (ht.live n d hn hpruned c hc)

/-! ## Faithful trees -/

/-- What holds of the live nodes of a tree. -/
structure Faithful (t : SearchTree ProgramState Step) : Prop where
  listed : ∀ n e m, t.node? n = some e → e.pruned = false → e.parent = some m →
    ∃ d, t.node? m = some d ∧ d.pruned = false ∧ n ∈ d.children
  distinct : ∀ n, (t.children n).Pairwise fun c d =>
    (t.action c).map Action.key ≠ (t.action d).map Action.key
  covered : ∀ n e c, t.node? n = some e → e.pruned = false → e.covering = some c →
    ∃ d, t.node? c = some d ∧ d.pruned = false ∧ c.index < n.index ∧ d.state = e.state

namespace Faithful

theorem singleton (s : ProgramState) : (SearchTree.singleton s : SearchTree _ Step).Faithful := by
  constructor
  case listed =>
    intro n e m he _ hm
    rw [(eq_of_node?_singleton he).2] at hm
    cases hm
  case distinct =>
    intro n
    unfold children
    split
    · rename_i e he
      rw [(eq_of_node?_singleton he).2]
      exact .nil
    · exact .nil
  case covered =>
    intro n e c he _ hc
    rw [(eq_of_node?_singleton he).2] at hc
    cases hc

variable (h : t.Faithful)
include h

/-- A change of marks and children keeps a tree faithful, if it only takes children away that it
prunes, and no node that something live is listed at or covered by. -/
theorem of_map {g : NodeId → Node ProgramState Step → Node ProgramState Step}
    (hg : ∀ n, t'.node? n = (t.node? n).map (g n))
    (hcore : ∀ n e, t.node? n = some e → (g n e).parent = e.parent ∧ (g n e).action = e.action ∧
      (g n e).state = e.state)
    (hpruned : ∀ n e, t.node? n = some e → (g n e).pruned = false → e.pruned = false)
    (hchildren : ∀ n e, t.node? n = some e → (g n e).children.Sublist e.children)
    (hlisted : ∀ n e m d, t.node? n = some e → (g n e).pruned = false → t.node? m = some d →
      d.pruned = false → n ∈ d.children → (g m d).pruned = false ∧ n ∈ (g m d).children)
    (hcovered : ∀ n e c, t.node? n = some e → (g n e).pruned = false → (g n e).covering = some c →
      ∃ d, t.node? c = some d ∧ (g c d).pruned = false ∧ c.index < n.index ∧ d.state = e.state) :
    t'.Faithful := by
  have haction : ∀ n, t'.action n = t.action n := by
    intro n
    rw [action, action, hg]
    cases hn : t.node? n with
    | none => rfl
    | some e => exact (hcore n e hn).2.1
  constructor
  case listed =>
    intro n e' m he' hp hm
    obtain ⟨e, he, rfl⟩ := exists_node?_of_map hg he'
    obtain ⟨d, hd, hdp, hmem⟩ := h.listed n e m he (hpruned n e he hp) ((hcore n e he).1 ▸ hm)
    obtain ⟨hdp', hmem'⟩ := hlisted n e m d he hp hd hdp hmem
    exact ⟨_, node?_of_map hg hd, hdp', hmem'⟩
  case distinct =>
    intro n
    simp only [haction]
    exact (h.distinct n).sublist (children_sublist_of_map hg hchildren)
  case covered =>
    intro n e' c he' hp hc
    obtain ⟨e, he, rfl⟩ := exists_node?_of_map hg he'
    obtain ⟨d, hd, hdp, hlt, hstate⟩ := hcovered n e c he hp hc
    refine ⟨_, node?_of_map hg hd, hdp, hlt, ?_⟩
    rw [(hcore c d hd).2.2, (hcore n e he).2.2, hstate]

/-- A node may be covered by an older live one with the same state, and marked as expanded. -/
theorem modify {f : Node ProgramState Step → Node ProgramState Step}
    (hf : ∀ e, ∃ covering expanded, f e = { e with covering, expanded })
    (hcovered : ∀ e c, t.node? n = some e → (f e).covering = some c → e.covering = some c ∨
      ∃ d, t.node? c = some d ∧ d.pruned = false ∧ c.index < n.index ∧ d.state = e.state) :
    (t.modify n f).Faithful := by
  have hpruned : ∀ k e, (if n = k then f e else e).pruned = e.pruned :=
    proj_marks hf (fun _ _ _ => rfl) n
  have hchildren : ∀ k e, (if n = k then f e else e).children = e.children :=
    proj_marks hf (fun _ _ _ => rfl) n
  refine h.of_map (fun _ => node?_modify_eq_map f) ?_ ?_ ?_ ?_ ?_
  · intro k e _
    obtain ⟨covering, expanded, heq⟩ := exists_marks hf n k e
    rw [heq]
    exact ⟨rfl, rfl, rfl⟩
  · exact fun k e _ hp => hpruned k e ▸ hp
  · exact fun k e _ => hchildren k e ▸ .refl _
  · intro k e m d _ _ _ hdp hmem
    rw [hpruned, hchildren]
    exact ⟨hdp, hmem⟩
  · intro k e c he hp hc
    simp only [hpruned] at hp ⊢
    have hold : e.covering = some c → ∃ d, t.node? c = some d ∧ d.pruned = false ∧
        c.index < k.index ∧ d.state = e.state := h.covered k e c he hp
    split at hc
    · rename_i hk
      subst hk
      exact (hcovered e c he hc).elim hold id
    · exact hold hc

theorem setExpanded {b : Bool} : (t.setExpanded n b).Faithful :=
  h.modify (fun e => ⟨e.covering, b, rfl⟩) fun _ _ _ hc => .inl hc

theorem setCovering {e d : Node ProgramState Step} (hn : t.node? n = some e)
    (hc : t.node? c = some d) (hlive : d.pruned = false) (hlt : c.index < n.index)
    (hstate : d.state = e.state) : (t.setCovering n (some c)).Faithful := by
  refine h.modify (fun e => ⟨some c, e.expanded, rfl⟩) fun e' c' he' hc' => .inr ?_
  obtain rfl : c = c' := Option.some.inj hc'
  obtain rfl : e = e' := Option.some.inj (hn.symm.trans he')
  exact ⟨d, hc, hlive, hlt, hstate⟩

/-- A live node may get a child by a step by which it has none. -/
theorem addChild {d : Node ProgramState Step} {s : ProgramState} (ht : t.Sound p)
    (hm : t.node? m = some d) (hlive : d.pruned = false) (hnew : t.childWithAction m a = none) :
    (t.addChild m a s).2.Faithful := by
  have hchild := node?_addChild_new (a := a) (s := s) hm
  have hold := fun {k e} => node?_addChild_old (k := k) (a := a) (s := s) (e := e) hm
  -- the children that a node had keep their steps
  have haction : ∀ {j c}, c ∈ t.children j → (t.addChild m a s).2.action c = t.action c := by
    intro j c hc
    obtain ⟨e, he, hc⟩ := mem_children_iff.1 hc
    obtain ⟨e', he', -⟩ := parent_eq_some_iff.1 (ht.child j e he c hc)
    rw [action, action, hold he', he']
    simp
  constructor
  case listed =>
    intro k e' j he' hp hj
    rcases new_or_old_of_addChild hm he' with ⟨rfl, rfl⟩ | ⟨e, he, rfl⟩
    · obtain rfl : m = j := Option.some.inj hj
      exact ⟨_, hold hm, by simpa using hlive, mem_children_adopting.2 (.inr ⟨rfl, rfl⟩)⟩
    · rw [parent_adopting] at hj
      obtain ⟨d', hd', hlive', hmem⟩ := h.listed k e j he (by simpa using hp) hj
      exact ⟨_, hold hd', by simpa using hlive', mem_children_adopting.2 (.inl hmem)⟩
  case distinct =>
    intro k
    have hdistinct : (t.children k).Pairwise fun c d =>
        ((t.addChild m a s).2.action c).map Action.key ≠
          ((t.addChild m a s).2.action d).map Action.key := by
      refine (h.distinct k).imp_of_mem fun hc hd hne => ?_
      rwa [haction hc, haction hd]
    rw [children_addChild hm]
    split
    · rename_i hk
      subst hk
      rw [List.pairwise_append]
      refine ⟨hdistinct, List.pairwise_singleton _ _, fun c hc j hj => ?_⟩
      -- by the new step, the node had no child
      obtain rfl : j = ⟨t.size⟩ := by simpa using hj
      have hkey := List.find?_eq_none.1 hnew c hc
      rw [haction hc, action, action, hchild]
      exact fun heq => hkey (beq_iff_eq.2 heq)
    · exact hdistinct
  case covered =>
    intro k e' c he' hp hc
    rcases new_or_old_of_addChild hm he' with ⟨rfl, rfl⟩ | ⟨e, he, rfl⟩
    · cases hc
    · rw [covering_adopting] at hc
      obtain ⟨d', hd', hlive', hlt, hstate⟩ := h.covered k e c he (by simpa using hp) hc
      exact ⟨_, hold hd', by simpa using hlive', hlt, by simpa using hstate⟩

theorem prune (ht : t.Sound p) : (t.prune n).Faithful := by
  refine h.of_map (fun _ => node?_prune) (fun _ _ _ => ⟨rfl, rfl, rfl⟩)
    (fun _ _ _ hp => (pruned_cutBack_eq_false_iff.1 hp).1) (fun _ _ _ => children_cutBack_sublist)
    (fun k e m d he hp hd hdp hmem => ?_) fun k e c he hp hc => ?_
  · have hk := (pruned_cutBack_eq_false_iff.1 hp).2
    have hm : m ∉ t.doomed n := fun hdoomed =>
      hk (ht.linked.mem_doomed_of_mem_children hdoomed (children_eq hd ▸ hmem))
    refine ⟨pruned_cutBack_eq_false_iff.2 ⟨hdp, hm⟩, List.count_pos_iff.1 ?_⟩
    rw [ht.linked.count_children_cutBack hd hmem hk]
    exact List.count_pos_iff.2 hmem
  · obtain ⟨hc, hstays⟩ := covering_of_cutBack hc
    obtain ⟨d, hd, hdp, hlt, hstate⟩ := h.covered k e c he (pruned_cutBack_eq_false_iff.1 hp).1 hc
    exact ⟨d, hd, pruned_cutBack_eq_false_iff.2 ⟨hdp, hstays⟩, hlt, hstate⟩

end Faithful

end SearchTree
end Interleaving
