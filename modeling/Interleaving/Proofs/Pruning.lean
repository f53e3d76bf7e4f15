import Interleaving.Proofs.Nodes

/-!
# Search trees that are pruned

Pruned nodes stay where they are, with their old parents and children, and may be covered by what is no
longer in the tree. What is left of the tree is a tree all the same (`SearchTree.Rooted`), whatever states
and actions it has: growing, marking, covering and pruning keep it so. And pruning does what it is meant to
do, to exactly the nodes that it concerns (`SearchTree.tended_prunes`).
-/

namespace Interleaving
namespace SearchTree

variable {σ α : Type} {t : SearchTree σ α} {n m c x : NodeId} {a : α} {s : σ}

/-- The node that covers a node. -/
def covering (t : SearchTree σ α) (n : NodeId) : Option NodeId := (t.node? n).bind Node.covering

theorem covering_addChild {d : Node σ α} (hm : t.node? m = some d) :
    (t.addChild m a s).2.covering n = t.covering n := by
  have hmap (t : SearchTree σ α) : t.covering n = ((t.node? n).map Node.covering).getD none := by
    unfold covering
    cases t.node? n <;> rfl
  rw [hmap, hmap, map_node?_addChild hm fun _ _ => rfl]
  split
  · rename_i hn
    rw [hn, node?_size]
    rfl
  · rfl

/-! ## Rooted trees -/

/-- The live nodes form a tree that hangs from the root: what a live node lists is live, every live node
but the root is listed once, by a live parent, and nothing live is covered by a node that was pruned. -/
structure Rooted (t : SearchTree σ α) : Prop extends Linked t where
  live : SearchTree.root ∈ t.live
  identity : ∀ n e, t.node? n = some e → e.stateId = ⟨n.index⟩
  descends : ∀ n ∈ t.live, ∀ c ∈ t.children n, c ∈ t.live
  listed : ∀ n ∈ t.live, n ≠ SearchTree.root →
    ∃ m ∈ t.live, t.parent n = some m ∧ (t.children m).count n = 1
  covered : ∀ n ∈ t.live, ∀ c, t.covering n = some c → c ∈ t.live

namespace Rooted

theorem singleton (s : σ) : (SearchTree.singleton s : SearchTree σ α).Rooted := by
  have hchildren : ∀ n, (SearchTree.singleton s : SearchTree σ α).children n = [] := by
    intro n
    refine List.eq_nil_iff_forall_not_mem.2 fun c hc => ?_
    obtain ⟨e, he, hc⟩ := mem_children_iff.1 hc
    obtain ⟨-, rfl⟩ := eq_of_node?_singleton he
    cases hc
  constructor
  case toLinked =>
    exact ⟨rfl, fun n c hc => absurd hc (by simp [hchildren]),
      fun n c hc => absurd hc (by simp [hchildren])⟩
  case live => exact mem_live_iff.2 ⟨_, rfl, rfl⟩
  case identity =>
    intro n e he
    obtain ⟨rfl, rfl⟩ := eq_of_node?_singleton he
    rfl
  case descends => exact fun n _ c hc => absurd hc (by simp [hchildren])
  case listed =>
    intro n hn hne
    obtain ⟨e, he, -⟩ := mem_live_iff.1 hn
    exact absurd (eq_of_node?_singleton he).1 hne
  case covered =>
    intro n _ c hc
    obtain ⟨e, he, hc⟩ := Option.bind_eq_some_iff.1 hc
    obtain ⟨-, rfl⟩ := eq_of_node?_singleton he
    cases hc

/-- What may change in a rooted tree: lists of children may get shorter, if the live ones among the
children stay. -/
theorem of_map {t' : SearchTree σ α} {g : NodeId → Node σ α → Node σ α} (h : t.Rooted)
    (hg : ∀ n, t'.node? n = (t.node? n).map (g n))
    (hcore : ∀ n e, (g n e).parent = e.parent ∧ (g n e).stateId = e.stateId)
    (hchildren : ∀ n, (t'.children n).Sublist (t.children n))
    (hroot : SearchTree.root ∈ t'.live)
    (hlive : ∀ n ∈ t'.live, n ∈ t.live)
    (hkept : ∀ m ∈ t.live, ∀ n ∈ t.children m, n ∈ t'.live →
      m ∈ t'.live ∧ (t'.children m).count n = (t.children m).count n)
    (hdescends : ∀ m ∈ t'.live, ∀ n ∈ t'.children m, n ∈ t'.live)
    (hcovered : ∀ n ∈ t'.live, ∀ c, t'.covering n = some c → c ∈ t'.live) : t'.Rooted := by
  have hparent : ∀ n, t'.parent n = t.parent n := fun _ => parent_of_map hg fun n e => (hcore n e).1
  constructor
  case toLinked =>
    exact ⟨(hparent _).trans h.root,
      fun n c hc => (hparent c).trans (h.child n c ((hchildren n).subset hc)),
      fun n c hc => h.ages n c ((hchildren n).subset hc)⟩
  case live => exact hroot
  case identity =>
    intro n e' he'
    obtain ⟨e, he, rfl⟩ := exists_node?_of_map hg he'
    exact (hcore n e).2.trans (h.identity n e he)
  case descends => exact hdescends
  case listed =>
    intro n hn hne
    obtain ⟨m, hm, hnm, hcount⟩ := h.listed n (hlive n hn) hne
    have hmem : n ∈ t.children m := List.count_pos_iff.1 (by omega)
    obtain ⟨hm', hcount'⟩ := hkept m hm n hmem hn
    exact ⟨m, hm', (hparent n).trans hnm, hcount'.trans hcount⟩
  case covered => exact hcovered

variable (h : t.Rooted)
include h

/-! ### Growing and marking -/

theorem addChild (hm : m ∈ t.live) : (t.addChild m a s).2.Rooted := by
  obtain ⟨d, hd, -⟩ := mem_live_iff.1 hm
  constructor
  case toLinked => exact h.toLinked.addChild hd
  case live => exact (mem_live_addChild hd).2 (.inr h.live)
  case identity =>
    intro n e' he'
    rcases new_or_old_of_addChild hd he' with ⟨rfl, rfl⟩ | ⟨e, he, rfl⟩
    · rfl
    · simpa using h.identity n e he
  case descends =>
    intro n hn c hc
    rw [mem_live_addChild hd] at hn ⊢
    rcases (mem_children_addChild hd).1 hc with hc | ⟨rfl, rfl⟩
    · rcases hn with rfl | hn
      · rw [children, node?_size] at hc
        cases hc
      · exact .inr (h.descends n hn c hc)
    · exact .inl rfl
  case listed =>
    intro n hn hne
    by_cases hnew : n = ⟨t.size⟩
    · subst hnew
      refine ⟨m, (mem_live_addChild hd).2 (.inr hm), ?_, ?_⟩
      · rw [parent_addChild hd, if_pos rfl]
      · have hzero : (t.children m).count ⟨t.size⟩ = 0 :=
          List.count_eq_zero.2 fun hc => h.ne_size_of_mem_children hc rfl
        rw [children_addChild hd, if_pos rfl, List.count_append, hzero, List.count_singleton_self]
    · -- an old node is listed where it was, and only once even if that is at `m`
      have hn := ((mem_live_addChild hd).1 hn).resolve_left hnew
      obtain ⟨k, hk, hparent, hcount⟩ := h.listed n hn hne
      refine ⟨k, (mem_live_addChild hd).2 (.inr hk), ?_, ?_⟩
      · rw [parent_addChild hd, if_neg hnew, hparent]
      · rw [children_addChild hd]
        split
        · rename_i hkm
          subst hkm
          rw [List.count_append, hcount, List.count_singleton, if_neg (by simpa using Ne.symm hnew)]
        · exact hcount
  case covered =>
    intro n hn c hc
    rw [covering_addChild hd] at hc
    refine (mem_live_addChild hd).2 (.inr ?_)
    rcases (mem_live_addChild hd).1 hn with rfl | hn
    · rw [covering, node?_size] at hc
      cases hc
    · exact h.covered n hn c hc

/-- A node may be covered by a live one, and marked as expanded. -/
theorem modify {f : Node σ α → Node σ α}
    (hf : ∀ e, ∃ covering expanded, f e = { e with covering, expanded })
    (hcovered : ∀ e c, t.node? n = some e → (f e).covering = some c →
      e.covering = some c ∨ c ∈ t.live) : (t.modify n f).Rooted := by
  have hlive : ∀ {k}, k ∈ (t.modify n f).live ↔ k ∈ t.live := mem_live_modify hf
  have hchildren : ∀ k, (t.modify n f).children k = t.children k := fun k => children_modify hf
  refine h.of_map (fun _ => node?_modify_eq_map f) ?_ ?_ ?_ ?_ ?_ ?_ ?_
  · intro k e
    obtain ⟨covering, expanded, heq⟩ := exists_marks hf n k e
    rw [heq]
    exact ⟨rfl, rfl⟩
  · exact fun k => hchildren k ▸ .refl _
  · exact hlive.2 h.live
  · exact fun k hk => hlive.1 hk
  · exact fun k hk c _ _ => ⟨hlive.2 hk, by rw [hchildren]⟩
  · exact fun k hk c hc => hlive.2 (h.descends k (hlive.1 hk) c (hchildren k ▸ hc))
  · intro k hk c hc
    have hk := hlive.1 hk
    refine hlive.2 ?_
    rw [covering, node?_modify] at hc
    split at hc
    · rename_i hnk
      subst hnk
      obtain ⟨e', he', hc⟩ := Option.bind_eq_some_iff.1 hc
      obtain ⟨e, he, rfl⟩ := Option.map_eq_some_iff.1 he'
      rcases hcovered e c he hc with hc | hc
      · exact h.covered n hk c (Option.bind_eq_some_iff.2 ⟨e, he, hc⟩)
      · exact hc
    · exact h.covered k hk c hc

theorem setExpanded {b : Bool} : (t.setExpanded n b).Rooted :=
  h.modify (fun e => ⟨e.covering, b, rfl⟩) fun _ _ _ hc => .inl hc

theorem setCovering (hc : c ∈ t.live) : (t.setCovering n (some c)).Rooted :=
  h.modify (fun e => ⟨some c, e.expanded, rfl⟩) fun _ _ _ hc' => .inr (Option.some.inj hc' ▸ hc)

/-! ### Pruning -/

theorem prune : (t.prune x).Rooted := by
  have hlive : ∀ {k}, k ∈ (t.prune x).live ↔ k ∈ t.live ∧ k ∉ t.doomed x := mem_live_prune
  have hmap : ∀ n, (t.prune x).node? n = (t.node? n).map (t.cutBack x n) := fun _ => node?_prune
  -- what is listed after pruning was listed before
  have hchildren : ∀ k c, c ∈ (t.prune x).children k →
      ∃ e, t.node? k = some e ∧ c ∈ (t.cutBack x k e).children := by
    intro k c hc
    obtain ⟨e', he', hc⟩ := mem_children_iff.1 hc
    obtain ⟨e, he, rfl⟩ := exists_node?_of_map hmap he'
    exact ⟨e, he, hc⟩
  refine h.of_map hmap (fun _ _ => ⟨rfl, rfl⟩)
    (fun _ => children_sublist_of_map hmap fun _ _ _ => children_cutBack_sublist) ?_
    (fun k hk => (hlive.1 hk).1) (fun k hk c hc hstays => ?_) (fun k hk c hc => ?_) fun k hk c hc => ?_
  · exact hlive.2 ⟨h.live, h.root_not_mem_doomed⟩
  · have hstays := (hlive.1 hstays).2
    obtain ⟨e, he, hmem⟩ := mem_children_iff.1 hc
    refine ⟨hlive.2 ⟨hk, fun hdoomed => hstays (h.mem_doomed_of_mem_children hdoomed hc)⟩, ?_⟩
    rw [children_eq (node?_of_map hmap he), children_eq he, h.count_children_cutBack he hmem hstays]
  · obtain ⟨hk, hstays⟩ := hlive.1 hk
    obtain ⟨e, he, hc⟩ := hchildren k c hc
    have hmem : c ∈ t.children k := children_eq he ▸ children_cutBack_sublist.subset hc
    exact hlive.2 ⟨h.descends k hk c hmem, h.not_mem_doomed_of_mem_children he hstays hc⟩
  · obtain ⟨e', he', hc⟩ := Option.bind_eq_some_iff.1 hc
    obtain ⟨e, he, rfl⟩ := exists_node?_of_map hmap he'
    obtain ⟨hc, hstays⟩ := covering_of_cutBack hc
    exact hlive.2 ⟨h.covered k (hlive.1 hk).1 c (Option.bind_eq_some_iff.2 ⟨e, he, hc⟩), hstays⟩

/-! ### What is live -/

theorem mem_live_iff_below : n ∈ t.live ↔ t.Below SearchTree.root n := by
  constructor
  · intro hn
    induction hindex : n.index using Nat.strongRecOn generalizing n with
    | ind index ih =>
      subst hindex
      by_cases hroot : n = SearchTree.root
      · exact hroot ▸ .refl
      · obtain ⟨m, hm, -, hcount⟩ := h.listed n hn hroot
        have hmem : n ∈ t.children m := List.count_pos_iff.1 (by omega)
        exact (ih m.index (h.ages m n hmem) hm rfl).tail hmem
  · intro hbelow
    induction hbelow with
    | refl => exact h.live
    | tail _ hc ih => exact h.descends _ ih _ hc

end Rooted

/-! ## Trees that are tended -/

/-- The trees that come from a single node by giving live nodes children, marking nodes as expanded,
covering live nodes by live nodes, and pruning at live nodes. -/
inductive Tended : SearchTree σ α → Prop
  | singleton (s : σ) : Tended (.singleton s)
  | addChild {t : SearchTree σ α} {m : NodeId} (h : Tended t) (hm : m ∈ t.live) (a : α) (s : σ) :
    Tended (t.addChild m a s).2
  | expand {t : SearchTree σ α} {n : NodeId} (h : Tended t) (hn : n ∈ t.ids) :
    Tended (t.setExpanded n true)
  | cover {t : SearchTree σ α} {n c : NodeId} (h : Tended t) (hn : n ∈ t.live) (hc : c ∈ t.live) :
    Tended (t.setCovering n (some c))
  | prune {t : SearchTree σ α} {x : NodeId} (h : Tended t) (hx : x ∈ t.live) : Tended (t.prune x)

theorem Tended.rooted (h : t.Tended) : t.Rooted := by
  induction h with
  | singleton s => exact .singleton s
  | addChild _ hm a s ih => exact ih.addChild hm
  | expand _ _ ih => exact ih.setExpanded
  | cover _ _ hc ih => exact ih.setCovering hc
  | prune _ _ ih => exact ih.prune

/-- In a tree that is tended, the live nodes are those reached from the root through lists of children;
each of them but the root stands once in the list of its parent, which is live and older; nothing live is
covered by a node that was pruned; and no two nodes share the identity of their state. Pruning it at a live
node marks that node and all nodes below it, the root excepted. Besides, it uncovers what the marked nodes
cover; takes the node out of the list of its parent, which is no longer expanded; and if the node is the
root, leaves it without children, not expanded and not covered. Nothing else changes. -/
theorem tended_prunes (h : t.Tended) :
    (∀ n, n ∈ t.live ↔ t.Below root n) ∧
    (∀ n ∈ t.live, n ≠ root →
      ∃ m ∈ t.live, t.parent n = some m ∧ m.index < n.index ∧ (t.children m).count n = 1) ∧
    (∀ n ∈ t.live, ∀ c, t.covering n = some c → c ∈ t.live) ∧
    (∀ n m d e, t.node? n = some d → t.node? m = some e → d.stateId = e.stateId → n = m) ∧
    ∀ x ∈ t.live, ∃ dead : List NodeId, (∀ c, c ∈ dead ↔ t.Below x c ∧ (x = root → c ≠ root)) ∧
      ∀ n, (t.prune x).node? n = (t.node? n).map fun e =>
        { e with
          pruned := e.pruned || dead.contains n
          covering := if x = root ∧ n = root then none else e.covering.filter fun c => !dead.contains c
          children := if x = root ∧ n = root then [] else
            if x ≠ root ∧ t.parent x = some n then e.children.filter (· != x) else e.children
          expanded := e.expanded &&
            !decide (x = root ∧ n = root ∨ x ≠ root ∧ t.parent x = some n) } := by
  have hrooted := h.rooted
  refine ⟨fun n => hrooted.mem_live_iff_below, fun n hn hne => ?_, hrooted.covered,
    fun n m d e hd he heq => ?_, fun x _ => ?_⟩
  · obtain ⟨m, hm, hparent, hcount⟩ := hrooted.listed n hn hne
    have hmem : n ∈ t.children m := List.count_pos_iff.1 (by omega)
    exact ⟨m, hm, hparent, hrooted.ages m n hmem, hcount⟩
  · have hindex := (hrooted.identity n d hd).symm.trans (heq.trans (hrooted.identity m e he))
    cases n; cases m
    exact congrArg NodeId.mk (StateId.mk.inj hindex)
  · exact ⟨t.doomed x, fun c => hrooted.mem_doomed_iff, fun n => node?_prune⟩

/-- The root has two children, and the second one is covered by a child of the first. -/
def crossCovered : SearchTree Unit Nat :=
  let forked := ((singleton ()).addChild root 0 ()).2.addChild root 1 ()
  ((forked.2.addChild ⟨1⟩ 1 ()).2.setCovering ⟨2⟩ (some ⟨3⟩)).setExpanded root true

theorem tended_crossCovered : crossCovered.Tended :=
  let forked := Tended.addChild (.addChild (.singleton ()) (by decide +kernel) 0 ()) (by decide +kernel) 1 ()
  .expand (.cover (.addChild forked (by decide +kernel) 1 ()) (by decide +kernel) (by decide +kernel))
    (by decide +kernel)

/-- When the tree is pruned at the first child, the grandchild goes with it, and the second child is no
longer covered and the only one that is left. -/
theorem tended_prunes_crossCovered :
    crossCovered.Tended ∧ ⟨1⟩ ∈ crossCovered.live ∧ crossCovered.covering ⟨2⟩ = some ⟨3⟩ ∧
      ((crossCovered.prune ⟨1⟩).node? ⟨3⟩).any (fun e => e.pruned) ∧
      ((crossCovered.prune ⟨1⟩).node? ⟨2⟩).any (fun e => !e.pruned && !e.isCovered) ∧
      ((crossCovered.prune ⟨1⟩).node? root).any (fun e => e.children == [⟨2⟩] && !e.expanded) := by
  have hlive : (⟨1⟩ : NodeId) ∈ crossCovered.live := by decide +kernel
  obtain ⟨-, -, -, -, hprunes⟩ := tended_prunes tended_crossCovered
  obtain ⟨dead, hdead, hnode⟩ := hprunes ⟨1⟩ hlive
  have hgrandchild : (⟨3⟩ : NodeId) ∈ dead :=
    (hdead _).2 ⟨.single (show _ ∈ crossCovered.children _ by decide +kernel), by decide⟩
  have hother : ∀ n, n ∉ crossCovered.subtree ⟨1⟩ → n ∉ dead := by
    intro n hn hmem
    exact hn (tended_crossCovered.rooted.mem_subtree_iff.2 ((hdead n).1 hmem).1)
  have hsecond : (⟨2⟩ : NodeId) ∉ dead := hother _ (by decide +kernel)
  have hnodes : crossCovered.node? ⟨3⟩ = some (.fresh (some ⟨1⟩) (some 1) () ⟨3⟩) ∧
      crossCovered.node? ⟨2⟩ = some { Node.fresh (some root) (some 1) () ⟨2⟩ with covering := some ⟨3⟩ } ∧
      crossCovered.node? root =
        some { Node.fresh none none () ⟨0⟩ with children := [⟨1⟩, ⟨2⟩], expanded := true } :=
    ⟨rfl, rfl, rfl⟩
  obtain ⟨hthree, htwo, hroot⟩ := hnodes
  refine ⟨tended_crossCovered, hlive, by decide +kernel, ?_, ?_, ?_⟩
  · rw [hnode, hthree]
    simp [hgrandchild]
  · rw [hnode, htwo]
    simp [Node.fresh, Node.isCovered, hgrandchild, hsecond]
  · have hparent : crossCovered.parent ⟨1⟩ = some root := by decide +kernel
    rw [hnode, hroot, hparent]
    simp [Node.fresh, root]

end SearchTree
end Interleaving
