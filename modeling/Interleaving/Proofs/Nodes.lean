import Mathlib.Logic.Relation
import Interleaving.SearchTree

/-!
# Nodes of search trees

What a change of a search tree makes of each node: growing (`node?_addChild`), marking (`node?_modify`),
discarding (`node?_discard`) and pruning (`node?_prune`). Pruning concerns the nodes below a node
(`Below`), which are the ones that the program collects if nodes know their parents and are younger than
these (`Linked.mem_subtree_iff`).
-/

namespace Interleaving

/-- Nodes are told apart by their states. -/
theorem NodeId.eq_of_stateId_eq {m n : NodeId} (h : (⟨m.index⟩ : StateId) = ⟨n.index⟩) : m = n := by
  cases m
  cases n
  rw [StateId.mk.injEq] at h
  exact congrArg NodeId.mk h

namespace SearchTree

variable {σ α : Type} {t : SearchTree σ α} {n m k c x : NodeId} {a : α} {s : σ}

/-! ## Looking at a node -/

theorem index_lt_size {e : Node σ α} (h : t.node? n = some e) : n.index < t.size :=
  (Array.getElem?_eq_some_iff.1 h).1

theorem node?_size : t.node? ⟨t.size⟩ = none :=
  Option.eq_none_iff_forall_ne_some.2 fun _ he => Nat.lt_irrefl _ (index_lt_size he)

/-- A node of the tree is none that is still to come. -/
theorem ne_size {e : Node σ α} (h : t.node? n = some e) : n ≠ ⟨t.size⟩ := by
  rintro rfl
  rw [node?_size] at h
  cases h

theorem eq_of_node?_singleton {e : Node σ α} (h : (singleton s : SearchTree σ α).node? n = some e) :
    n = root ∧ e = .fresh none none s ⟨0⟩ := by
  obtain ⟨i⟩ := n
  obtain ⟨hi, rfl⟩ := Array.getElem?_eq_some_iff.1 h
  obtain rfl : i = 0 := Nat.lt_one_iff.1 hi
  exact ⟨rfl, rfl⟩

theorem children_eq {e : Node σ α} (h : t.node? n = some e) : t.children n = e.children := by
  rw [children, h]

theorem mem_children_iff : c ∈ t.children n ↔ ∃ e, t.node? n = some e ∧ c ∈ e.children := by
  unfold children
  cases t.node? n <;> simp

theorem parent_eq_some_iff : t.parent n = some m ↔ ∃ e, t.node? n = some e ∧ e.parent = some m := by
  simp [parent, Option.bind_eq_some_iff]

theorem action_eq_some_iff : t.action n = some a ↔ ∃ e, t.node? n = some e ∧ e.action = some a := by
  simp [action, Option.bind_eq_some_iff]

theorem mem_ids_iff : n ∈ t.ids ↔ ∃ e, t.node? n = some e := by
  constructor
  · intro h
    obtain ⟨i, hi, rfl⟩ := List.mem_map.1 h
    exact ⟨_, Array.getElem?_eq_getElem (List.mem_range.1 hi)⟩
  · rintro ⟨e, he⟩
    exact List.mem_map.2 ⟨n.index, List.mem_range.2 (index_lt_size he), rfl⟩

theorem mem_live_iff : n ∈ t.live ↔ ∃ e, t.node? n = some e ∧ e.pruned = false := by
  simp only [live, List.mem_filter, Option.any_eq_true, Bool.not_eq_true']
  refine and_iff_right_of_imp ?_
  rintro ⟨e, he, -⟩
  exact mem_ids_iff.2 ⟨e, he⟩

/-- The leaves are the live nodes without children that are not covered. -/
theorem mem_leaves_iff : n ∈ t.leaves ↔ ∃ e, t.node? n = some e ∧ e.pruned = false ∧
    e.children = [] ∧ e.covering = none := by
  simp only [leaves, List.mem_filter, mem_live_iff, Option.any_eq_true, Bool.and_eq_true,
    List.isEmpty_iff, Bool.not_eq_true', Node.isCovered, Option.isSome_eq_false_iff,
    Option.isNone_iff_eq_none]
  constructor
  · rintro ⟨⟨e, he, hpruned⟩, e', he', hchildren, hcovering⟩
    obtain rfl : e = e' := Option.some.inj (he.symm.trans he')
    exact ⟨e, he, hpruned, hchildren, hcovering⟩
  · rintro ⟨e, he, hpruned, hchildren, hcovering⟩
    exact ⟨⟨e, he, hpruned⟩, e, he, hchildren, hcovering⟩

/-! ## What a change shows -/

section Mapping

variable {t' : SearchTree σ α} {g : NodeId → Node σ α → Node σ α}
  (hg : ∀ n, t'.node? n = (t.node? n).map (g n))
include hg

theorem node?_of_map {e : Node σ α} (hn : t.node? n = some e) : t'.node? n = some (g n e) := by
  rw [hg, hn, Option.map_some]

theorem exists_node?_of_map {e' : Node σ α} (hn : t'.node? n = some e') :
    ∃ e, t.node? n = some e ∧ g n e = e' := by
  rwa [hg, Option.map_eq_some_iff] at hn

theorem parent_of_map (hparent : ∀ n e, (g n e).parent = e.parent) : t'.parent n = t.parent n := by
  rw [parent, parent, hg]
  cases t.node? n with
  | none => rfl
  | some e => exact hparent n e

theorem children_sublist_of_map
    (hchildren : ∀ n e, t.node? n = some e → (g n e).children.Sublist e.children) :
    (t'.children n).Sublist (t.children n) := by
  unfold children
  rw [hg]
  cases hn : t.node? n with
  | none => exact .refl []
  | some e => exact hchildren n e hn

end Mapping

theorem node?_modify (f : Node σ α → Node σ α) :
    (t.modify n f).node? m = if n = m then (t.node? m).map f else t.node? m := by
  have hindex : n.index = m.index ↔ n = m := by
    cases n; cases m
    simp
  simp only [node?, modify, Array.getElem?_modify, hindex]

/-- What a change at `n` makes of each node. -/
theorem node?_modify_eq_map (f : Node σ α → Node σ α) :
    (t.modify n f).node? m = (t.node? m).map fun e => if n = m then f e else e := by
  rw [node?_modify]
  split <;> simp

@[simp] theorem size_modify (f : Node σ α → Node σ α) : (t.modify n f).size = t.size :=
  Array.size_modify

section Marking

variable {f : Node σ α → Node σ α} (hf : ∀ e, ∃ covering expanded, f e = { e with covering, expanded })
include hf

/-- A change of marks at one node changes nothing but marks at any node. -/
theorem exists_marks (n m : NodeId) (e : Node σ α) :
    ∃ covering expanded, (if n = m then f e else e) = { e with covering, expanded } := by
  split
  · exact hf e
  · exact ⟨e.covering, e.expanded, rfl⟩

/-- What has nothing to do with marks stays the same at any node. -/
theorem proj_marks {β : Type} {φ : Node σ α → β}
    (hφ : ∀ e covering expanded, φ { e with covering, expanded } = φ e) (n m : NodeId) (e : Node σ α) :
    φ (if n = m then f e else e) = φ e := by
  obtain ⟨covering, expanded, heq⟩ := exists_marks hf n m e
  rw [heq, hφ]

theorem map_node?_modify {β : Type} {φ : Node σ α → β}
    (hφ : ∀ e covering expanded, φ { e with covering, expanded } = φ e) :
    ((t.modify n f).node? m).map φ = (t.node? m).map φ := by
  rw [node?_modify_eq_map, Option.map_map]
  exact congrArg (Option.map · _) (funext (proj_marks hf hφ n m))

theorem parent_modify : (t.modify n f).parent m = t.parent m :=
  parent_of_map (fun _ => node?_modify_eq_map f) fun k e => proj_marks hf (fun _ _ _ => rfl) n k e

theorem children_modify : (t.modify n f).children m = t.children m := by
  have hmap (t : SearchTree σ α) : t.children m = ((t.node? m).map Node.children).getD [] := by
    unfold children
    cases t.node? m <;> rfl
  rw [hmap, hmap, map_node?_modify hf fun _ _ _ => rfl]

theorem mem_live_modify : m ∈ (t.modify n f).live ↔ m ∈ t.live := by
  have hmap (t : SearchTree σ α) : m ∈ t.live ↔ (t.node? m).map Node.pruned = some false := by
    rw [mem_live_iff, Option.map_eq_some_iff]
  rw [hmap, hmap, map_node?_modify hf fun _ _ _ => rfl]

end Marking

theorem mem_live_setExpanded {b : Bool} : m ∈ (t.setExpanded n b).live ↔ m ∈ t.live :=
  mem_live_modify fun e => ⟨e.covering, b, rfl⟩

@[simp] theorem size_addChild : (t.addChild m a s).2.size = t.size + 1 := by
  rw [addChild, size_modify, size, Array.size_push]
  rfl

theorem node?_addChild {e : Node σ α} (hm : t.node? m = some e) :
    (t.addChild m a s).2.node? k =
      if k = ⟨t.size⟩ then some (.fresh (some m) (some a) s ⟨t.size⟩)
      else if k = m then some { e with children := e.children ++ [⟨t.size⟩] }
      else t.node? k := by
  have hlt := index_lt_size hm
  -- the child is made first, and then listed at its parent
  have hgrown : ∀ j : NodeId,
      (⟨t.nodes.push (.fresh (some m) (some a) s ⟨t.size⟩)⟩ : SearchTree σ α).node? j =
        if j.index = t.size then some (.fresh (some m) (some a) s ⟨t.size⟩) else t.node? j := by
    intro j
    simp only [node?, Array.getElem?_push]
    rfl
  show (SearchTree.modify _ m _).node? k = _
  rw [node?_modify, hgrown]
  by_cases hk : k = ⟨t.size⟩
  · subst hk
    have hne : m ≠ ⟨t.size⟩ := by
      rintro rfl
      exact absurd hlt (Nat.lt_irrefl _)
    simp [hne]
  · have hk' : k.index ≠ t.size := fun h => hk (by cases k; exact congrArg NodeId.mk h)
    by_cases hkm : k = m
    · subst hkm
      simp [hk, hk', hm]
    · simp [hk, hk', hkm, Ne.symm hkm]

/-- What a new child `c` of `m` makes of the node `n`, which was `e`. -/
def adopting (m c n : NodeId) (e : Node σ α) : Node σ α :=
  if n = m then { e with children := e.children ++ [c] } else e

section Adopting

variable {e : Node σ α}

/-- Only the list of children changes. -/
theorem proj_adopting {β : Type} {φ : Node σ α → β} (hφ : ∀ e children, φ { e with children } = φ e) :
    φ (adopting m c n e) = φ e := by
  unfold adopting
  split
  · exact hφ e _
  · rfl

@[simp] theorem parent_adopting : (adopting m c n e).parent = e.parent :=
  proj_adopting fun _ _ => rfl

@[simp] theorem action_adopting : (adopting m c n e).action = e.action :=
  proj_adopting fun _ _ => rfl

@[simp] theorem state_adopting : (adopting m c n e).state = e.state :=
  proj_adopting fun _ _ => rfl

@[simp] theorem stateId_adopting : (adopting m c n e).stateId = e.stateId :=
  proj_adopting fun _ _ => rfl

@[simp] theorem feasible_adopting : (adopting m c n e).feasible = e.feasible :=
  proj_adopting fun _ _ => rfl

@[simp] theorem covering_adopting : (adopting m c n e).covering = e.covering :=
  proj_adopting fun _ _ => rfl

@[simp] theorem expanded_adopting : (adopting m c n e).expanded = e.expanded :=
  proj_adopting fun _ _ => rfl

@[simp] theorem pruned_adopting : (adopting m c n e).pruned = e.pruned :=
  proj_adopting fun _ _ => rfl

theorem mem_children_adopting :
    k ∈ (adopting m c n e).children ↔ k ∈ e.children ∨ n = m ∧ k = c := by
  unfold adopting
  split
  · rename_i hn
    simp [hn]
  · rename_i hn
    simp [hn]

end Adopting

section Growing

variable {d : Node σ α} (hm : t.node? m = some d)
include hm

theorem node?_addChild_new :
    (t.addChild m a s).2.node? ⟨t.size⟩ = some (.fresh (some m) (some a) s ⟨t.size⟩) := by
  rw [node?_addChild hm, if_pos rfl]

theorem node?_addChild_old {e : Node σ α} (hk : t.node? k = some e) :
    (t.addChild m a s).2.node? k = some (adopting m ⟨t.size⟩ k e) := by
  rw [node?_addChild hm, if_neg (ne_size hk), adopting]
  split
  · rename_i hkm
    obtain rfl : d = e := Option.some.inj (hm.symm.trans (hkm ▸ hk))
    rfl
  · exact hk

/-- A node of the tree that has grown is the new child, or was there before. -/
theorem new_or_old_of_addChild {e' : Node σ α} (hk : (t.addChild m a s).2.node? k = some e') :
    k = ⟨t.size⟩ ∧ e' = .fresh (some m) (some a) s ⟨t.size⟩ ∨
      ∃ e, t.node? k = some e ∧ e' = adopting m ⟨t.size⟩ k e := by
  cases hold : t.node? k with
  | some e => exact .inr ⟨e, rfl, Option.some.inj (hk.symm.trans (node?_addChild_old hm hold))⟩
  | none =>
    by_cases hnew : k = ⟨t.size⟩
    · subst hnew
      exact .inl ⟨rfl, Option.some.inj (hk.symm.trans (node?_addChild_new hm))⟩
    · have hkm : k ≠ m := by
        rintro rfl
        rw [hm] at hold
        cases hold
      rw [node?_addChild hm, if_neg hnew, if_neg hkm, hold] at hk
      cases hk

/-- What does not depend on the children of a node is as before, but for the new child. -/
theorem map_node?_addChild {β : Type} {φ : Node σ α → β}
    (hφ : ∀ e children, φ { e with children } = φ e) :
    ((t.addChild m a s).2.node? n).map φ =
      if n = ⟨t.size⟩ then some (φ (.fresh (some m) (some a) s ⟨t.size⟩)) else (t.node? n).map φ := by
  split
  · rename_i hn
    rw [hn, node?_addChild_new hm, Option.map_some]
  rename_i hn
  cases hold : t.node? n with
  | some e => rw [node?_addChild_old hm hold, Option.map_some, Option.map_some, proj_adopting hφ]
  | none =>
    cases hk : (t.addChild m a s).2.node? n with
    | none => rfl
    | some e' =>
      rcases new_or_old_of_addChild hm hk with ⟨hnew, -⟩ | ⟨e, he, -⟩
      · exact absurd hnew hn
      · rw [hold] at he
        cases he

/-- A new child is live, and which other nodes are live is as before. -/
theorem mem_live_addChild : n ∈ (t.addChild m a s).2.live ↔ n = ⟨t.size⟩ ∨ n ∈ t.live := by
  have hmap (t : SearchTree σ α) : n ∈ t.live ↔ (t.node? n).map Node.pruned = some false := by
    rw [mem_live_iff, Option.map_eq_some_iff]
  rw [hmap, hmap, map_node?_addChild hm fun _ _ => rfl]
  split
  · rename_i hn
    simp [hn, Node.fresh]
  · rename_i hn
    simp [hn]

theorem parent_addChild :
    (t.addChild m a s).2.parent n = if n = ⟨t.size⟩ then some m else t.parent n := by
  have hmap (t : SearchTree σ α) : t.parent n = ((t.node? n).map Node.parent).getD none := by
    unfold parent
    cases t.node? n <;> rfl
  rw [hmap, hmap, map_node?_addChild hm fun _ _ => rfl]
  split <;> rfl

theorem children_addChild : (t.addChild m a s).2.children n =
    if n = m then t.children m ++ [⟨t.size⟩] else t.children n := by
  unfold children
  rw [node?_addChild hm]
  by_cases hn : n = ⟨t.size⟩
  · simp [hn, (ne_size hm).symm, node?_size, Node.fresh]
  · by_cases hnm : n = m
    · subst hnm
      simp [hn, hm]
    · simp [hn, hnm]

theorem mem_children_addChild :
    k ∈ (t.addChild m a s).2.children n ↔ k ∈ t.children n ∨ n = m ∧ k = ⟨t.size⟩ := by
  rw [children_addChild hm]
  split
  · rename_i hn
    simp [hn]
  · rename_i hn
    simp [hn]

end Growing

/-- Discarding marks the nodes and uncovers what they cover. -/
theorem node?_discard (dead : List NodeId) : (t.discard dead).node? n = (t.node? n).map fun e =>
    { e with
      pruned := e.pruned || dead.contains n
      covering := e.covering.filter fun c => !dead.contains c } := by
  -- the nodes are marked one after the other, and uncovered all at once
  have hmark : ∀ (l : List NodeId) (t : SearchTree σ α),
      (l.foldl (fun t n => t.modify n fun e => { e with pruned := true }) t).node? n =
        (t.node? n).map fun e => { e with pruned := e.pruned || l.contains n } := by
    intro l
    induction l with
    | nil => intro t; simp
    | cons m l ih =>
      intro t
      rw [List.foldl_cons, ih, node?_modify]
      by_cases hm : m = n
      · subst hm
        cases t.node? m <;> simp
      · simp [hm, Ne.symm hm]
  have hmap : ∀ (t : SearchTree σ α) (f : Node σ α → Node σ α),
      (t.mapNodes f).node? n = (t.node? n).map f := by
    intro t f
    simp [node?, mapNodes]
  rw [discard, hmap, hmark, Option.map_map]
  congr 1
  funext e
  obtain ⟨parent, action, state, stateId, children, covering, feasible, expanded, pruned⟩ := e
  cases covering with
  | none => simp
  | some c => by_cases hc : c ∈ dead <;> simp [hc, Option.filter_some]

/-! ## The nodes below a node -/

/-- The node `c` is reached from `n` through lists of children; every node is below itself. -/
def Below (t : SearchTree σ α) (n c : NodeId) : Prop :=
  Relation.ReflTransGen (fun m c => c ∈ t.children m) n c

theorem mem_downwards_self {limit : Nat} : n ∈ t.downwards limit n := by
  cases limit <;> simp [downwards]

theorem below_of_mem_downwards {limit : Nat} (h : c ∈ t.downwards limit n) : t.Below n c := by
  induction limit generalizing n with
  | zero =>
    obtain rfl : c = n := by simpa [downwards] using h
    exact .refl
  | succ limit ih =>
    rcases List.mem_cons.1 h with rfl | h
    · exact .refl
    · obtain ⟨k, hk, hc⟩ := List.mem_flatMap.1 h
      exact .head hk (ih hc)

/-- Nodes in lists of children, of live nodes or not, know their parents and are younger. -/
structure Linked (t : SearchTree σ α) : Prop where
  root : t.parent SearchTree.root = none
  child : ∀ n, ∀ c ∈ t.children n, t.parent c = some n
  ages : ∀ n, ∀ c ∈ t.children n, n.index < c.index

/-- The nodes that pruning at `x` takes out of the tree. -/
def doomed (t : SearchTree σ α) (x : NodeId) : List NodeId :=
  if x = root then (t.children x).flatMap t.subtree else t.subtree x

/-- What pruning at `x` makes of the node `n`, which was `e`. -/
def cutBack (t : SearchTree σ α) (x n : NodeId) (e : Node σ α) : Node σ α :=
  { e with
    pruned := e.pruned || (t.doomed x).contains n
    covering := if x = root ∧ n = root then none else e.covering.filter fun c => !(t.doomed x).contains c
    children := if x = root ∧ n = root then [] else
      if x ≠ root ∧ t.parent x = some n then e.children.filter (· != x) else e.children
    expanded := e.expanded && !decide (x = root ∧ n = root ∨ x ≠ root ∧ t.parent x = some n) }

theorem node?_prune : (t.prune x).node? n = (t.node? n).map (t.cutBack x n) := by
  unfold prune cutBack doomed
  -- pruning at the root keeps the root itself
  split
  · rename_i hx
    subst hx
    rw [node?_discard, node?_modify]
    split
    · rename_i hn
      subst hn
      simp [Function.comp_def]
    · rename_i hn
      simp [Ne.symm hn]
  · rename_i hx
    rw [node?_discard]
    split
    · rename_i m hm
      rw [node?_modify]
      split
      · rename_i hmn
        subst hmn
        simp [hx, hm, Function.comp_def]
      · rename_i hmn
        simp [hx, hm, hmn]
    · rename_i hm
      simp [hx, hm]

theorem children_cutBack_sublist {e : Node σ α} : (t.cutBack x n e).children.Sublist e.children := by
  unfold cutBack
  split
  · exact List.nil_sublist _
  · split
    · exact List.filter_sublist
    · exact .refl _

theorem pruned_cutBack_eq_false_iff {e : Node σ α} :
    (t.cutBack x n e).pruned = false ↔ e.pruned = false ∧ n ∉ t.doomed x := by
  simp [cutBack]

theorem covering_of_cutBack {e : Node σ α} (h : (t.cutBack x n e).covering = some c) :
    e.covering = some c ∧ c ∉ t.doomed x := by
  unfold cutBack at h
  split at h
  · cases h
  · simpa using Option.filter_eq_some_iff.1 h

theorem mem_live_prune : n ∈ (t.prune x).live ↔ n ∈ t.live ∧ n ∉ t.doomed x := by
  rw [mem_live_iff, mem_live_iff, node?_prune]
  cases t.node? n with
  | none => simp
  | some e => simp [pruned_cutBack_eq_false_iff]

namespace Linked

variable (h : t.Linked)
include h

/-- A node in a list of children is none that is still to come. -/
theorem ne_size_of_mem_children (hc : c ∈ t.children m) : c ≠ ⟨t.size⟩ := by
  obtain ⟨e, he, -⟩ := parent_eq_some_iff.1 (h.child m c hc)
  exact ne_size he

theorem addChild {d : Node σ α} (hm : t.node? m = some d) : (t.addChild m a s).2.Linked where
  root := by
    have hroot : SearchTree.root ≠ ⟨t.size⟩ := fun heq =>
      Nat.ne_of_lt (Nat.zero_lt_of_lt (index_lt_size hm)) (congrArg NodeId.index heq)
    rw [parent_addChild hm, if_neg hroot, h.root]
  child n c hc := by
    rw [parent_addChild hm]
    rcases (mem_children_addChild hm).1 hc with hc | ⟨rfl, rfl⟩
    · rw [if_neg (h.ne_size_of_mem_children hc), h.child n c hc]
    · rw [if_pos rfl]
  ages n c hc := by
    rcases (mem_children_addChild hm).1 hc with hc | ⟨rfl, rfl⟩
    · exact h.ages n c hc
    · exact index_lt_size hm

theorem ne_root_of_mem_children (hc : c ∈ t.children m) : c ≠ SearchTree.root := by
  rintro rfl
  have hparent := h.child m _ hc
  rw [h.root] at hparent
  cases hparent

/-- No path downwards is longer than it may be. -/
theorem mem_downwards (hbelow : t.Below n c) {limit : Nat} (hlimit : t.size ≤ limit + n.index) :
    c ∈ t.downwards limit n := by
  induction hbelow using Relation.ReflTransGen.head_induction_on generalizing limit with
  | refl => exact mem_downwards_self
  | head hk hbelow ih =>
    rename_i n k
    cases limit with
    | zero =>
      obtain ⟨e, he, -⟩ := mem_children_iff.1 hk
      have := index_lt_size he
      omega
    | succ limit =>
      have := h.ages n k hk
      exact List.mem_cons_of_mem _ (List.mem_flatMap.2 ⟨k, hk, ih (by omega)⟩)

theorem mem_subtree_iff : c ∈ t.subtree n ↔ t.Below n c :=
  ⟨below_of_mem_downwards, fun hbelow => h.mem_downwards hbelow (by omega)⟩

theorem index_le (hbelow : t.Below n c) : n.index ≤ c.index := by
  induction hbelow with
  | refl => exact Nat.le_refl _
  | tail _ hc ih => exact Nat.le_trans ih (Nat.le_of_lt (h.ages _ _ hc))

/-- The node and all nodes below it go; the root itself stays. -/
theorem mem_doomed_iff :
    c ∈ t.doomed x ↔ t.Below x c ∧ (x = SearchTree.root → c ≠ SearchTree.root) := by
  unfold doomed
  split
  · rename_i hx
    subst hx
    simp only [List.mem_flatMap, h.mem_subtree_iff, true_imp_iff]
    constructor
    · rintro ⟨k, hk, hc⟩
      refine ⟨.head hk hc, ?_⟩
      rintro rfl
      have hlt := h.ages _ _ hk
      have hle := h.index_le hc
      omega
    · rintro ⟨hc, hne⟩
      rcases hc.cases_head with rfl | ⟨k, hk, hc⟩
      · exact absurd rfl hne
      · exact ⟨k, hk, hc⟩
  · rename_i hx
    simp [h.mem_subtree_iff, hx]

theorem root_not_mem_doomed : SearchTree.root ∉ t.doomed x := by
  intro hdoomed
  obtain ⟨hbelow, hne⟩ := h.mem_doomed_iff.1 hdoomed
  -- nothing is older than the root
  have hle : x.index ≤ 0 := h.index_le hbelow
  cases x
  exact hne (congrArg NodeId.mk (Nat.le_zero.1 hle)) rfl

/-- The children of a node that goes do so too. -/
theorem mem_doomed_of_mem_children (hm : m ∈ t.doomed x) (hc : c ∈ t.children m) :
    c ∈ t.doomed x := by
  rw [h.mem_doomed_iff] at hm ⊢
  exact ⟨hm.1.tail hc, fun _ => h.ne_root_of_mem_children hc⟩

/-- A node that goes is on no list of a node that stays. -/
theorem not_mem_doomed_of_mem_children {e : Node σ α} (he : t.node? m = some e)
    (hm : m ∉ t.doomed x) (hc : c ∈ (t.cutBack x m e).children) : c ∉ t.doomed x := by
  have hmem : c ∈ t.children m := children_eq he ▸ children_cutBack_sublist.subset hc
  have hparent := h.child m c hmem
  rw [h.mem_doomed_iff] at hm ⊢
  rintro ⟨hbelow, -⟩
  rcases hbelow.cases_tail with rfl | ⟨k, hk, hck⟩
  · simp [cutBack, hparent, h.ne_root_of_mem_children hmem] at hc
  · obtain rfl : k = m := Option.some.inj ((h.child k c hck).symm.trans hparent)
    refine hm ⟨hk, ?_⟩
    rintro rfl rfl
    simp [cutBack] at hc

/-- A child that stays is still on the list as often as it was. -/
theorem count_children_cutBack {e : Node σ α} (he : t.node? m = some e) (hmem : c ∈ e.children)
    (hc : c ∉ t.doomed x) : (t.cutBack x m e).children.count c = e.children.count c := by
  have hmem : c ∈ t.children m := children_eq he ▸ hmem
  have hroot : c ≠ SearchTree.root := h.ne_root_of_mem_children hmem
  rw [h.mem_doomed_iff] at hc
  unfold cutBack
  split
  · rename_i hm
    obtain ⟨rfl, rfl⟩ := hm
    exact absurd ⟨.single hmem, fun _ => hroot⟩ hc
  · split
    · refine List.count_filter ?_
      rw [bne_iff_ne]
      rintro rfl
      exact hc ⟨.refl, fun _ => hroot⟩
    · rfl

end Linked

end SearchTree
end Interleaving
