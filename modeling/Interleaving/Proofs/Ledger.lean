import Mathlib.Data.List.Induction
import Interleaving.Proofs.Calls
import Interleaving.Proofs.Faithful

/-!
# The nodes entered in a round

A round enters each node at most once. What carries this is a ledger of the nodes entered so far
(`Ledger`): they are the ones marked as visited, the step that leads to one is redundant at its parent
from then on, and neither an edge of an earlier round nor an offered step leads to a visited node. Walks
below covering nodes enter nothing, if covered nodes have no children (`SearchTree.Bare`).
-/

namespace Interleaving

variable {p : Program} {precision : Precision} {t t' : SearchTree ProgramState Step}
  {settings : Settings} {χ : Type} {x x' : Exploration Step χ} {n m c : NodeId}
  {entry : SearchTree.Node ProgramState Step} {a : Step}

/-! ## Trees whose covered nodes have no children -/

namespace SearchTree

namespace Bare

variable (h : t.Bare)
include h

theorem prune (n : NodeId) : (t.prune n).Bare := by
  intro k e' he' hcovered
  obtain ⟨e, he, rfl⟩ := exists_node?_of_map (fun _ => node?_prune) he'
  obtain ⟨c, hc⟩ := Option.isSome_iff_exists.1 hcovered
  have hbare := h k e he (Option.isSome_iff_exists.2 ⟨c, (covering_of_cutBack hc).1⟩)
  exact List.eq_nil_of_subset_nil (hbare ▸ children_cutBack_sublist.subset)

end Bare

/-! ## Live nodes -/

namespace Faithful

/-- The parent of a live node is live, and lists it among its children. -/
theorem exists_parent (h : t.Faithful) (hn : n ∈ t.live) (hedge : t.Edge m a n) :
    ∃ e, t.node? m = some e ∧ e.pruned = false ∧ n ∈ e.children := by
  obtain ⟨d, hd, hpruned⟩ := mem_live_iff.1 hn
  obtain ⟨d', hd', hparent⟩ := parent_eq_some_iff.1 hedge.1
  obtain rfl : d = d' := Option.some.inj (hd.symm.trans hd')
  exact h.listed n d m hd hpruned hparent

theorem mem_children (h : t.Faithful) (hn : n ∈ t.live) (hedge : t.Edge m a n) : n ∈ t.children m := by
  obtain ⟨e, he, -, hmem⟩ := h.exists_parent hn hedge
  rwa [children_eq he]

theorem parent_mem_live (h : t.Faithful) (hn : n ∈ t.live) (hedge : t.Edge m a n) : m ∈ t.live := by
  obtain ⟨e, he, hlive, -⟩ := h.exists_parent hn hedge
  exact mem_live_iff.2 ⟨e, he, hlive⟩

/-- A step leads from a live node to at most one live node. -/
theorem eq_of_edge {k : NodeId} (h : t.Faithful) (hn : n ∈ t.live) (hk : k ∈ t.live)
    (hedge : t.Edge m a n) (hedge' : t.Edge m a k) : n = k := by
  have hkeys : ((t.children m).map fun c => (t.action c).map Action.key).Nodup :=
    List.pairwise_map.2 (h.distinct m)
  refine List.inj_on_of_nodup_map hkeys (h.mem_children hn hedge) (h.mem_children hk hedge') ?_
  rw [hedge.2, hedge'.2]

/-- The steps on the way from the root tell the live nodes apart. -/
theorem eq_of_walk {w : List Step} {k : NodeId} (h : t.Faithful) (hn : n ∈ t.live) (hk : k ∈ t.live)
    (hw : Walk t.Edge SearchTree.root w n) (hw' : Walk t.Edge SearchTree.root w k) : n = k := by
  -- from the end of the run, since the parents of live nodes are live
  induction w using List.reverseRecOn generalizing n k with
  | nil =>
    cases hw
    cases hw'
    rfl
  | append_singleton w a ih =>
    obtain ⟨m, hwm, hedge⟩ := Walk.snoc_iff.1 hw
    obtain ⟨m', hwm', hedge'⟩ := Walk.snoc_iff.1 hw'
    obtain rfl := ih (h.parent_mem_live hn hedge) (h.parent_mem_live hk hedge') hwm hwm'
    exact h.eq_of_edge hn hk hedge hedge'

end Faithful

end SearchTree

/-! ## The ledger -/

/-- What is known of the nodes that have been entered, in order: they are live, they are the nodes that
are marked as visited, no other node is on the stack, and the step that leads to one of them is
redundant at its parent, which has been entered too. -/
structure Ledger (t : SearchTree ProgramState Step) (pushed : List NodeId) (x : Exploration Step χ) :
    Prop where
  nodup : pushed.Nodup
  visited : ∀ n : NodeId, x.table.isVisited ⟨n.index⟩ ↔ n ∈ pushed
  live : ∀ n ∈ pushed, n ∈ t.live
  entered : ∀ m a n, t.Edge m a n → n ∈ pushed →
    m ∈ pushed ∧ (x.table.sleep ⟨m.index⟩).hasKey (Action.key a)
  stacked : ∀ n, x.stack.Holds n → n ∈ pushed

theorem Exploration.Move.redundant_trail {l : List NodeId} (ht : t.Sound p)
    (h : Trail (Exploration.Move p t) x l x') (hout : n ∉ l)
    (ha : (x.table.sleep ⟨n.index⟩).hasKey (Action.key a)) :
    (x'.table.sleep ⟨n.index⟩).hasKey (Action.key a) := by
  induction h with
  | refl => exact ha
  | tail _ hmove ih =>
    rw [List.mem_append, not_or] at hout
    exact hmove.redundant ht hout.2 (ih hout.1)

namespace Ledger

variable {pushed : List NodeId}

/-- A round starts with the root. -/
theorem start (ht : t.Sound p) (hempty : x.stack.size = 0)
    (hnone : ∀ s, x.table.isVisited s = false)
    (hstack : x'.stack = x.stack.push (.root SearchTree.root))
    (hvisited : ∀ s, x'.table.isVisited s ↔ s = ⟨0⟩ ∨ x.table.isVisited s) :
    Ledger t [SearchTree.root] x' := by
  obtain ⟨root, hroot, hparent, -, -, hpruned⟩ := ht.root
  refine ⟨List.nodup_singleton _, fun n => ?_, fun n hn => ?_, fun m a n hedge hn => ?_,
    fun n hn => ?_⟩
  · rw [hvisited, hnone, List.mem_singleton]
    simp only [Bool.false_eq_true, or_false]
    exact ⟨fun hn => NodeId.eq_of_stateId_eq (n := SearchTree.root) hn, fun hn => hn ▸ rfl⟩
  · rw [List.mem_singleton.1 hn]
    exact SearchTree.mem_live_iff.2 ⟨root, hroot, hpruned⟩
  · obtain ⟨e, he, hm⟩ := SearchTree.parent_eq_some_iff.1 hedge.1
    rw [List.mem_singleton.1 hn, hroot] at he
    rw [← Option.some.inj he, hparent] at hm
    cases hm
  · rw [hstack] at hn
    rcases SearchStack.holds_push.1 hn with ⟨i, f, hf, -⟩ | hn
    · have := SearchStack.frame?_lt hf
      omega
    · exact List.mem_singleton.2 hn

variable (h : Ledger t pushed x)
include h

theorem of_top (htop : x.stack.topNode? = some n) : n ∈ pushed :=
  h.stacked n (SearchStack.holds_top htop)

/-- Moves that log nothing, mark nothing and put nothing new on the stack. -/
theorem keep (ht : t.Sound p) (htrail : Trail (Exploration.Move p t) x [] x')
    (hvisited : ∀ s, x'.table.isVisited s = x.table.isVisited s)
    (hholds : ∀ n, x'.stack.Holds n → x.stack.Holds n) : Ledger t pushed x' where
  nodup := h.nodup
  visited n := by
    rw [hvisited]
    exact h.visited n
  live := h.live
  entered m a n hedge hn :=
    (h.entered m a n hedge hn).imp_right (Exploration.Move.redundant_trail ht htrail (List.not_mem_nil))
  stacked n hn := h.stacked n (hholds n hn)

/-- A node is entered that has not been entered before, by a step that is redundant at its parent. -/
theorem enter (ht : t.Sound p) (htrail : Trail (Exploration.Move p t) x [c] x') (hmarks : x.Marks c x')
    (hholds : ∀ n, x'.stack.Holds n → n = c ∨ x.stack.Holds n) (hedge : t.Edge m a c)
    (hm : m ∈ pushed) (hlive : c ∈ t.live) (hnew : c ∉ pushed)
    (hasleep : (x.table.sleep ⟨m.index⟩).hasKey (Action.key a)) : Ledger t (pushed ++ [c]) x' := by
  -- the sets are made anew at `c` only, which was not among the nodes entered
  have hredundant : ∀ {k} {b : Step}, k ∈ pushed → (x.table.sleep ⟨k.index⟩).hasKey (Action.key b) →
      (x'.table.sleep ⟨k.index⟩).hasKey (Action.key b) := by
    intro k b hk
    refine Exploration.Move.redundant_trail ht htrail fun hc => hnew ?_
    exact List.mem_singleton.1 hc ▸ hk
  have hcases : ∀ {k}, k ∈ pushed ++ [c] ↔ k = c ∨ k ∈ pushed := by
    intro k
    rw [List.mem_append, List.mem_singleton, or_comm]
  refine ⟨?_, fun n => ?_, fun n hn => ?_, fun k b n hedge' hn => ?_, fun n hn => ?_⟩
  · refine List.nodup_append.2 ⟨h.nodup, List.nodup_singleton c, fun n hn k hk hnk => hnew ?_⟩
    rwa [← List.mem_singleton.1 hk, ← hnk]
  · rw [hmarks, h.visited, hcases]
    refine or_congr_left ⟨fun hid => NodeId.eq_of_stateId_eq hid, fun hn => hn ▸ rfl⟩
  · exact (hcases.1 hn).elim (fun hn => hn ▸ hlive) (h.live n)
  · rw [hcases]
    rcases hcases.1 hn with rfl | hn
    · obtain ⟨rfl, rfl⟩ := hedge.unique hedge'
      exact ⟨.inr hm, hredundant hm hasleep⟩
    · obtain ⟨hk, hb⟩ := h.entered k b n hedge' hn
      exact ⟨.inr hk, hredundant hk hb⟩
  · exact hcases.2 ((hholds n hn).imp_right (h.stacked n))

/-- The tree may change, if its live nodes stay so and hang where they were. -/
theorem retree (hlive : ∀ n ∈ t.live, n ∈ t'.live)
    (hedge : ∀ m a n, n ∈ t.live → t'.Edge m a n → t.Edge m a n) : Ledger t' pushed x where
  nodup := h.nodup
  visited := h.visited
  live n hn := hlive n (h.live n hn)
  entered m a n hmn hn := h.entered m a n (hedge m a n (h.live n hn) hmn) hn
  stacked := h.stacked

end Ledger

/-- Moves lead from one state of an exploration to another one, and the nodes that they enter are
added to the ledger. -/
def Exploration.Enters (p : Program) (t : SearchTree ProgramState Step) (pushed : List NodeId)
    (x x' : Exploration Step χ) : Prop :=
  ∃ l, Trail (Exploration.Move p t) x l x' ∧ Ledger t (pushed ++ l) x'

namespace Exploration.Enters

variable {pushed l : List NodeId} {x'' : Exploration Step χ}

theorem trail (htrail : Trail (Exploration.Move p t) x l x')
    (h : x'.Enters p t (pushed ++ l) x'') : x.Enters p t pushed x'' := by
  obtain ⟨k, htrail', h'⟩ := h
  exact ⟨l ++ k, htrail.trans htrail', by rwa [← List.append_assoc]⟩

/-- If nothing is entered, the ledger stays the same. -/
theorem of_ledger (htrail : Trail (Exploration.Move p t) x [] x') (h : Ledger t pushed x') :
    x.Enters p t pushed x' := ⟨[], htrail, by rwa [List.append_nil]⟩

end Exploration.Enters

/-! ## Operations that enter nodes -/

namespace Ledger

open Exploration

variable {pushed : List NodeId} [ChoiceSource χ] [LawfulChoiceSource χ]
variable (ht : t.Sound p) (horderly : Orderly p t x) (h : Ledger t pushed x)
include ht horderly h

/-- A child that has not been entered is added, by a step that is redundant at the current node. -/
theorem add_enters (htop : x.stack.topNode? = some m) (hedge : t.Edge m a c) (hlive : c ∈ t.live)
    (hnew : c ∉ pushed) (hasleep : (x.table.sleep ⟨m.index⟩).hasKey (Action.key a)) :
    Succeeds (Exploration.add (p.context precision t settings) c) x fun _ x' =>
      Trail (Exploration.Move p t) x [c] x' ∧ x.Marks c x' ∧ Ledger t (pushed ++ [c]) x' ∧
        x'.stack.size = x.stack.size + 1 := by
  obtain ⟨entry, hc, hparent⟩ := SearchTree.parent_eq_some_iff.1 hedge.1
  refine (Ends.addChild_moves ht horderly htop hc hparent).imp fun isNew x' hx' => ?_
  obtain ⟨htrail, hmarks, hrests, hsize, htop', hrefused⟩ := hx'
  -- a node that is refused is on the stack, so it has been entered
  obtain rfl : isNew = true := by
    by_contra hold
    exact hnew (h.stacked c (hrefused (Bool.eq_false_iff.2 hold)))
  have hholds := fun n => hrests.holds_or (m := n) hsize (htop' rfl)
  exact ⟨htrail, hmarks, h.enter ht htrail hmarks hholds hedge (h.of_top htop) hlive hnew hasleep, hsize⟩

/-- An edge of an earlier round leads to a node that has not been entered. -/
theorem replayEdge_enters (htop : x.stack.topNode? = some n) (hn : t.node? n = some entry)
    (hedge : (c, a) ∈ replayableEdges (p.context precision t settings) x.table entry) :
    Succeeds (do
      Exploration.recordTaken entry.stateId (p.enabledSet entry.state) a
      Exploration.count fun c => { c with lazyReplays := c.lazyReplays + 1 }
      Exploration.add (p.context precision t settings) c) x fun _ x' =>
        x.Enters p t pushed x' ∧ x.Marks c x' ∧ x'.stack.size ≤ x.stack.size + 1 := by
  obtain ⟨hmem, -, hnew, -⟩ := Ends.of_mem_replayableEdges ht hn hedge
  have hlive := ht.mem_live_of_child (h.live n (h.of_top htop)) hn hmem
  refine horderly.replayEdge ht htop hn hedge fun y htrail hstack _ hvisited hasleep hedge => ?_
  have hy := h.keep ht htrail hvisited fun k hk => hstack ▸ hk
  have horderly' := Exploration.Move.orderly_trail ht horderly htrail
  have hfresh : c ∉ pushed := by
    rw [← h.visited, hnew]
    exact Bool.false_ne_true
  refine (hy.add_enters ht horderly' (hstack ▸ htop) hedge hlive hfresh hasleep).imp fun _ x' hx' => ?_
  obtain ⟨htrail', hmarks, h', hsize⟩ := hx'
  refine ⟨⟨[c], htrail.trans htrail', h'⟩, fun s => ?_, ?_⟩
  · rw [hmarks, hvisited]
  · rw [hsize, hstack]

/-- A walk below a covering node enters nothing. -/
theorem virtualExploration_enters (hclosed : t.Closed) (hbare : t.Bare)
    (htop : x.stack.topNode? = some n) (hn : t.node? n = some entry)
    (hcovering : entry.covering = some c) :
    Succeeds (virtualExploration (p.context precision t settings) c) x fun _ x' =>
      x.Enters p t pushed x' ∧ x.stack.Relocks x'.stack := by
  refine (Ends.virtualExploration_ends (I := fun y => Trail (Exploration.Move p t) x [] y ∧
    ∀ s, y.table.isVisited s = x.table.isVisited s) ⟨?_, ?_, ?_⟩ ht hclosed ⟨.refl, fun _ => rfl⟩
    (Nat.zero_le _) htop hn hcovering).imp ?_
  · rintro y y' ⟨htrail, hvisited⟩ hstack htable haccount
    have hpushes := (Counters.SameFrames.of_account haccount).pushes
    refine ⟨htrail.tail (.keep hstack (fun s => by rw [htable]) hpushes), fun s => ?_⟩
    rw [htable, hvisited]
  · exact fun y stack hy hcut => ⟨hy.1.tail (.cut hcut rfl rfl), hy.2⟩
  · rintro y start m e k ⟨htrail, hvisited⟩ _ hstart hcovered _ hm _ hk
    have hy := Exploration.Move.orderly_trail ht horderly htrail
    -- a node on top of the covered one is not its child
    have hlooked : ¬(y.stack.size ≤ start ∧ y.stack.topNode? = some m) := by
      rintro ⟨hle, htop'⟩
      obtain ⟨-, f, e', hf, he', hcov⟩ := hcovered
      obtain rfl : start = y.stack.size := Nat.le_antisymm hstart hle
      rw [SearchStack.topNode?_eq_some_iff.2 ⟨f, hf, rfl⟩] at htop'
      obtain rfl := Option.some.inj htop'
      obtain rfl : e' = e := Option.some.inj (he'.symm.trans hm)
      rw [hbare _ e' hm hcov] at hk
      cases hk
    have hsize := Nat.lt_of_lt_of_le hcovered.1 hstart
    refine (Ends.pushChild_moves ht hy hm hk hsize).imp fun isNew y' hy' => ?_
    obtain ⟨htrail', hvisited', hrests, htop'⟩ := hy'
    rw [if_neg fun hreal => hlooked hreal.2] at htrail'
    exact ⟨⟨htrail.trans htrail', fun s => (hvisited' s).trans (hvisited s)⟩, hrests, htop'⟩
  · rintro _ x' ⟨⟨htrail, hvisited⟩, hrelocks⟩
    exact ⟨.of_ledger htrail (h.keep ht htrail hvisited fun k => hrelocks.holds_iff.1), hrelocks⟩

/-- What a walk below a covering node, an edge of an earlier round and a pop preserve, the question for
the end of a round preserves. -/
theorem isEmpty_preserves {J : Exploration Step χ → Prop} (hclosed : t.Closed) (hbare : t.Bare) (hJ : J x)
    (hkeep : ∀ y y', J y → y'.stack = y.stack → y'.table = y.table →
      y'.counters.account = y.counters.account → J y')
    (hwalk : ∀ n e c, x.stack.topNode? = some n → t.node? n = some e → e.covering = some c →
      Yields (virtualExploration (p.context precision t settings) c) x fun _ => J)
    (hedge : ∀ y n e c a, J y → Orderly p t y → y.stack.topNode? = some n → t.node? n = some e →
      (c, a) ∈ replayableEdges (p.context precision t settings) y.table e →
      Yields (do
        Exploration.recordTaken e.stateId (p.enabledSet e.state) a
        Exploration.count fun c => { c with lazyReplays := c.lazyReplays + 1 }
        Exploration.add (p.context precision t settings) c) y fun _ => J)
    (hpop : ∀ y n, J y → Orderly p t y → y.stack.topNode? = some n →
      Yields (Exploration.popFrame (p.context precision t settings)) y fun _ => J) :
    Succeeds (Exploration.isEmpty (p.context precision t settings)) x fun b x' =>
      (x.Enters p t pushed x' ∧ J x') ∧ (b = true ↔ x'.stack.size = 0) ∧
        x'.IsSettled p precision t settings := by
  refine (horderly.isEmpty_preserves (J := fun y => x.Enters p t pushed y ∧ J y) ht hclosed
    ⟨.of_ledger .refl h, hJ⟩ ?_ (fun n e c htop hn hcovering => ?_) ?_ ?_).imp
    fun _ _ hx' => ⟨hx'.1.2, hx'.2⟩
  · rintro y y' ⟨⟨l, htrail, hy⟩, hJy⟩ - hstack htable haccount
    have hpushes := (Counters.SameFrames.of_account haccount).pushes
    have hmove : Trail (Exploration.Move p t) y [] y' :=
      .single (.keep hstack (fun s => by rw [htable]) hpushes)
    have hy' : Ledger t _ y' :=
      hy.keep ht hmove (fun s => by rw [htable]) fun k hk => hstack ▸ hk
    exact ⟨.trail htrail (.of_ledger hmove hy'), hkeep y y' hJy hstack htable haccount⟩
  · exact ((h.virtualExploration_enters ht horderly hclosed hbare htop hn hcovering).both
      (hwalk n e c htop hn hcovering)).yields.imp fun _ y ⟨⟨hy, _⟩, hJy⟩ => ⟨hy, hJy⟩
  · rintro y n e c a ⟨⟨l, htrail, hy⟩, hJy⟩ horderly' htop hn hmem
    exact ((hy.replayEdge_enters ht horderly' htop hn hmem).both
      (hedge y n e c a hJy horderly' htop hn hmem)).yields.imp
      fun _ y' ⟨⟨hy', _⟩, hJy'⟩ => ⟨.trail htrail hy', hJy'⟩
  · rintro y n ⟨⟨l, htrail, hy⟩, hJy⟩ horderly' htop
    refine ((Ends.popFrame_moves horderly').both (hpop y n hJy horderly' htop)).yields.imp
      fun _ y' ⟨⟨hmove, hpopped⟩, hJy'⟩ => ⟨.trail htrail (.of_ledger hmove ?_), hJy'⟩
    exact hy.keep ht hmove hpopped.isVisited_eq fun k hk => (hpopped.stack ▸ hk).of_pop

/-- The question for the end of a round. -/
theorem isEmpty_enters (hclosed : t.Closed) (hbare : t.Bare) :
    Succeeds (Exploration.isEmpty (p.context precision t settings)) x fun b x' =>
      x.Enters p t pushed x' ∧ (b = true ↔ x'.stack.size = 0) ∧
        x'.IsSettled p precision t settings := by
  refine (h.isEmpty_preserves (J := fun _ => True) ht horderly hclosed hbare trivial
    (fun _ _ _ _ _ _ => trivial) (fun _ _ _ _ _ _ => .any) (fun _ _ _ _ _ _ _ _ _ _ => .any)
    fun _ _ _ _ _ => .any).imp fun _ _ hx' => ⟨hx'.1.1, hx'.2⟩

end Ledger

end Interleaving
