import Interleaving.Proofs.Moves
import Interleaving.Proofs.Walks

/-!
# Loops that come to an end

The loops of an exploration have bounds, which are never reached. A walk below a covering node goes
down the tree, and starts anew only at nodes where none of the walks under way has started; an edge of
an earlier round marks a node that was not marked before; and a pop takes a frame away. Each rule says
that what one pass of the loop preserves, the loop preserves, and that the loop comes to an answer.

A loop ends only where nothing is left for it. So once the question for the end of a round has been
answered, nothing is left to do before a step is offered (`Ends.isEmpty_done`), and to ask again changes
nothing (`Ends.isEmpty_settled`).
-/

namespace Interleaving

variable {p : Program} {precision : Precision} {t : SearchTree ProgramState Step}
  {settings : Settings} {χ : Type} {x : Exploration Step χ} {n m c : NodeId}
  {entry : SearchTree.Node ProgramState Step} {a : Step}

namespace SearchTree

/-- What covers a node stands in the tree. -/
def Closed (t : SearchTree ProgramState Step) : Prop :=
  ∀ n e c, t.node? n = some e → e.covering = some c → ∃ d, t.node? c = some d

/-- A walk below `c` comes to the node: it goes down to the children of a node that is not covered, and
from a covered node to the one that covers it. -/
inductive Reaches (t : SearchTree ProgramState Step) (c : NodeId) : NodeId → Prop where
  | root : Reaches t c c
  | child {m n : NodeId} {e : Node ProgramState Step} : Reaches t c m → t.node? m = some e →
    e.covering = none → n ∈ e.children → Reaches t c n
  | covering {m n : NodeId} {e : Node ProgramState Step} : Reaches t c m → t.node? m = some e →
    e.covering = some n → Reaches t c n

/-- A walk below `c` looks into the node: it is a child of a node that the walk comes to, and that is not
covered. -/
def LooksInto (t : SearchTree ProgramState Step) (c n : NodeId) : Prop :=
  ∃ m e, t.Reaches c m ∧ t.node? m = some e ∧ e.covering = none ∧ n ∈ e.children

/-- Different nodes of a tree are no more than the tree has. -/
theorem length_le_size {l : List NodeId} (hl : l.Nodup) (hmem : ∀ n ∈ l, ∃ e, t.node? n = some e) :
    l.length ≤ t.size := by
  have hsubset : l ⊆ t.ids := fun n hn => mem_ids_iff.2 (hmem n hn)
  have hlength : t.ids.length = t.size := by simp [ids]
  exact hlength ▸ (List.subperm_of_subset hl hsubset).length_le

/-- How deep a walk can still go: through all younger nodes, and through all nodes in each walk that
can still start. -/
def walkDepth (t : SearchTree ProgramState Step) (roots : List NodeId) (node : NodeId) : Nat :=
  (t.size - roots.length) * (t.size + 1) + (t.size - node.index)

theorem walkDepth_child_lt {roots : List NodeId} (hlt : n.index < c.index) (hc : c.index < t.size) :
    t.walkDepth roots c < t.walkDepth roots n := by
  unfold walkDepth
  omega

theorem walkDepth_cons_lt {roots : List NodeId} (hroom : (c :: roots).length ≤ t.size) :
    t.walkDepth (c :: roots) c < t.walkDepth roots n := by
  obtain ⟨k, hk⟩ : ∃ k, t.size - roots.length = k + 1 := by
    rw [List.length_cons] at hroom
    exact ⟨t.size - roots.length - 1, by omega⟩
  have hk' : t.size - (c :: roots).length = k := by
    rw [List.length_cons]
    omega
  unfold walkDepth
  rw [hk, hk', Nat.succ_mul]
  omega

end SearchTree

theorem SearchStack.Rests.isCoveredBelow {s s' : SearchStack Step} {start : Nat}
    (h : s.Rests start s') (hcovered : s.IsCoveredBelow t start) : s'.IsCoveredBelow t start := by
  obtain ⟨hpos, f, e, hf, he, hcov⟩ := hcovered
  obtain ⟨locks, hf'⟩ := h.frame (start - 1) f (by omega) hf
  exact ⟨hpos, { f with locks }, e, hf', he, hcov⟩

/-- The frame below a walk stands for a covered node, so it is none of a node that is not covered. -/
theorem SearchStack.IsCoveredBelow.not_topNode? {s : SearchStack Step} {start : Nat}
    (h : s.IsCoveredBelow t start) (hstart : start ≤ s.size) (hm : t.node? m = some entry)
    (huncovered : entry.covering = none) : ¬(s.size ≤ start ∧ s.topNode? = some m) := by
  rintro ⟨hle, htop⟩
  obtain ⟨-, f, e, hf, he, hcov⟩ := h
  obtain rfl : start = s.size := Nat.le_antisymm hstart hle
  obtain ⟨g, hg, rfl⟩ := SearchStack.topNode?_eq_some_iff.1 htop
  obtain rfl := Option.some.inj (hf.symm.trans hg)
  obtain rfl := Option.some.inj (he.symm.trans hm)
  rw [SearchTree.Node.isCovered, huncovered] at hcov
  cases hcov

/-- A walk below `origin` has come to `node`. The frames from `start` on belong to the walk that began at
`root`, which is one of the `roots` of the walks under way, and there is room for going down as deep as
it may still take. -/
structure Walking (t : SearchTree ProgramState Step) (origin : NodeId) (depth : Nat)
    (roots : List NodeId) (root : NodeId) (start : Nat) (node : NodeId) (s : SearchStack Step) :
    Prop where
  start_le : start ≤ s.size
  covered : s.IsCoveredBelow t start
  nodup : roots.Nodup
  stands : ∀ r ∈ roots, ∃ e, t.node? r = some e
  present : ∃ e, t.node? node = some e
  reached : t.Reaches origin node
  /-- The root of a walk has no frame. -/
  place : (node = root ∧ s.size = start) ∨ root.index < node.index ∧ t.LooksInto origin node
  room : t.walkDepth roots node < depth

namespace Walking

variable {origin root node : NodeId} {depth start : Nat} {roots : List NodeId}
  {s s' : SearchStack Step}

/-- The walk below the node that covers the current one begins. -/
theorem first (hclosed : t.Closed) (htop : s.topNode? = some n) (hn : t.node? n = some entry)
    (hcovering : entry.covering = some origin) :
    Walking t origin ((t.size + 1) * (t.size + 1)) [origin] origin s.size origin s := by
  obtain ⟨d, hd⟩ := hclosed n entry origin hn hcovering
  have hindex := SearchTree.index_lt_size hd
  refine ⟨Nat.le_refl _, .of_topNode? htop hn hcovering, List.nodup_singleton origin, fun r hr => ?_,
    ⟨d, hd⟩, .root, .inl ⟨rfl, rfl⟩, ?_⟩
  · rw [List.mem_singleton.1 hr]
    exact ⟨d, hd⟩
  · show (t.size - 1) * (t.size + 1) + (t.size - origin.index) < (t.size + 1) * (t.size + 1)
    have : (t.size - 1) * (t.size + 1) ≤ t.size * (t.size + 1) :=
      Nat.mul_le_mul_right _ (Nat.sub_le _ _)
    rw [Nat.succ_mul t.size]
    omega

variable (h : Walking t origin (depth + 1) roots root start node s)
  (hentry : t.node? node = some entry)
include h hentry

/-- A walk of its own begins on top of a covered node. -/
theorem nested {parent : Option NodeId} (hclosed : t.Closed) (hcovering : entry.covering = some c)
    (hfresh : c ∉ roots) (hrests : s.Rests start s')
    (hbelow : (node = root ∧ s' = s.unwindTo start parent) ∨ s'.topNode? = some node) :
    Walking t origin depth (c :: roots) c s'.size c s' := by
  obtain ⟨d, hd⟩ := hclosed node entry c hentry hcovering
  have hnodup : (c :: roots).Nodup := List.nodup_cons.2 ⟨hfresh, h.nodup⟩
  have hstands : ∀ r ∈ c :: roots, ∃ e, t.node? r = some e := by
    intro r hr
    rcases List.mem_cons.1 hr with rfl | hr
    · exact ⟨d, hd⟩
    · exact h.stands r hr
  have hroom := SearchTree.length_le_size hnodup hstands
  refine ⟨Nat.le_refl _, ?_, hnodup, hstands, ⟨d, hd⟩, h.reached.covering hentry hcovering,
    .inl ⟨rfl, rfl⟩, ?_⟩
  · exact (hrests.isCoveredBelow h.covered).restart hentry hcovering (h.place.imp_right And.left) hbelow
  · -- one walk fewer can still start
    exact Nat.lt_of_lt_of_le (SearchTree.walkDepth_cons_lt hroom) (Nat.le_of_lt_succ h.room)

/-- The walk goes on with a child. -/
theorem child (ht : t.Sound p) (huncovered : entry.covering = none) (hc : c ∈ entry.children)
    (hrests : s.Rests start s') : Walking t origin depth roots root start c s' := by
  obtain ⟨b, hedge⟩ := ht.exists_edge_of_child hentry hc
  have hlt := ht.index_lt hedge
  obtain ⟨d, hd⟩ := hedge.exists_node
  refine ⟨hrests.size_le, hrests.isCoveredBelow h.covered, h.nodup, h.stands, ⟨d, hd⟩,
    h.reached.child hentry huncovered hc, .inr ⟨?_, node, entry, h.reached, hentry, huncovered, hc⟩,
    Nat.lt_of_lt_of_le (SearchTree.walkDepth_child_lt hlt (SearchTree.index_lt_size hd))
      (Nat.le_of_lt_succ h.room)⟩
  rcases h.place with ⟨rfl, -⟩ | ⟨hroot, -⟩
  · exact hlt
  · exact Nat.lt_trans hroot hlt

end Walking

/-- As many frames have been put on the stack, and as many popped. -/
structure Counters.SameFrames (c c' : Counters) : Prop where
  pushes : c'.pushes = c.pushes
  virtualPushes : c'.virtualPushes = c.virtualPushes
  pops : c'.pops = c.pops

theorem Counters.SameFrames.of_account {c c' : Counters} (h : c'.account = c.account) :
    c.SameFrames c' where
  pushes := by simpa using congrArg Counters.pushes h
  virtualPushes := by simpa using congrArg Counters.virtualPushes h
  pops := by simpa using congrArg Counters.pops h

theorem Counters.SameFrames.of_replay {c c' : Counters} (h : c'.account = c.account.afterReplay) :
    c.SameFrames c' where
  pushes := by simpa [Counters.afterReplay] using congrArg Counters.pushes h
  virtualPushes := by simpa [Counters.afterReplay] using congrArg Counters.virtualPushes h
  pops := by simpa [Counters.afterReplay] using congrArg Counters.pops h

namespace Exploration

variable [ChoiceSource χ]

/-- What a walk does once it has entered a node: nothing, if it does not look below that; it begins a walk
of its own, if the node is covered, and otherwise it goes through the children. -/
def walkBelow (ctx : Context ProgramState Step Empty) (realSize depth : Nat) (roots : List NodeId)
    (root : NodeId) (start : Nat) (entry : SearchTree.Node ProgramState Step) (below : Bool) :
    ExploreM Step χ Empty Unit := do
  if below then
    match entry.covering with
    | some covering =>
      if !roots.contains covering then
        let size := (← get).stack.size
        walkVirtual ctx realSize depth (covering :: roots) covering size covering
        updateStack (·.truncate size)
    | none => entry.children.reverse.forM (walkVirtual ctx realSize depth roots root start)

theorem walkVirtual_succ (ctx : Context ProgramState Step Empty) (realSize depth : Nat)
    (roots : List NodeId) (root : NodeId) (start : Nat) (node : NodeId) :
    (walkVirtual ctx realSize (depth + 1) roots root start node : ExploreM Step χ Empty Unit) = (do
      let entry ← lookUp ctx node
      updateStack (·.unwindTo start entry.parent)
      walkBelow ctx realSize depth roots root start entry
        (← enterVirtual ctx realSize start root node)) := by
  rw [walkVirtual]
  rfl

/-- What the question for the end of a round does at the current node before any frame is popped. -/
def prepare (ctx : Context ProgramState Step Empty) (entry : SearchTree.Node ProgramState Step) :
    ExploreM Step χ Empty Unit :=
  match entry.covering, entry.feasible with
  | some covering, true =>
    if ctx.settings.virtualExploration then virtualExploration ctx covering else pure ()
  | _, _ => exploreLazily ctx

end Exploration

/-- What the operations of a walk below `origin` that began with `base` frames keep. -/
structure WalkKeeps [ChoiceSource χ] (p : Program) (precision : Precision)
    (t : SearchTree ProgramState Step) (settings : Settings) (origin : NodeId) (base : Nat)
    (I : Exploration Step χ → Prop) : Prop where
  keep : ∀ y y', I y → y'.stack = y.stack → y'.table = y.table →
    y'.counters.account = y.counters.account → I y'
  cut : ∀ y stack, I y → y.stack.Prefix base stack → I { y with stack }
  push : ∀ y start m e c, I y → base ≤ start → start ≤ y.stack.size →
    y.stack.IsCoveredBelow t start → t.Reaches origin m → t.node? m = some e → e.covering = none →
    c ∈ e.children →
    Succeeds (Exploration.push (p.context precision t settings) c start) y fun isNew y' =>
      I y' ∧ y.stack.Rests y.stack.size y'.stack ∧ (isNew = true → y'.stack.topNode? = some c)

namespace Ends

open Exploration

variable [ChoiceSource χ] {I : Exploration Step χ → Prop} {base : Nat}

/-! ## Walks below covering nodes -/

section Walk

variable {origin : NodeId} (hkeeps : WalkKeeps p precision t settings origin base I)
include hkeeps

/-- A node of a walk is entered; the root of the walk has no frame. -/
theorem enterVirtual_ends {realSize start : Nat} {root node : NodeId} (h : I x) (hbase : base ≤ start)
    (hstart : start ≤ x.stack.size) (hcovered : x.stack.IsCoveredBelow t start)
    (hnode : node ≠ root → t.LooksInto origin node) :
    Succeeds (enterVirtual (p.context precision t settings) realSize start root node) x fun below x' =>
      I x' ∧ x.stack.Rests x.stack.size x'.stack ∧ (below = true →
        (node = root ∧ x'.stack = x.stack) ∨ x'.stack.topNode? = some node) := by
  unfold Exploration.enterVirtual
  split
  · rename_i hroot
    exact .pure ⟨h, .refl (Nat.le_refl _), fun _ => .inl ⟨hroot, rfl⟩⟩
  · rename_i hroot
    obtain ⟨m, e, hreached, he, huncovered, hmem⟩ := hnode hroot
    refine .bind ((hkeeps.push x start m e node h hbase hstart hcovered hreached he huncovered hmem).imp
      fun isNew y hy => ?_)
    obtain ⟨hI, hrests, htop⟩ := hy
    split
    · rename_i hnew
      refine .bind (.get ?_)
      split
      · refine .bind (.modify (.pure ⟨?_, hrests, fun hfalse => by cases hfalse⟩))
        exact hkeeps.keep y _ hI rfl rfl rfl
      · exact .pure ⟨hI, hrests, fun _ => .inr (htop hnew)⟩
    · exact .pure ⟨hI, hrests, fun hfalse => by cases hfalse⟩

/-- Where a walk has come to a node, the frames above its parent are taken away and the node is
entered. -/
theorem walkEnter_ends {realSize start depth : Nat} {roots : List NodeId} {root node : NodeId}
    {parent : Option NodeId} (h : I x) (hbase : base ≤ start)
    (hwalking : Walking t origin depth roots root start node x.stack) :
    Succeeds (enterVirtual (p.context precision t settings) realSize start root node)
      { x with stack := x.stack.unwindTo start parent } fun below x' =>
        I x' ∧ x.stack.Rests start x'.stack ∧ (below = true →
          (node = root ∧ x'.stack = x.stack.unwindTo start parent) ∨ x'.stack.topNode? = some node) := by
  have hunwind : x.stack.Prefix start (x.stack.unwindTo start parent) := .unwindTo hwalking.start_le
  have hrests : x.stack.Rests start (x.stack.unwindTo start parent) := .of_cut hunwind
  refine (enterVirtual_ends hkeeps (hkeeps.cut x _ h (hunwind.mono hbase)) hbase hunwind.size_le
    (hrests.isCoveredBelow hwalking.covered) fun hne => ?_).imp fun below x' hx' => ?_
  · exact (hwalking.place.resolve_left fun hroot => hne hroot.1).2
  · exact ⟨hx'.1, hrests.trans hx'.2.1 hunwind.size_le, hx'.2.2⟩

variable (ht : t.Sound p) (hclosed : t.Closed)
include ht hclosed

/-- Where walks with less room come to an end, so does what a walk does once it has entered a node. -/
theorem walkBelow_ends {realSize start depth : Nat} {roots : List NodeId} {root node : NodeId}
    {parent : Option NodeId} {below : Bool} {x₂ : Exploration Step χ}
    (hwalks : ∀ {roots root start node y}, I y → base ≤ start →
      Walking t origin depth roots root start node y.stack →
      Succeeds (walkVirtual (p.context precision t settings) realSize depth roots root start node) y
        fun _ y' => I y' ∧ y.stack.Rests start y'.stack)
    (hentry : t.node? node = some entry) (hbase : base ≤ start)
    (hwalking : Walking t origin (depth + 1) roots root start node x.stack) (h₂ : I x₂)
    (hrests₂ : x.stack.Rests start x₂.stack) (hbelow : below = true →
      (node = root ∧ x₂.stack = x.stack.unwindTo start parent) ∨ x₂.stack.topNode? = some node) :
    Succeeds (walkBelow (p.context precision t settings) realSize depth roots root start entry below) x₂
      fun _ x' => I x' ∧ x.stack.Rests start x'.stack := by
  unfold walkBelow
  split
  swap
  · exact .pure ⟨h₂, hrests₂⟩
  rename_i hbelow'
  split
  · rename_i covering hcovering
    split
    swap
    · exact .pure ⟨h₂, hrests₂⟩
    rename_i hfresh
    have hnested := hwalking.nested hentry hclosed hcovering (by simpa using hfresh) hrests₂
      (hbelow hbelow')
    refine .bind (.get (.bind ((hwalks h₂ (Nat.le_trans hbase hrests₂.size_le) hnested).imp
      fun _ x₃ hx₃ => .modify ?_)))
    obtain ⟨h₃, hrests₃⟩ := hx₃
    have hcut₃ := SearchStack.Prefix.truncate hrests₃.size_le
    refine ⟨hkeeps.cut x₃ _ h₃ (hcut₃.mono (Nat.le_trans hbase hrests₂.size_le)), ?_⟩
    exact (hrests₂.trans hrests₃ hrests₂.size_le).trans (.of_cut hcut₃) hrests₂.size_le
  · rename_i huncovered
    refine forM (I := fun y => I y ∧ x.stack.Rests start y.stack) ⟨h₂, hrests₂⟩ fun c hc y hy => ?_
    have hchild := hwalking.child hentry ht huncovered (List.mem_reverse.1 hc) hy.2
    exact (hwalks hy.1 hbase hchild).imp fun _ y' hy' => ⟨hy'.1, hy.2.trans hy'.2 (Nat.le_refl _)⟩

/-- A walk comes to an end. -/
theorem walkVirtual_ends {realSize start depth : Nat} {roots : List NodeId} {root node : NodeId}
    (h : I x) (hbase : base ≤ start)
    (hwalking : Walking t origin depth roots root start node x.stack) :
    Succeeds (walkVirtual (p.context precision t settings) realSize depth roots root start node) x
      fun _ x' => I x' ∧ x.stack.Rests start x'.stack := by
  induction depth generalizing roots root start node x with
  | zero => exact absurd hwalking.room (Nat.not_lt_zero _)
  | succ depth ih =>
    -- a walk of its own and the walk to a child both have less room
    obtain ⟨entry, hentry⟩ := hwalking.present
    rw [walkVirtual_succ]
    refine .bind (.lookUp_of_node? hentry (.bind (.modify (.bind
      ((walkEnter_ends hkeeps h hbase hwalking).imp fun below x₂ hx₂ => ?_)))))
    obtain ⟨h₂, hrests₂, hbelow⟩ := hx₂
    exact walkBelow_ends hkeeps ht hclosed ih hentry hbase hwalking h₂ hrests₂ hbelow

/-- The walk below the node that covers the current one comes to an end, with the stack as it was apart
from locks. -/
theorem virtualExploration_ends (h : I x) (hbase : base ≤ x.stack.size)
    (htop : x.stack.topNode? = some n) (hn : t.node? n = some entry)
    (hcovering : entry.covering = some origin) :
    Succeeds (virtualExploration (p.context precision t settings) origin) x fun _ x' =>
      I x' ∧ x.stack.Relocks x'.stack := by
  unfold Exploration.virtualExploration
  refine .bind (.get (.bind ((walkVirtual_ends hkeeps ht hclosed h hbase
    (.first hclosed htop hn hcovering)).imp fun _ x₁ hx₁ => .modify ?_)))
  obtain ⟨h₁, hrests⟩ := hx₁
  have hcut₁ := SearchStack.Prefix.truncate hrests.size_le
  refine ⟨hkeeps.cut x₁ _ h₁ (hcut₁.mono hbase), ?_⟩
  refine (hrests.trans (.of_cut hcut₁) (Nat.le_refl _)).relocks ?_
  show (x₁.stack.truncate x.stack.size).size = _
  rw [SearchStack.size_truncate, Nat.min_eq_left hrests.size_le]

end Walk

end Ends

/-! ## Nodes still to be visited -/

namespace Exploration

/-- Nothing is left to do before the next step is offered: the current node is not subsumed, it is not
exhausted, and no edge of an earlier round leads on from it. -/
def IsSettled (p : Program) (precision : Precision) (t : SearchTree ProgramState Step)
    (settings : Settings) (x : Exploration Step χ) : Prop :=
  ∀ n e, x.stack.topNode? = some n → t.node? n = some e → e.isSubsumed = false ∧
    (e.expanded = true → (x.table.offerable e.stateId).isEmpty = false) ∧
    (settings.lazyReexploration = true →
      replayableEdges (p.context precision t settings) x.table e = [])

/-- Then each child has been visited in the round, or the step to it is redundant. -/
theorem IsSettled.visited_or_redundant {e child : SearchTree.Node ProgramState Step}
    (h : x.IsSettled p precision t settings) (hlazy : settings.lazyReexploration = true)
    (htop : x.stack.topNode? = some n) (hn : t.node? n = some e) (hc : c ∈ e.children)
    (hchild : t.node? c = some child) (haction : child.action = some a) :
    x.table.isVisited child.stateId ∨ (x.table.sleep e.stateId).contains a := by
  by_contra hopen
  simp only [not_or, Bool.not_eq_true] at hopen
  have hmem : (c, a) ∈ replayableEdges (p.context precision t settings) x.table e :=
    Ends.mem_replayableEdges hc hchild haction hopen.1 hopen.2
  rw [(h n e htop hn).2.2 hlazy] at hmem
  cases hmem

/-- The number of nodes that have not been visited in the current round. -/
def unvisited (t : SearchTree ProgramState Step) (x : Exploration Step χ) : Nat :=
  t.ids.countP fun n => !x.table.isVisited ⟨n.index⟩

theorem unvisited_le_size : x.unvisited t ≤ t.size := by
  have hlength : t.ids.length = t.size := by simp [SearchTree.ids]
  exact hlength ▸ List.countP_le_length

theorem unvisited_eq {x' : Exploration Step χ}
    (h : ∀ s, x'.table.isVisited s = x.table.isVisited s) : x'.unvisited t = x.unvisited t := by
  unfold unvisited
  simp only [h]

/-- The node is marked as visited, and no other one. -/
def Marks (x : Exploration Step χ) (c : NodeId) (x' : Exploration Step χ) : Prop :=
  ∀ s, x'.table.isVisited s ↔ s = ⟨c.index⟩ ∨ x.table.isVisited s

theorem Marks.unvisited_lt {x' : Exploration Step χ} (h : x.Marks c x')
    (hc : ∃ e, t.node? c = some e) (hnew : x.table.isVisited ⟨c.index⟩ = false) :
    x'.unvisited t < x.unvisited t := by
  have hold : ∀ n : NodeId, (!x'.table.isVisited ⟨n.index⟩) = true →
      (!x.table.isVisited ⟨n.index⟩) = true := by
    intro n hn
    simp only [Bool.not_eq_true'] at hn ⊢
    by_contra hvisited
    rw [(h _).2 (.inr (by simpa using hvisited))] at hn
    cases hn
  have hnow : (!x'.table.isVisited ⟨c.index⟩) = false := by
    rw [(h _).2 (.inl rfl)]
    rfl
  obtain ⟨before, after, hsplit⟩ := List.append_of_mem (SearchTree.mem_ids_iff.2 hc)
  unfold unvisited
  rw [hsplit, List.countP_append, List.countP_append, List.countP_cons, List.countP_cons, hnew, hnow]
  have hbefore := List.countP_mono_left fun n (_ : n ∈ before) => hold n
  have hafter := List.countP_mono_left fun n (_ : n ∈ after) => hold n
  simp only [Bool.false_eq_true, if_false, Bool.not_false, if_true]
  omega

end Exploration

namespace Ends

open Exploration

/-! ## Where nothing is left -/

section Settled

variable [ChoiceSource χ] {limit : Nat}

/-- No edge of an earlier round leads on from the current node where the loop ends. -/
theorem replayEdges_done :
    Yields (Exploration.replayEdges (p.context precision t settings) limit) x fun _ x' =>
      ∀ n e, x'.stack.topNode? = some n → t.node? n = some e →
        replayableEdges (p.context precision t settings) x'.table e = [] := by
  induction limit generalizing x with
  | zero => exact .throw trivial
  | succ limit ih =>
    unfold Exploration.replayEdges
    refine .bind (.get ?_)
    split
    · rename_i hnone
      exact .pure fun n e htop => nomatch hnone.symm.trans htop
    rename_i n htop
    refine .bind (.lookUp fun entry hn => .bind (.get ?_))
    dsimp only
    split
    · refine .bind (any.imp fun index x₁ _ => ?_)
      split
      · exact .throw trivial
      · exact .bind (.enabledAt (.bind (any.imp fun _ _ _ => .bind (.modify (.bind
          (any.imp fun _ _ _ => ih))))))
    · rename_i hnone
      exact .pure (SearchStack.forall_top htop hn (by simpa using hnone))

theorem exploreLazily_done :
    Yields (Exploration.exploreLazily (p.context precision t settings)) x fun _ x' =>
      ∀ n e, x'.stack.topNode? = some n → t.node? n = some e → settings.lazyReexploration = true →
        replayableEdges (p.context precision t settings) x'.table e = [] := by
  unfold Exploration.exploreLazily
  split
  · exact replayEdges_done.imp fun _ x' hx' n e hn he _ => hx' n e hn he
  · rename_i hoff
    exact .pure fun n e _ _ hon => absurd hon hoff

/-- The pops end at a node where nothing is left to do before a step is offered, if no edge led on from
the current node unless it was subsumed. -/
theorem dropExhausted_done
    (hedges : ∀ n e, x.stack.topNode? = some n → t.node? n = some e → e.isSubsumed = false →
      settings.lazyReexploration = true →
        replayableEdges (p.context precision t settings) x.table e = []) :
    Yields (Exploration.dropExhausted (p.context precision t settings) limit) x fun _ x' =>
      (∀ n, x'.stack.topNode? = some n → ∃ e, t.node? n = some e) ∧
        x'.IsSettled p precision t settings := by
  induction limit generalizing x with
  | zero => exact .throw trivial
  | succ limit ih =>
    unfold Exploration.dropExhausted
    refine .bind (.get ?_)
    split
    · rename_i hnone
      exact .pure ⟨fun n htop => (nomatch hnone.symm.trans htop),
        fun n e htop => nomatch hnone.symm.trans htop⟩
    rename_i n htop
    refine .bind (.lookUp fun entry hn => .bind (.get ?_))
    dsimp only
    split
    · refine .bind (any.imp fun _ x₁ _ => .bind (exploreLazily_done.imp fun _ x₂ hx₂ => ?_))
      exact ih fun n e hn he _ => hx₂ n e hn he
    · rename_i hgoesOn
      simp only [Bool.or_eq_true, Bool.and_eq_true, not_or, not_and, Bool.not_eq_true] at hgoesOn
      refine .pure ⟨fun m hm => ⟨entry, ?_⟩, SearchStack.forall_top htop hn ?_⟩
      · rwa [← Option.some.inj (htop.symm.trans hm)]
      · exact ⟨hgoesOn.1, hgoesOn.2, hedges n entry htop hn hgoesOn.1⟩

/-- Where the question for the end of a round has been answered, nothing is left to do before a step is
offered at the current node, if the walk below a covering node comes back. -/
theorem isEmpty_done
    (hwalk : ∀ n e c, x.stack.topNode? = some n → t.node? n = some e → e.covering = some c →
      Yields (virtualExploration (p.context precision t settings) c) x fun _ y =>
        x.stack.Relocks y.stack) :
    Yields (Exploration.isEmpty (p.context precision t settings)) x fun b x' =>
      b = x'.stack.isEmpty ∧ (∀ n, x'.stack.topNode? = some n → ∃ e, t.node? n = some e) ∧
        x'.IsSettled p precision t settings := by
  have hdrop : ∀ (y : Exploration Step χ) limit, (∀ n e, y.stack.topNode? = some n →
      t.node? n = some e → e.isSubsumed = false → settings.lazyReexploration = true →
        replayableEdges (p.context precision t settings) y.table e = []) → Yields (do
      Exploration.dropExhausted (p.context precision t settings) limit
      return (← MonadState.get).stack.isEmpty) y fun b x' => b = x'.stack.isEmpty ∧
        (∀ n, x'.stack.topNode? = some n → ∃ e, t.node? n = some e) ∧
        x'.IsSettled p precision t settings := fun y limit hedges =>
    .bind ((dropExhausted_done hedges).imp fun _ x' hx' => .bind (.get (.pure ⟨rfl, hx'⟩)))
  unfold Exploration.isEmpty
  refine .bind (.get ?_)
  split
  · rename_i hnone
    refine .pure ⟨?_, fun n htop => (nomatch hnone.symm.trans htop),
      fun n e htop => nomatch hnone.symm.trans htop⟩
    exact (SearchStack.isEmpty_iff.2 (SearchStack.topNode?_eq_none_iff.1 hnone)).symm
  rename_i n htop
  refine .bind (.lookUp fun entry hn => ?_)
  split
  · rename_i covering hcovering _
    -- the walk comes back to the current node, which is subsumed
    have hsubsumed : ∀ y : Exploration Step χ, x.stack.Relocks y.stack → ∀ m e,
        y.stack.topNode? = some m → t.node? m = some e → e.isSubsumed = false →
          settings.lazyReexploration = true →
            replayableEdges (p.context precision t settings) y.table e = [] := by
      intro y hrelocks
      rw [← hrelocks.topNode?_eq] at htop
      refine SearchStack.forall_top htop hn fun hfalse => ?_
      rw [SearchTree.Node.isSubsumed, SearchTree.Node.isCovered, hcovering] at hfalse
      cases hfalse
    split
    · refine .bind ((hwalk n entry covering htop hn hcovering).imp fun _ y hy => .bind (.get ?_))
      exact hdrop y _ (hsubsumed y hy)
    · exact .bind (.get (hdrop x _ (hsubsumed x (.refl _))))
  · exact .bind (exploreLazily_done.imp fun _ y hy => .bind (.get (hdrop y _ fun n e hn he _ =>
      hy n e hn he)))

/-- Where nothing is left to do, the question changes nothing. -/
theorem isEmpty_settled {E : Exploration Step χ → Prop}
    (hstands : ∀ n, x.stack.topNode? = some n → ∃ e, t.node? n = some e)
    (h : x.IsSettled p precision t settings) :
    Ends (Exploration.isEmpty (p.context precision t settings)) x
      (fun b x' => b = x.stack.isEmpty ∧ x' = x) E := by
  unfold Exploration.isEmpty
  refine .bind (.get ?_)
  split
  · rename_i hnone
    exact .pure ⟨(SearchStack.isEmpty_iff.2 (SearchStack.topNode?_eq_none_iff.1 hnone)).symm, rfl⟩
  rename_i n htop
  obtain ⟨entry, hn⟩ := hstands n htop
  obtain ⟨hsubsumed, hoffers, hedges⟩ := h n entry htop hn
  refine .bind (.lookUp_of_node? hn ?_)
  -- the current node is kept, since it is not subsumed and has something to offer
  have hdrop : ∀ limit, Ends (do
      Exploration.dropExhausted (p.context precision t settings) (limit + 1)
      return (← MonadState.get).stack.isEmpty) x (fun b x' => b = x.stack.isEmpty ∧ x' = x) E := by
    intro limit
    unfold Exploration.dropExhausted
    refine .bind (.bind (.get ?_))
    rw [htop]
    refine .bind (.lookUp_of_node? hn (.bind (.get ?_)))
    have hgoesOn : (entry.isSubsumed ||
        (entry.expanded && (x.table.offerable entry.stateId).isEmpty)) = false := by
      rw [hsubsumed, Bool.false_or, Bool.and_eq_false_imp]
      exact hoffers
    dsimp only
    rw [hgoesOn, if_neg Bool.false_ne_true]
    exact .pure (.bind (.get (.pure ⟨rfl, rfl⟩)))
  -- no edge of an earlier round is left to take
  have hsame : Ends (Exploration.exploreLazily (p.context precision t settings)) x
      (fun _ x' => x' = x) E := by
    unfold Exploration.exploreLazily
    split
    · rename_i hlazy
      unfold Exploration.replayEdges
      refine .bind (.get ?_)
      rw [htop]
      refine .bind (.lookUp_of_node? hn (.bind (.get ?_)))
      dsimp only
      rw [hedges hlazy, if_neg (by simp)]
      exact .pure rfl
    · exact .pure rfl
  split
  · rename_i covering hcovering _
    rw [SearchTree.Node.isSubsumed, SearchTree.Node.isCovered, hcovering] at hsubsumed
    cases hsubsumed
  · refine .bind (hsame.imp fun _ y hy => ?_)
    subst hy
    exact .bind (.get (hdrop _))

/-- Where nothing is left to do, the current node is taken. -/
theorem remove_settled {E : Exploration Step χ → Prop}
    (hstands : ∀ n, x.stack.topNode? = some n → ∃ e, t.node? n = some e)
    (h : x.IsSettled p precision t settings) (htop : x.stack.topNode? = some n) :
    Ends (Exploration.remove (p.context precision t settings)) x (fun m x' => m = n ∧ x' = x) E := by
  unfold Exploration.remove
  refine .bind ((isEmpty_settled hstands h).imp ?_)
  rintro b y ⟨rfl, rfl⟩
  have hnot : y.stack.isEmpty = false := by
    refine Bool.eq_false_iff.2 fun hempty => ?_
    rw [SearchStack.topNode?_eq_none_iff.2 (SearchStack.isEmpty_iff.1 hempty)] at htop
    cases htop
  rw [hnot]
  refine .bind (.get ?_)
  rw [htop]
  exact .pure ⟨rfl, rfl⟩

end Settled

variable [ChoiceSource χ] [LawfulChoiceSource χ] {I : Exploration Step χ → Prop} {limit : Nat}

theorem pick_ends {E : Exploration Step χ → Prop} {count : Nat}
    {Q : Nat → Exploration Step χ → Prop} (hpos : 0 < count)
    (h : ∀ i choices, i < count → Q i { x with choices }) :
    Ends (Exploration.pick count : ExploreM Step χ Empty _) x Q E :=
  .modifyGet (h _ _ (LawfulChoiceSource.pick_lt _ hpos))

/-! ## Edges of earlier rounds -/

section Replay

variable (hkeep : ∀ y y', I y → y'.stack = y.stack → y'.table = y.table →
    y'.counters.account = y.counters.account → I y')
  (hedge : ∀ y n e c a, I y → y.stack.topNode? = some n → t.node? n = some e →
    (c, a) ∈ replayableEdges (p.context precision t settings) y.table e →
    Succeeds (do
      Exploration.recordTaken e.stateId (p.enabledSet e.state) a
      Exploration.count fun c => { c with lazyReplays := c.lazyReplays + 1 }
      Exploration.add (p.context precision t settings) c) y fun _ y' =>
        I y' ∧ y.Marks c y' ∧ y'.stack.size ≤ y.stack.size + 1)
include hkeep hedge

/-- The edges of earlier rounds come to an end, since each marks a node that was not marked. -/
theorem replayEdges_ends (ht : t.Sound p) (h : I x) (hstands : ∀ y, I y → y.stack.StandsIn t)
    (hlimit : x.unvisited t < limit) :
    Succeeds (Exploration.replayEdges (p.context precision t settings) limit) x fun _ x' =>
      I x' ∧ x'.stack.size + x'.unvisited t ≤ x.stack.size + x.unvisited t := by
  -- on the bound, which the unvisited nodes stay below
  induction limit generalizing x with
  | zero => omega
  | succ limit ih =>
    unfold Exploration.replayEdges
    refine .bind (.get ?_)
    split
    · exact .pure ⟨h, Nat.le_refl _⟩
    rename_i n htop
    obtain ⟨entry, hn⟩ := (hstands x h).of_top htop
    refine .bind (.lookUp_of_node? hn (.bind (.get ?_)))
    dsimp only
    split
    swap
    · exact .pure ⟨h, Nat.le_refl _⟩
    rename_i hne
    have hpos : 0 < (replayableEdges (p.context precision t settings) x.table entry).length := by
      rw [List.length_pos_iff]
      intro hnil
      rw [hnil] at hne
      cases hne
    refine .bind (pick_ends hpos fun i choices hi => ?_)
    rw [List.getElem?_eq_getElem hi]
    dsimp only
    have hmem := List.getElem_mem hi
    obtain ⟨-, hchild, hnew, -⟩ := of_mem_replayableEdges ht hn hmem
    have hstep := hedge { x with choices } n entry _ _ (hkeep x _ h rfl rfl rfl) htop hn hmem
    refine .bind (.enabledAt (.bind ((bind_iff.1 hstep).imp fun _ x₁ hx₁ =>
      .bind ((bind_iff.1 hx₁).imp fun _ x₂ hx₂ => .bind (hx₂.imp fun _ x₃ hx₃ => ?_)))))
    obtain ⟨h₃, hmarks, hsize⟩ := hx₃
    have hlt : x₃.unvisited t < x.unvisited t := hmarks.unvisited_lt hchild.exists_node hnew
    have hsize : x₃.stack.size ≤ x.stack.size + 1 := hsize
    exact (ih h₃ (by omega)).imp fun _ x' hx' => ⟨hx'.1, by omega⟩

theorem exploreLazily_ends (ht : t.Sound p) (h : I x) (hstands : ∀ y, I y → y.stack.StandsIn t) :
    Succeeds (Exploration.exploreLazily (p.context precision t settings)) x fun _ x' =>
      I x' ∧ x'.stack.size + x'.unvisited t ≤ x.stack.size + x.unvisited t := by
  unfold Exploration.exploreLazily
  split
  · exact replayEdges_ends hkeep hedge ht h hstands (Nat.lt_succ_of_le unvisited_le_size)
  · exact .pure ⟨h, Nat.le_refl _⟩

/-! ## Pops -/

variable (hpop : ∀ y n e, I y → y.stack.topNode? = some n → t.node? n = some e →
    (e.isSubsumed || (e.expanded && (y.table.offerable e.stateId).isEmpty)) = true →
    Succeeds (Exploration.popFrame (p.context precision t settings)) y fun _ y' =>
      I y' ∧ y'.stack.size < y.stack.size ∧ ∀ s, y'.table.isVisited s = y.table.isVisited s)
include hpop

/-- The pops come to an end, since an edge taken after a pop marks a node. -/
theorem dropExhausted_ends (ht : t.Sound p) (h : I x) (hstands : ∀ y, I y → y.stack.StandsIn t)
    (hlimit : x.stack.size + x.unvisited t < limit) :
    Succeeds (Exploration.dropExhausted (p.context precision t settings) limit) x fun _ => I := by
  induction limit generalizing x with
  | zero => omega
  | succ limit ih =>
    unfold Exploration.dropExhausted
    refine .bind (.get ?_)
    split
    · exact .pure h
    rename_i n htop
    obtain ⟨entry, hn⟩ := (hstands x h).of_top htop
    refine .bind (.lookUp_of_node? hn (.bind (.get ?_)))
    dsimp only
    split
    · rename_i hexhausted
      refine .bind ((hpop x n entry h htop hn hexhausted).imp fun _ x₁ hx₁ => ?_)
      obtain ⟨h₁, hsize, hvisited⟩ := hx₁
      -- the frames that edges put back are paid for by nodes visited
      have hsame := unvisited_eq (t := t) hvisited
      refine .bind ((exploreLazily_ends hkeep hedge ht h₁ hstands).imp fun _ x₂ hx₂ => ?_)
      exact ih hx₂.1 (by omega)
    · exact .pure h

omit hpop in
/-- What comes before the pops, where a walk keeps `I`. -/
theorem prepare_ends (ht : t.Sound p) (h : I x) (hstands : ∀ y, I y → y.stack.StandsIn t)
    (hwalk : ∀ c, entry.covering = some c →
      Succeeds (virtualExploration (p.context precision t settings) c) x fun _ => I) :
    Succeeds (prepare (p.context precision t settings) entry) x fun _ => I := by
  unfold prepare
  split
  · rename_i covering hcovering _
    split
    · exact hwalk covering hcovering
    · exact .pure h
  · exact (exploreLazily_ends hkeep hedge ht h hstands).imp fun _ _ hy => hy.1

/-- The question for the end of a round comes to an answer. -/
theorem isEmpty_ends (ht : t.Sound p) (hx : x.stack.StandsIn t) (hstands : ∀ y, I y → y.stack.StandsIn t)
    (hnone : x.stack.topNode? = none → I x)
    (hprepare : ∀ n e, x.stack.topNode? = some n → t.node? n = some e →
      Succeeds (prepare (p.context precision t settings) e) x fun _ => I)
    (hwalk : ∀ n e c, x.stack.topNode? = some n → t.node? n = some e → e.covering = some c →
      Yields (virtualExploration (p.context precision t settings) c) x fun _ y =>
        x.stack.Relocks y.stack) :
    Succeeds (Exploration.isEmpty (p.context precision t settings)) x fun b x' =>
      I x' ∧ (b = true ↔ x'.stack.size = 0) ∧ x'.IsSettled p precision t settings := by
  -- what is popped was on the stack or has been visited since, and the limit leaves room for both
  have hdrop : ∀ y, I y → Succeeds (do
      Exploration.dropExhausted (p.context precision t settings) (y.stack.size + t.size + 1)
      return (← MonadState.get).stack.isEmpty) y fun _ => I := by
    intro y hy
    have hlimit : y.stack.size + y.unvisited t < y.stack.size + t.size + 1 :=
      Nat.lt_succ_of_le (Nat.add_le_add_left unvisited_le_size _)
    refine .bind ((dropExhausted_ends hkeep hedge hpop ht hy hstands hlimit).imp fun _ x' hx' => ?_)
    exact .bind (.get (.pure hx'))
  have hanswer : Succeeds (Exploration.isEmpty (p.context precision t settings)) x fun _ => I := by
    unfold Exploration.isEmpty
    refine .bind (.get ?_)
    split
    · rename_i hempty
      exact .pure (hnone hempty)
    rename_i n htop
    obtain ⟨entry, hn⟩ := hx.of_top htop
    refine .bind (.lookUp_of_node? hn ?_)
    have hprepare := hprepare n entry htop hn
    unfold prepare at hprepare
    split
    · rename_i hcovering hfeasible
      simp only [hcovering, hfeasible] at hprepare
      split
      · rename_i hvirtual
        rw [if_pos hvirtual] at hprepare
        exact .bind (hprepare.imp fun _ y hy => .bind (.get (hdrop y hy)))
      · rename_i hvirtual
        rw [if_neg hvirtual] at hprepare
        exact .bind (.get (hdrop x hprepare))
    · rename_i hnot
      split at hprepare
      · rename_i hcovering hfeasible
        exact (hnot _ hcovering hfeasible).elim
      · exact .bind (hprepare.imp fun _ y hy => .bind (.get (hdrop y hy)))
  -- that it comes to an answer is one thing, what the answer says another
  refine (hanswer.both (isEmpty_done hwalk)).imp ?_
  rintro b x' ⟨hx', rfl, -, hsettled⟩
  exact ⟨hx', SearchStack.isEmpty_iff, hsettled⟩

end Replay

end Ends

end Interleaving
