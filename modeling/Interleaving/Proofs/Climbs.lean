import Interleaving.Proofs.Ledger

/-!
# No node is refused

Each step takes a thread one instruction further. So the number of steps that have led to the state of a
node (`SearchTree.depth`) goes up by one along each edge of the tree, and a covering node has the same
number as the node that it covers. The frame at an index of a stack stands for a node of that depth
(`SearchStack.Climbs`), also where a walk looks below covering nodes. So no node that is pushed is on the
stack already (`Ends.push_climbs`), and what a walk puts there is only counted apart
(`Ends.virtualExploration_climbs`).
-/

namespace Interleaving

variable {p : Program} {precision : Precision} {t t' : SearchTree ProgramState Step}
  {settings : Settings} {χ : Type} {x y : Exploration Step χ} {n m c : NodeId}
  {entry : SearchTree.Node ProgramState Step} {a : Step}

/-! ## Depth -/

namespace ProgramState

/-- The number of steps that have led to a state. -/
def depth (s : ProgramState) : Nat := s.pcs.foldr (· + ·) 0

theorem depth_initialState : p.initialState.depth = 0 := by
  rw [depth, Program.initialState]
  induction p.threadCount with
  | zero => rfl
  | succ n ih => rw [List.replicate_succ, List.foldr_cons, ih]

theorem foldr_modify_succ {l : List Nat} {i k : Nat} (h : l[i]? = some k) :
    (l.modify i (· + 1)).foldr (· + ·) 0 = l.foldr (· + ·) 0 + 1 := by
  induction l generalizing i with
  | nil => cases h
  | cons j l ih =>
    cases i with
    | zero =>
      rw [List.modify_zero_cons, List.foldr_cons, List.foldr_cons]
      omega
    | succ i =>
      rw [List.modify_succ_cons, List.foldr_cons, List.foldr_cons, ih (by simpa using h)]
      omega

theorem depth_after {s : ProgramState} (h : p.CanRun s a) : (s.after a).depth = s.depth + 1 := by
  rw [depth, pcs_after]
  exact foldr_modify_succ h.counter

end ProgramState

namespace SearchTree

/-- The number of steps that have led to the state of a node. -/
def depth (t : SearchTree ProgramState Step) (n : NodeId) : Nat := (t.state n).depth

namespace Sound

variable (ht : t.Sound p)
include ht

theorem depth_root : t.depth SearchTree.root = 0 := by
  rw [depth, ht.state_root]
  exact ProgramState.depth_initialState

theorem depth_edge (hedge : t.Edge m a n) : t.depth n = t.depth m + 1 := by
  rw [depth, ht.state_edge hedge]
  exact ProgramState.depth_after (ht.canRun hedge)

theorem depth_child (hn : t.node? n = some entry) (hc : c ∈ entry.children) :
    t.depth c = t.depth n + 1 := by
  obtain ⟨b, hedge⟩ := ht.exists_edge_of_child hn hc
  exact ht.depth_edge hedge

end Sound

/-- A live node is covered by a live one with the same state. -/
theorem Faithful.state_covering (h : t.Faithful) (hlive : n ∈ t.live) (hn : t.node? n = some entry)
    (hcovering : entry.covering = some c) : c ∈ t.live ∧ t.state c = t.state n := by
  obtain ⟨e, he, hpruned⟩ := mem_live_iff.1 hlive
  obtain rfl : e = entry := Option.some.inj (he.symm.trans hn)
  obtain ⟨d, hd, hpruned', -, hstate⟩ := h.covered n e c he hpruned hcovering
  exact ⟨mem_live_iff.2 ⟨d, hd, hpruned'⟩, by rw [state_eq hd, state_eq he, hstate]⟩

/-- So both are equally deep. -/
theorem Faithful.depth_covering (h : t.Faithful) (hlive : n ∈ t.live) (hn : t.node? n = some entry)
    (hcovering : entry.covering = some c) : c ∈ t.live ∧ t.depth c = t.depth n :=
  (h.state_covering hlive hn hcovering).imp_right fun hstate => by rw [depth, depth, hstate]

end SearchTree

/-! ## Stacks -/

namespace SearchStack

variable {s s' : SearchStack Step} {size : Nat}

/-- The frame at each index stands for a node of that depth. -/
def Climbs (t : SearchTree ProgramState Step) (s : SearchStack Step) : Prop :=
  ∀ i f, s.frame? i = some f → t.depth f.node = i

/-- The frames left are all those below some index. -/
theorem Prefix.full (h : Prefix size s s') : Prefix s'.size s s' := by
  refine ⟨Nat.le_refl _, h.frame, fun i hi => ?_⟩
  obtain ⟨f, hf⟩ := exists_frame_of_lt hi
  rw [hf, h.frame i f hf]

theorem Rests.mono {base : Nat} (h : Rests size s s') (hle : base ≤ size) : Rests base s s' :=
  ⟨Nat.le_trans hle h.size_le, fun i f hi hf => h.frame i f (Nat.lt_of_lt_of_le hi hle) hf⟩

namespace Climbs

variable (h : s.Climbs t)
include h

/-- The current node has the depth of the top frame. -/
theorem depth_top (htop : s.topNode? = some n) : t.depth n + 1 = s.size := by
  obtain ⟨f, hf, rfl⟩ := topNode?_eq_some_iff.1 htop
  have hlt := frame?_lt hf
  rw [h _ f hf]
  omega

/-- No other node on the stack is as deep as the current one. -/
theorem eq_of_holds (htop : s.topNode? = some n) (hc : s.Holds c) (hdepth : t.depth c = t.depth n) :
    c = n := by
  obtain ⟨i, f, hf, rfl⟩ := hc
  obtain ⟨g, hg, rfl⟩ := topNode?_eq_some_iff.1 htop
  rw [h i f hf, h _ g hg] at hdepth
  subst hdepth
  rw [Option.some.inj (hf.symm.trans hg)]

/-- A node as deep as the stack is high is not on it. -/
theorem not_holds (hdepth : t.depth n = s.size) : ¬s.Holds n := by
  rintro ⟨i, f, hf, rfl⟩
  have hlt := frame?_lt hf
  rw [← h i f hf, hdepth] at hlt
  exact Nat.lt_irrefl _ hlt

theorem cut (hcut : s.Prefix size s') : s'.Climbs t := fun i f hf => h i f (hcut.frame i f hf)

theorem pop : s.pop.Climbs t := by
  intro i f hf
  rw [frame?_pop] at hf
  split at hf
  · exact h i f hf
  · cases hf

/-- A frame is put on top for a node as deep as the stack is high. -/
theorem enter (hrests : s.Rests s.size s') (hsize : s'.size = s.size + 1)
    (htop : s'.topNode? = some n) (hdepth : t.depth n = s.size) : s'.Climbs t := by
  intro i f hf
  rcases Nat.lt_or_ge i s.size with hi | hi
  · obtain ⟨locks, hf'⟩ := hrests.exists_frame hi (Nat.le_refl _) hf
    exact h i { f with locks } hf'
  · obtain ⟨g, hg, rfl⟩ := topNode?_eq_some_iff.1 htop
    have hlt := frame?_lt hf
    obtain rfl : i = s'.size - 1 := by omega
    obtain rfl := Option.some.inj (hf.symm.trans hg)
    omega

/-- Unwound to a node `m` on it, or to the frames below those for the children of `m`, a stack is as high
as the children of `m` are deep. -/
theorem size_unwindTo (hsize : size ≤ t.depth m + 1) (hle : t.depth m + 1 ≤ s.size)
    (hplace : size = t.depth m + 1 ∨ ∃ f, s.frame? (t.depth m) = some f ∧ f.node = m) :
    (s.unwindTo size (some m)).size = t.depth m + 1 := by
  unfold unwindTo
  generalize hexcess : s.size - size = excess
  induction excess generalizing s with
  | zero =>
    show s.size = _
    omega
  | succ excess ih =>
    unfold unwind
    split
    · rename_i htop
      exact (h.depth_top htop).symm
    rename_i hnot
    -- the top frame is not the one for `m`, so the stack is higher than that
    have hlt : t.depth m + 1 ≠ s.size := by
      intro heq
      obtain ⟨f, hf, hnode⟩ := hplace.resolve_left (by omega)
      refine hnot (topNode?_eq_some_iff.2 ⟨f, ?_, hnode⟩)
      rw [← heq, Nat.add_sub_cancel]
      exact hf
    refine ih h.pop (by rw [size_pop]; omega) (hplace.imp_right ?_) (by rw [size_pop]; omega)
    rintro ⟨f, hf, hnode⟩
    exact ⟨f, by rw [frame?_pop, if_pos (by omega), hf], hnode⟩

end Climbs

end SearchStack

/-! ## Pushes -/

namespace Counters

/-- The account without the frames of walks below covering nodes. -/
def plain (c : Counters) : Counters := { c.account with virtualPushes := 0 }

theorem plain_eq {c c' : Counters} (h : c'.account = c.account) : c'.plain = c.plain := by
  rw [plain, plain, h]

theorem frames_of_plain {c c' : Counters} (h : c'.plain = c.plain) :
    c'.pushes = c.pushes ∧ c'.pops = c.pops ∧ c'.cycles = c.cycles := by
  simp only [plain, account, mk.injEq] at h
  obtain ⟨hpushes, -, hpops, hcycles, -⟩ := h
  exact ⟨hpushes, hpops, hcycles⟩

/-- A frame of a walk is counted apart. -/
theorem plain_eq_of_afterPush {c c' : Counters} (h : c'.account = c.account.afterPush true false) :
    c'.plain = c.plain := by
  rw [plain, h]
  rfl

end Counters

namespace Ends

open Exploration

variable [ChoiceSource χ] [LawfulChoiceSource χ] {limit : Nat}
variable (ht : t.Sound p) (h : Orderly p t x) (hclimbs : x.stack.Climbs t)
include ht h hclimbs

/-- A node as deep as the stack is high is not refused. -/
theorem push_climbs (hn : t.node? n = some entry) (hparent : entry.parent = some m)
    (hdepth : t.depth n = x.stack.size) (hsize : 0 < x.stack.size) :
    Succeeds (Exploration.push (p.context precision t settings) n limit) x fun isNew x' =>
      isNew = true ∧ Orderly p t x' ∧ x'.stack.Climbs t ∧ x.stack.Rests x.stack.size x'.stack ∧
      x'.stack.size = x.stack.size + 1 ∧ x'.stack.topNode? = some n ∧
      x'.counters.account = x.counters.account.afterPush true
        (decide (x.stack.size ≤ limit ∧ x.stack.topNode? = some m)) := by
  have haccount : Succeeds (Exploration.push (p.context precision t settings) n limit) x fun isNew x' =>
      x'.counters.account = x.counters.account.afterPush isNew
        (decide (x.stack.size ≤ limit ∧ x.stack.topNode? = some m)) := by
    obtain ⟨-, a, -, -, haction, -⟩ := ht.edge n entry m hn hparent
    unfold Exploration.push
    refine .bind (.lookUp_of_node? hn ?_)
    rw [haction, ← hparent]
    exact pushStep_account ht h.stands hsize
  refine ((push_moves ht h hn hparent hsize).both haccount.yields).imp fun isNew x' hx' => ?_
  obtain ⟨⟨htrail, -, hrests, hsize', htop, hrefused⟩, haccount⟩ := hx'
  obtain rfl : isNew = true := by
    by_contra hold
    exact hclimbs.not_holds hdepth (hrefused (Bool.eq_false_iff.2 hold))
  exact ⟨rfl, Move.orderly_trail ht h htrail, hclimbs.enter hrests hsize' (htop rfl) hdepth, hrests,
    hsize', htop rfl, haccount⟩

/-- A child of the current node is added. -/
theorem addChild_climbs (htop : x.stack.topNode? = some m) (hedge : t.Edge m a n) :
    Succeeds (Exploration.add (p.context precision t settings) n) x fun _ x' =>
      x'.stack.Climbs t ∧ x'.stack.size = x.stack.size + 1 ∧
      x'.counters.account = x.counters.account.afterPush true true := by
  obtain ⟨entry, hn, hparent⟩ := SearchTree.parent_eq_some_iff.1 hedge.1
  have hdepth : t.depth n = x.stack.size := (ht.depth_edge hedge).trans (hclimbs.depth_top htop)
  have hsize : 0 < x.stack.size := Nat.pos_of_ne_zero (SearchStack.size_ne_zero htop)
  let y : Exploration Step χ := { x with table := x.table.markVisited entry.stateId }
  have hy : Orderly p t y := h.of_eq rfl fun _ => rfl
  refine add_child htop hn hparent ((push_climbs ht hy hclimbs hn hparent hdepth hsize).imp
    fun isNew x' hx' => ?_)
  obtain ⟨-, -, hclimbs', -, hsize', -, haccount⟩ := hx'
  rw [decide_eq_true ⟨Nat.le_refl _, htop⟩] at haccount
  exact ⟨hclimbs', hsize', haccount⟩

end Ends

/-! ## Walks below covering nodes -/

/-- What holds at each moment of a walk that has begun with the counters `c`. -/
structure Roams (p : Program) (t : SearchTree ProgramState Step) (c : Counters)
    (y : Exploration Step χ) : Prop where
  orderly : Orderly p t y
  climbs : y.stack.Climbs t
  plain : y.counters.plain = c.plain

theorem Roams.cut {counters : Counters} {stack : SearchStack Step} {size : Nat} (ht : t.Sound p)
    (h : Roams p t counters y) (hcut : y.stack.Prefix size stack) :
    Roams p t counters { y with stack } :=
  ⟨h.orderly.cut ht (hcut.mono (Nat.zero_le _)), h.climbs.cut hcut, h.plain⟩

/-- A walk that began at `root`, and whose frames are those from `start` on, has come to `node`. The
frames below `floor` stay: those below the walk, or those below the frame for the node. -/
structure Aligned (t : SearchTree ProgramState Step) (root : NodeId) (start floor : Nat)
    (node : NodeId) (s : SearchStack Step) : Prop where
  live : node ∈ t.live
  covered : s.IsCoveredBelow t start
  start_le : start ≤ s.size
  /-- The root has no frame. Another node comes after its parent, which has one or is the root. -/
  place : node = root ∧ s.size = start ∧ start = t.depth node + 1 ∧ floor = start ∨
    root.index < node.index ∧ ∃ m e, t.node? m = some e ∧ e.covering = none ∧ node ∈ e.children ∧
      start ≤ t.depth m + 1 ∧ t.depth m + 1 ≤ s.size ∧ floor = t.depth m + 1 ∧
      (start = t.depth m + 1 ∨ ∃ f, s.frame? (t.depth m) = some f ∧ f.node = m)

namespace Aligned

/-- The walk below the node that covers the current one begins. -/
theorem first {s : SearchStack Step} (hfaithful : t.Faithful) (hclimbs : s.Climbs t)
    (htop : s.topNode? = some n) (hlive : n ∈ t.live) (hn : t.node? n = some entry)
    (hcovering : entry.covering = some c) : Aligned t c s.size s.size c s := by
  obtain ⟨hlive', hdepth⟩ := hfaithful.depth_covering hlive hn hcovering
  have hplace : s.size = t.depth c + 1 := by rw [hdepth, hclimbs.depth_top htop]
  exact ⟨hlive', .of_topNode? htop hn hcovering, Nat.le_refl _, .inl ⟨rfl, rfl, hplace, rfl⟩⟩

variable {root node : NodeId} {start floor : Nat} {s s' : SearchStack Step}
  (h : Aligned t root start floor node s) (ht : t.Sound p)
include h

theorem start_le_floor : start ≤ floor := by
  rcases h.place with ⟨-, -, -, hfloor⟩ | ⟨-, m, e, -, -, -, hstart, -, hfloor, -⟩ <;> omega

include ht

theorem floor_le_depth : floor ≤ t.depth node + 1 := by
  rcases h.place with ⟨-, -, hstart, hfloor⟩ | ⟨-, m, e, hm, -, hmem, -, -, hfloor, -⟩
  · omega
  · rw [hfloor, ht.depth_child hm hmem]
    exact Nat.le_succ _

/-- Unwound to the parent of the node, the stack has the frames below `floor` left. -/
theorem unwound (hclimbs : s.Climbs t) (hnode : t.node? node = some entry) :
    s.Prefix floor (s.unwindTo start entry.parent) ∧
      (s.unwindTo start entry.parent).size = floor := by
  have hcut : s.Prefix start (s.unwindTo start entry.parent) := .unwindTo h.start_le
  have hsize : (s.unwindTo start entry.parent).size = floor := by
    rcases h.place with ⟨-, hsize, -, hfloor⟩ | ⟨-, m, e, hm, -, hmem, hstart, hle, hfloor, hframe⟩
    · rw [SearchStack.unwindTo, hsize, Nat.sub_self, hfloor]
      exact hsize
    · obtain ⟨d, hd, hparent⟩ := SearchTree.parent_eq_some_iff.1 (ht.child m e hm node hmem)
      obtain rfl : d = entry := Option.some.inj (hd.symm.trans hnode)
      rw [hparent, hfloor]
      exact hclimbs.size_unwindTo hstart hle hframe
  exact ⟨hsize ▸ hcut.full, hsize⟩

/-- After that, the node is not on the stack, unless it is the root. -/
theorem not_holds (hclimbs : s.Climbs t) (hnode : t.node? node = some entry) (hroot : node ≠ root) :
    ¬(s.unwindTo start entry.parent).Holds node := by
  obtain ⟨hcut, hsize⟩ := h.unwound ht hclimbs hnode
  obtain ⟨-, m, e, hm, -, hmem, -, -, hfloor, -⟩ := h.place.resolve_left fun hplace => hroot hplace.1
  refine (hclimbs.cut hcut).not_holds ?_
  rw [ht.depth_child hm hmem, hsize, hfloor]

/-- The walk goes on with a child. -/
theorem child (hnode : t.node? node = some entry) (huncovered : entry.covering = none)
    (hc : c ∈ entry.children) (hrests : s.Rests floor s') (hle : t.depth node + 1 ≤ s'.size)
    (hframe : node = root ∨ ∃ f, s'.frame? (t.depth node) = some f ∧ f.node = node) :
    Aligned t root start (t.depth c) c s' := by
  have hdepth := ht.depth_child hnode hc
  have hyounger : node.index < c.index := by
    obtain ⟨b, hedge⟩ := ht.exists_edge_of_child hnode hc
    exact ht.index_lt hedge
  have hstart := Nat.le_trans h.start_le_floor (h.floor_le_depth ht)
  have hbelow : s'.IsCoveredBelow t start :=
    (hrests.mono h.start_le_floor).isCoveredBelow h.covered
  refine ⟨ht.mem_live_of_child h.live hnode hc, hbelow, Nat.le_trans hstart hle, .inr ⟨?_, node, entry,
    hnode, huncovered, hc, hstart, hle, hdepth, ?_⟩⟩
  · rcases h.place with ⟨rfl, -⟩ | ⟨hroot, -⟩
    · exact hyounger
    · exact Nat.lt_trans hroot hyounger
  · rcases h.place with ⟨-, -, hstart, -⟩ | ⟨hroot, -⟩
    · exact .inl hstart
    · refine .inr (hframe.resolve_left ?_)
      rintro rfl
      exact Nat.lt_irrefl _ hroot

end Aligned

namespace Ends

open Exploration

variable [ChoiceSource χ] [LawfulChoiceSource χ] {counters : Counters} {realSize depth start floor : Nat}
  {roots : List NodeId} {root node : NodeId}

/-- A node of a walk is entered, if it is not the root: it gets the frame above those left. -/
theorem enterVirtual_climbs (ht : t.Sound p) (h : Roams p t counters x)
    (haligned : Aligned t root start floor node y.stack) (hsize : x.stack.size = floor)
    (hrests : y.stack.Rests floor x.stack) :
    Yields (Exploration.enterVirtual (p.context precision t settings) realSize start root node) x
      fun below x' => Roams p t counters x' ∧ x.stack.Rests floor x'.stack ∧
        (below = true → x'.stack.size = t.depth node + 1 ∧
          (node = root ∧ x'.stack = x.stack ∨ x'.stack.topNode? = some node)) := by
  unfold Exploration.enterVirtual
  split
  · rename_i hroot
    refine .pure ⟨h, .refl (Nat.le_of_eq hsize.symm), fun _ => ⟨?_, .inl ⟨hroot, rfl⟩⟩⟩
    rcases haligned.place with ⟨-, -, hstart, hfloor⟩ | ⟨hlt, -⟩
    · omega
    · rw [hroot] at hlt
      exact absurd hlt (Nat.lt_irrefl _)
  rename_i hroot
  obtain ⟨-, m, e, hm, huncovered, hmem, hstart, -, hfloor, -⟩ :=
    haligned.place.resolve_left fun hplace => hroot hplace.1
  obtain ⟨d, hd, hparent⟩ := SearchTree.parent_eq_some_iff.1 (ht.child m e hm node hmem)
  have hdepth : t.depth node = x.stack.size := by rw [ht.depth_child hm hmem, ← hfloor, hsize]
  have hcovered : x.stack.IsCoveredBelow t start :=
    (hrests.mono haligned.start_le_floor).isCoveredBelow haligned.covered
  have hle : start ≤ x.stack.size := hsize ▸ haligned.start_le_floor
  refine .bind ((push_climbs ht h.orderly h.climbs hd hparent hdepth (by omega)).yields.imp
    fun isNew x₁ hx₁ => ?_)
  obtain ⟨rfl, horderly, hclimbs, hrests₁, hsize₁, htop₁, haccount⟩ := hx₁
  -- the frame below is none of the parent, which is not covered
  rw [decide_eq_false (hcovered.not_topNode? hle hm huncovered)] at haccount
  have hplain : x₁.counters.plain = counters.plain :=
    (Counters.plain_eq_of_afterPush haccount).trans h.plain
  have hrests₁ : x.stack.Rests floor x₁.stack := hsize ▸ hrests₁
  rw [if_pos rfl]
  refine .bind (.get ?_)
  split
  · exact .bind (.modify (.pure ⟨⟨horderly.of_eq rfl fun _ => rfl, hclimbs, hplain⟩, hrests₁, nofun⟩))
  · exact .pure ⟨⟨horderly, hclimbs, hplain⟩, hrests₁, fun _ => ⟨by omega, .inr htop₁⟩⟩

omit [LawfulChoiceSource χ] in
/-- Where the walks through single children do so, the walk through some of the children keeps the stack
climbing, and the frames up to that for their parent. -/
theorem walkChildren_climbs {cs : List NodeId} (ht : t.Sound p)
    (hwalks : ∀ {floor : Nat} {node : NodeId} {x : Exploration Step χ}, Roams p t counters x →
      Aligned t root start floor node x.stack →
      Yields (Exploration.walkVirtual (p.context precision t settings) realSize depth roots root start
        node) x fun _ x' => Roams p t counters x' ∧ x.stack.Rests floor x'.stack)
    (haligned : Aligned t root start floor node x.stack) (hnode : t.node? node = some entry)
    (huncovered : entry.covering = none) (hcs : ∀ c ∈ cs, c ∈ entry.children)
    (hrests : x.stack.Rests floor y.stack) (h : Roams p t counters y)
    (hsize : y.stack.size = t.depth node + 1)
    (hplace : node = root ∨ y.stack.topNode? = some node) :
    Yields (cs.forM (Exploration.walkVirtual (p.context precision t settings) realSize depth roots root
      start)) y fun _ z => Roams p t counters z ∧ y.stack.Rests (t.depth node + 1) z.stack ∧
        ∀ c ∈ entry.children, Aligned t root start (t.depth c) c z.stack := by
  have hfloor := haligned.floor_le_depth ht
  have hchild : ∀ c z, c ∈ entry.children → y.stack.Rests (t.depth node + 1) z →
      Aligned t root start (t.depth c) c z := by
    intro c z hc hz
    have hframe : node = root ∨ ∃ f, z.frame? (t.depth node) = some f ∧ f.node = node := by
      refine hplace.imp_right fun htop => ?_
      obtain ⟨f, hf, hnode⟩ := SearchStack.topNode?_eq_some_iff.1 htop
      rw [hsize, Nat.add_sub_cancel] at hf
      obtain ⟨locks, hf'⟩ := hz.frame _ f (Nat.lt_succ_self _) hf
      exact ⟨{ f with locks }, hf', hnode⟩
    exact haligned.child ht hnode huncovered hc (hrests.trans hz hfloor) hz.size_le hframe
  refine (forM (I := fun z => Roams p t counters z ∧ y.stack.Rests (t.depth node + 1) z.stack)
    ⟨h, .refl (Nat.le_of_eq hsize.symm)⟩ fun c hc z hz => ?_).imp fun _ z hz =>
      ⟨hz.1, hz.2, fun c hc => hchild c _ hc hz.2⟩
  have hc := hcs c hc
  refine (hwalks hz.1 (hchild c _ hc hz.2)).imp fun _ z' hz' => ⟨hz'.1, hz.2.trans hz'.2 ?_⟩
  exact Nat.le_of_eq (ht.depth_child hnode hc).symm

/-- A walk keeps the stack climbing, and the frames below `floor`. -/
theorem walkVirtual_climbs (ht : t.Sound p) (hfaithful : t.Faithful) (h : Roams p t counters x)
    (haligned : Aligned t root start floor node x.stack) :
    Yields (Exploration.walkVirtual (p.context precision t settings) realSize depth roots root start
      node) x fun _ x' => Roams p t counters x' ∧ x.stack.Rests floor x'.stack := by
  induction depth generalizing roots root start floor node x with
  | zero => exact .throw trivial
  | succ depth ih =>
    unfold Exploration.walkVirtual
    refine .bind (.lookUp fun entry hnode => .bind (.modify ?_))
    obtain ⟨hcut, hsize⟩ := haligned.unwound ht h.climbs hnode
    refine .bind ((enterVirtual_climbs ht (h.cut ht hcut) haligned hsize (.of_cut hcut)).imp
      fun below x₂ hx₂ => ?_)
    obtain ⟨h₂, hrests₂, hbelow⟩ := hx₂
    have hrests : x.stack.Rests floor x₂.stack :=
      SearchStack.Rests.trans (.of_cut hcut) hrests₂ (Nat.le_refl _)
    split
    swap
    · exact .pure ⟨h₂, hrests⟩
    rename_i hin
    obtain ⟨hsize₂, hplace₂⟩ := hbelow hin
    have hfloor := haligned.floor_le_depth ht
    split
    · rename_i covering hcovering
      split
      swap
      · exact .pure ⟨h₂, hrests⟩
      -- a walk of its own, on top of a covered node
      obtain ⟨hlive, hdepth⟩ := hfaithful.depth_covering haligned.live hnode hcovering
      have hcovered : x₂.stack.IsCoveredBelow t x₂.stack.size :=
        ((hrests.mono haligned.start_le_floor).isCoveredBelow haligned.covered).restart hnode hcovering
          (haligned.place.imp (fun hroot => ⟨hroot.1, hroot.2.1⟩) And.left) hplace₂
      have haligned₂ : Aligned t covering x₂.stack.size x₂.stack.size covering x₂.stack :=
        ⟨hlive, hcovered, Nat.le_refl _, .inl ⟨rfl, rfl, by rw [hdepth, hsize₂], rfl⟩⟩
      refine .bind (.get (.bind ((ih h₂ haligned₂).imp fun _ x₃ hx₃ => .modify ?_)))
      obtain ⟨h₃, hrests₃⟩ := hx₃
      have hcut₃ := SearchStack.Prefix.truncate hrests₃.size_le
      refine ⟨h₃.cut ht hcut₃, ?_⟩
      exact hrests.trans (hrests₃.trans (.of_cut hcut₃) (Nat.le_refl _)) hrests.size_le
    · rename_i huncovered
      -- the frame for the node stays while the walk goes through its children
      exact (walkChildren_climbs ht ih haligned hnode huncovered (fun c => List.mem_reverse.1) hrests h₂
        hsize₂ (hplace₂.imp_left And.left)).imp fun _ x' hx' => ⟨hx'.1, hrests.trans hx'.2.1 hfloor⟩

/-- The walk below the node that covers the current one counts apart, and leaves the stack as high as it
was. -/
theorem virtualExploration_climbs (ht : t.Sound p) (hfaithful : t.Faithful) (h : Orderly p t x)
    (hclimbs : x.stack.Climbs t) (htop : x.stack.topNode? = some n) (hlive : n ∈ t.live)
    (hn : t.node? n = some entry) (hcovering : entry.covering = some c) :
    Yields (Exploration.virtualExploration (p.context precision t settings) c) x fun _ x' =>
      x'.stack.Climbs t ∧ x'.counters.plain = x.counters.plain ∧ x'.stack.size = x.stack.size := by
  have haligned : Aligned t c x.stack.size x.stack.size c x.stack :=
    .first hfaithful hclimbs htop hlive hn hcovering
  have hroams : Roams p t x.counters x := ⟨h, hclimbs, rfl⟩
  unfold Exploration.virtualExploration
  refine .bind (.get (.bind ((walkVirtual_climbs ht hfaithful hroams haligned).imp
    fun _ x₁ hx₁ => .modify ?_)))
  obtain ⟨h₁, hrests⟩ := hx₁
  refine ⟨h₁.climbs.cut (.truncate hrests.size_le), h₁.plain, ?_⟩
  show (x₁.stack.truncate x.stack.size).size = _
  rw [SearchStack.size_truncate, Nat.min_eq_left hrests.size_le]

end Ends

end Interleaving
