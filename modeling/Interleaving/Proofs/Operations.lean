import Interleaving.Proofs.Stacks

/-!
# What the operations of an exploration do

Each operation is described once, in terms of the stack and the sets of actions: what a push puts on
the stack and which sets it gives the state (`Ends.pushStep`), what a pop makes required
(`Ends.popFrame`), and what taking a step records (`Ends.recordTaken`). The invariants of the search
rest on these descriptions only.
-/

namespace Interleaving

variable {p : Program} {precision : Precision} {t : SearchTree ProgramState Step}
  {settings : Settings} {χ : Type} {x x' x₁ : Exploration Step χ}

/-! ## Pushing -/

section Pushing

variable {n : NodeId} {entry before : SearchTree.Node ProgramState Step} {last : Frame Step}
  {a : Step} {clock : Clock} {limit : Nat} {d : Decoration Step} {sleep : ActionSet Step}

/-- The sets of a state that is entered by the step `a`: nothing is taken yet, redundant is what was
so before and does not depend on `a`, and something is required if something is not redundant. -/
structure Fresh (p : Program) (precision : Precision) (entry : SearchTree.Node ProgramState Step)
    (a : Step) (sleep : ActionSet Step) (d : Decoration Step) : Prop where
  explored : d.explored = ∅
  mem_sleep : ∀ b, b ∈ d.sleep.toList ↔ b ∈ sleep.toList ∧ ¬Step.Depends precision b a
  canRun : ∀ b ∈ d.backtrack.toList, p.CanRun entry.state b
  awake : ∀ b, p.CanRun entry.state b → d.sleep.hasKey (Action.key b) = false →
    ∃ r ∈ d.backtrack.toList, d.sleep.hasKey (Action.key r) = false

/-- The frame of the step `a`, with its clock, is put on the stack, and the state gets the sets `d`. -/
structure Installed (x₁ : Exploration Step χ) (n : NodeId)
    (entry : SearchTree.Node ProgramState Step) (last : Frame Step)
    (before : SearchTree.Node ProgramState Step) (a : Step) (clock : Clock) (d : Decoration Step)
    (x' : Exploration Step χ) : Prop where
  stack : ∃ s spawned acquired released, x₁.stack.Relocks s ∧
    (∀ r ∈ spawned, entry.state.active.hasKey r ∧ before.state.active.hasKey r = false) ∧
    x'.stack = s.push
      (Exploration.nextFrame last x₁.stack.size n a clock spawned acquired released)
  table : x'.table = x₁.table.reset entry.stateId d

namespace Installed

theorem size_eq (h : Installed x₁ n entry last before a clock d x') :
    x'.stack.size = x₁.stack.size + 1 := by
  obtain ⟨s, _, _, _, hrelocks, -, hstack⟩ := h.stack
  rw [hstack, SearchStack.size_push, hrelocks.size_eq]

theorem topNode?_eq (h : Installed x₁ n entry last before a clock d x') :
    x'.stack.topNode? = some n := by
  obtain ⟨s, _, _, _, -, -, hstack⟩ := h.stack
  rw [hstack, SearchStack.topNode?_push]
  rfl

end Installed

/-- What a push for the node `n` comes to once the scan is done. -/
inductive Pushed (p : Program) (precision : Precision) (x₁ : Exploration Step χ) (n : NodeId)
    (entry : SearchTree.Node ProgramState Step) (last : Frame Step)
    (before : SearchTree.Node ProgramState Step) (a : Step) (clock : Clock) (limit : Nat) :
    Bool → Exploration Step χ → Prop where
  /-- The node stands on the stack already. -/
  | refused {x' : Exploration Step χ} : x₁.stack.Holds n → x'.stack = x₁.stack →
    (x'.table = x₁.table ∨ x₁.stack.HoldsBelow limit n ∧ x'.table =
      x₁.table.update entry.stateId ({ · with backtrack := p.enabledSet entry.state })) →
    Pushed p precision x₁ n entry last before a clock limit false x'
  /-- The state is only looked into. -/
  | visited {x' : Exploration Step χ} : ¬x₁.stack.Holds n →
    limit < x₁.stack.size ∨ entry.parent ≠ some last.node →
    Installed x₁ n entry last before a clock (Exploration.storedDecoration x₁.table entry.stateId) x' →
    Pushed p precision x₁ n entry last before a clock limit true x'
  /-- The state is explored. -/
  | entered {d : Decoration Step} {x' : Exploration Step χ} : ¬x₁.stack.Holds n →
    x₁.stack.size ≤ limit → entry.parent = some last.node →
    Fresh p precision entry a (x₁.table.sleep before.stateId) d →
    Installed x₁ n entry last before a clock d x' →
    Pushed p precision x₁ n entry last before a clock limit true x'

namespace Ends

open Exploration

variable {E : Exploration Step χ → Prop}

/-- The steps on the edges below a node can run there. -/
theorem canRun_of_mem_kept (ht : t.Sound p) (hn : t.node? n = some entry) {b : Step}
    (hb : b ∈ (keptActions (p.context precision t settings) entry).toList) :
    p.CanRun entry.state b := by
  unfold keptActions at hb
  split at hb
  · rcases Keyed.mem_of_mem_insertAll hb with hb | hb
    · simp at hb
    · obtain ⟨c, hc, hcb⟩ := List.mem_filterMap.1 hb
      rw [← SearchTree.state_eq hn]
      exact ht.canRun ⟨ht.child n entry hn c hc, hcb⟩
  · simp at hb

/-- The sets of a new state. -/
theorem freshDecoration [ChoiceSource χ] [LawfulChoiceSource χ] (ht : t.Sound p)
    (hn : t.node? n = some entry) :
    Ends (freshDecoration (p.context precision t settings) entry a sleep) x (fun d x' =>
      x'.stack = x.stack ∧ x'.table = x.table ∧ Fresh p precision entry a sleep d) E := by
  obtain ⟨S, hS, hmem⟩ := @inheritedSleep_system p precision a t settings sleep
  have hkept : ∀ b ∈ (keptActions (p.context precision t settings) entry).toList,
      p.CanRun entry.state b := fun b hb => canRun_of_mem_kept ht hn hb
  unfold Exploration.freshDecoration
  refine .bind (.ask hS (.bind (.enabledAt ?_)))
  generalize keptActions (p.context precision t settings) entry = kept at hkept
  have hofferable : ∀ b, b ∈ ((p.enabledSet entry.state).difference S).toList ↔
      p.CanRun entry.state b ∧ S.hasKey (Action.key b) = false := by
    intro b
    rw [Keyed.mem_difference, Program.mem_enabledSet_iff]
  -- required are the kept steps, and one more if all of these are redundant
  have hrequired : ∀ (r : Option Step), (∀ b, r = some b → p.CanRun entry.state b) →
      ∀ b ∈ (kept.insertAll r.toList).toList, p.CanRun entry.state b := by
    intro r hr b hb
    rcases Keyed.mem_of_mem_insertAll hb with hb | hb
    · exact hkept b hb
    · exact hr b (by simpa using hb)
  dsimp only
  split
  · refine .bind (.choose (fun hnil => .pure ⟨rfl, rfl, rfl, hmem, ?_, ?_⟩)
      fun b hb choices => .pure ⟨rfl, rfl, rfl, hmem, ?_, ?_⟩)
    · exact hrequired none fun b hb => by cases hb
    · intro b hb hawake
      have := (hofferable b).2 ⟨hb, hawake⟩
      rw [hnil] at this
      cases this
    · exact hrequired (some b) fun c hc => Option.some.inj hc ▸ ((hofferable b).1 hb).1
    · intro _ _ _
      have hkey : (kept.insertAll [b]).hasKey (Action.key b) :=
        Keyed.hasKey_insertAll.2 (.inr ⟨b, by simp, rfl⟩)
      obtain ⟨r, hr, hrb⟩ := Keyed.hasKey_iff.1 hkey
      exact ⟨r, hr, hrb ▸ ((hofferable b).1 hb).2⟩
  · rename_i hcondition
    refine .bind (.pure (.pure ⟨rfl, rfl, rfl, hmem, ?_, ?_⟩))
    · exact hrequired none fun b hb => by cases hb
    · intro _ _ _
      simp only [Bool.or_eq_true, not_or, Bool.not_eq_true] at hcondition
      obtain ⟨r, hr, hr'⟩ := List.all_eq_false.1 hcondition.2
      exact ⟨r, Keyed.mem_insertAll_of_mem hr, by simpa using hr'⟩

theorem installFrame {isVirtual : Bool} :
    Ends (installFrame (p.context precision t settings) n entry last before a clock d isVirtual) x
      (fun _ x' => Installed x n entry last before a clock d x') E := by
  have hspawned : ∀ r ∈ (entry.state.active.difference before.state.active).toList,
      entry.state.active.hasKey r ∧ before.state.active.hasKey r = false := by
    intro r hr
    obtain ⟨hr, hr'⟩ := Keyed.mem_difference.1 hr
    exact ⟨Keyed.hasKey_of_mem hr, hr'⟩
  unfold Exploration.installFrame
  refine .bind (.get ?_)
  refine .bind (.modify (.bind (.modify (.bind (.modify ?_)))))
  cases isVirtual <;> refine .modify ⟨⟨_, _, _, _, ?_, hspawned, rfl⟩, rfl⟩ <;> exact .releaseAll _ _

/-- A node that stands on the stack is refused. -/
theorem refuseCycle {position : Nat} :
    Ends (refuseCycle (p.context precision t settings) entry position limit) x (fun isNew x' =>
      isNew = false ∧ x'.stack = x.stack ∧ (x'.table = x.table ∨ position < limit ∧ x'.table =
        x.table.update entry.stateId ({ · with backtrack := p.enabledSet entry.state }))) E := by
  unfold Exploration.refuseCycle
  split
  · rename_i hlt
    exact .bind (.enabledAt (.bind (.modify (.bind (.modify (.pure ⟨rfl, rfl, .inr ⟨hlt, rfl⟩⟩))))))
  · exact .bind (.modify (.pure ⟨rfl, rfl, .inl rfl⟩))

/-- The end of a push: a node that stands on the stack is refused, any other one gets a frame. -/
theorem finishPush {position : Option Nat} {clock : Clock} {d : Decoration Step} {isVirtual : Bool}
    {Q : Bool → Exploration Step χ → Prop}
    (hrefuse : ∀ i, position = some i →
      Ends (Exploration.refuseCycle (p.context precision t settings) entry i limit) x Q E)
    (hinstall : position = none → Ends (do
      Exploration.installFrame (p.context precision t settings) n entry last before a clock d isVirtual
      Pure.pure true) x Q E) :
    Ends (match position with
      | some i => Exploration.refuseCycle (p.context precision t settings) entry i limit
      | none => do
        Exploration.installFrame (p.context precision t settings) n entry last before a clock d
          isVirtual
        Pure.pure true) x Q E := by
  cases position with
  | none => exact hinstall rfl
  | some i => exact hrefuse i rfl

/-- A push for a node reached by a step, once it is known what the scan comes to. -/
theorem pushStep [ChoiceSource χ] [LawfulChoiceSource χ]
    {R : RaceScan → Exploration Step χ → Prop} (ht : t.Sound p)
    (hn : t.node? n = some entry) (hlast : x.stack.frame? (x.stack.size - 1) = some last)
    (hscan : Yields (Exploration.scanBelow (p.context precision t settings) x.stack a limit
      (x.stack.size - 1) (.start last a.process x.stack.size)) x R)
    (hR : ∀ scan x₁, R scan x₁ → x₁.stack = x.stack) :
    Yields (pushStep (p.context precision t settings) n entry a limit) x fun isNew x' =>
      ∃ scan x₁ before, R scan x₁ ∧ t.node? last.node = some before ∧
        Pushed p precision x₁ n entry last before a scan.clock limit isNew x' := by
  -- both kinds of push end alike: the node is refused, or gets a frame
  have hrefuse : ∀ scan x₁ before x₂ position, R scan x₁ → t.node? last.node = some before →
      x₂.stack = x₁.stack → x₂.table = x₁.table → x.stack.position? n = some position →
      Yields (Exploration.refuseCycle (p.context precision t settings) entry position limit) x₂
        fun isNew x' => ∃ scan x₁ before, R scan x₁ ∧ t.node? last.node = some before ∧
          Pushed p precision x₁ n entry last before a scan.clock limit isNew x' := by
    intro scan x₁ before x₂ position hx₁ hbefore hstack htable hposition
    obtain ⟨f, hf, hnode⟩ := SearchStack.exists_frame_of_position? hposition
    rw [← hR scan x₁ hx₁] at hf
    refine refuseCycle.imp fun isNew x' hx' => ⟨scan, x₁, before, hx₁, hbefore, ?_⟩
    obtain ⟨rfl, hstack', htable'⟩ := hx'
    rw [htable] at htable'
    exact .refused ⟨position, f, hf, hnode⟩ (hstack'.trans hstack)
      (htable'.imp_right (And.imp_left fun hlt => ⟨position, f, hlt, hf, hnode⟩))
  have hinstall : ∀ scan x₁ before isVirtual d x₂, R scan x₁ → t.node? last.node = some before →
      x₂.stack = x₁.stack → x₂.table = x₁.table →
      (¬x₁.stack.Holds n → ∀ x', Installed x₁ n entry last before a scan.clock d x' →
        Pushed p precision x₁ n entry last before a scan.clock limit true x') →
      x.stack.position? n = none → Yields (do
        Exploration.installFrame (p.context precision t settings) n entry last before a scan.clock d
          isVirtual
        Pure.pure true) x₂ fun isNew x' => ∃ scan x₁ before, R scan x₁ ∧
          t.node? last.node = some before ∧
          Pushed p precision x₁ n entry last before a scan.clock limit isNew x' := by
    intro scan x₁ before isVirtual d x₂ hx₁ hbefore hstack htable hinstalled hposition
    have hholds : ¬x₁.stack.Holds n := by
      rw [hR scan x₁ hx₁]
      exact SearchStack.position?_eq_none_iff.1 hposition
    refine .bind (installFrame.imp fun _ x' hx' => .pure ⟨scan, x₁, before, hx₁, hbefore, ?_⟩)
    obtain ⟨hs, htable'⟩ := hx'
    rw [hstack] at hs
    rw [htable] at htable'
    exact hinstalled hholds x' ⟨hs, htable'⟩
  have hlast' : x.stack.top? = some last := SearchStack.top?_eq.trans hlast
  unfold Exploration.pushStep
  refine .bind (.get ?_)
  dsimp only
  rw [hlast']
  refine .bind (hscan.imp fun scan x₁ hx₁ => ?_)
  have hx := hR scan x₁ hx₁
  refine .bind (.lookUp fun before hbefore => ?_)
  split
  · rename_i hvirtual
    refine .bind (.get (.bind (.pure (finishPush (fun i => hrefuse scan x₁ before x₁ i hx₁ hbefore
      rfl rfl) (hinstall scan x₁ before _ _ x₁ hx₁ hbefore rfl rfl ?_)))))
    refine fun hholds x' hx' => .visited hholds ?_ hx'
    simpa [hx] using hvirtual
  · rename_i hvirtual
    refine .bind (.get (.bind ((freshDecoration ht hn).imp fun d x₂ hx₂ => ?_)))
    obtain ⟨hstack, htable, hfresh⟩ := hx₂
    refine finishPush (fun i => hrefuse scan x₁ before x₂ i hx₁ hbefore hstack htable)
      (hinstall scan x₁ before _ d x₂ hx₁ hbefore hstack htable ?_)
    simp only [Bool.or_eq_true, decide_eq_true_eq, bne_iff_ne, ne_eq, not_or, not_lt, not_not]
      at hvirtual
    exact fun hholds x' hx' => .entered hholds (hx ▸ hvirtual.1) hvirtual.2 hfresh hx'

/-- A push, where nothing counts of the scan but that it makes steps required at most. -/
theorem pushStep_widens [ChoiceSource χ] [LawfulChoiceSource χ] (ht : t.Sound p)
    (hn : t.node? n = some entry) (hlast : x.stack.frame? (x.stack.size - 1) = some last)
    (hgenuine : x.stack.IsGenuine p) (ha : p.HasStep a) :
    Yields (Exploration.pushStep (p.context precision t settings) n entry a limit) x fun isNew x' =>
      ∃ scan x₁ before, Widens p t x x₁ ∧ t.node? last.node = some before ∧
        Pushed p precision x₁ n entry last before a (Exploration.RaceScan.clock scan) limit isNew
          x' := by
  exact pushStep ht hn hlast (scanBelow_widens hgenuine ha rfl) fun scan x₁ hx₁ => hx₁.stack

end Ends

end Pushing

/-! ## Popping and taking -/

/-- The top frame is taken away, after some steps have become required below it. -/
structure Popped (p : Program) (t : SearchTree ProgramState Step) (x x' : Exploration Step χ) :
    Prop where
  stack : x'.stack = x.stack.pop
  widens : ∃ x₁, Widens p t x x₁ ∧ x'.table = x₁.table
  below : ∀ s, x'.table.get s = x.table.get s ∨ ∃ f e, 2 ≤ x.stack.size ∧
    x.stack.frame? (x.stack.size - 2) = some f ∧ t.node? f.node = some e ∧ e.stateId = s

namespace Popped

theorem isVisited_eq (h : Popped p t x x') (s : StateId) :
    x'.table.isVisited s = x.table.isVisited s := by
  obtain ⟨x₁, hwidens, htable⟩ := h.widens
  rw [htable, hwidens.visited]

theorem size_lt (h : Popped p t x x') (hsize : x.stack.size ≠ 0) : x'.stack.size < x.stack.size := by
  rw [h.stack, SearchStack.size_pop]
  omega

end Popped

namespace Ends

open Exploration

variable {n : NodeId} {s : StateId} {enabled : ActionSet Step} {a : Step} {limit : Nat}

theorem mem_enabledSet_of_mem_blockedBy {s : ProgramState} {locks : List LockId}
    (h : a ∈ blockedBy (p.system precision) (p.enabledSet s) locks) : p.CanRun s a := by
  obtain ⟨lock, -, h⟩ := List.mem_flatMap.1 h
  exact Program.mem_enabledSet_iff.1 (List.mem_of_mem_filter h)

/-- What locks have hidden is required below the top frame. -/
theorem forceBlocked {below : Frame Step} {i : Nat} {locks : List LockId}
    (hbelow : x.stack.frame? i = some below) :
    Yields (forceBlocked (p.context precision t settings) below.node locks) x fun _ x' =>
      Widens p t x x' ∧ ∀ s, x'.table.get s = x.table.get s ∨
        ∃ e, t.node? below.node = some e ∧ e.stateId = s := by
  unfold Exploration.forceBlocked
  refine .bind (.lookUp fun entry hentry => .bind (.enabledAt (.bind (.get ?_))))
  refine .bind (.modify (.modify ⟨.decorate hbelow hentry ?_ ?_ rfl rfl, fun s => ?_⟩))
  · exact fun b hb => Keyed.mem_insertAll_of_mem hb
  · intro b hb
    exact (Keyed.mem_of_mem_insertAll hb).imp_right mem_enabledSet_of_mem_blockedBy
  · dsimp only
    rw [DecorationTable.get_update]
    split
    · rename_i hs
      exact .inr ⟨entry, hentry, hs⟩
    · exact .inl rfl

theorem popFrame : Yields (popFrame (p.context precision t settings)) x fun _ x' =>
    Popped p t x x' := by
  -- the frame goes after whatever has become required
  have hpop : ∀ x₁, Widens p t x x₁ → (∀ s, x₁.table.get s = x.table.get s ∨ ∃ f e,
        2 ≤ x.stack.size ∧ x.stack.frame? (x.stack.size - 2) = some f ∧
        t.node? f.node = some e ∧ e.stateId = s) →
      Yields (do updateStack (·.pop); count fun c => { c with pops := c.pops + 1 } :
        ExploreM Step χ Empty Unit) x₁ fun _ x' => Popped p t x x' := by
    intro x₁ hx₁ hbelow
    refine .bind (.modify (.modify ⟨?_, ⟨x₁, hx₁, rfl⟩, hbelow⟩))
    show x₁.stack.pop = _
    rw [hx₁.stack]
  unfold Exploration.popFrame
  refine .bind (.get ?_)
  dsimp only
  split
  · rename_i hnone
    refine .pure ⟨?_, ⟨x, .refl x, rfl⟩, fun s => .inl rfl⟩
    have hempty : x.stack.frames = #[] := Array.back?_eq_none_iff.1 hnone
    show x.stack = ⟨x.stack.frames.pop⟩
    rw [hempty]
    show x.stack = ⟨#[]⟩
    rw [← hempty]
  · split
    · rename_i below lock locks hbelow _
      split
      · rename_i hsize
        refine .bind ((forceBlocked hbelow).imp fun _ x₁ hx₁ => hpop x₁ hx₁.1 fun s => ?_)
        exact (hx₁.2 s).imp_right fun ⟨e, he, hs⟩ => ⟨below, e, hsize, hbelow, he, hs⟩
      · exact hpop x (.refl x) fun s => .inl rfl
    · exact hpop x (.refl x) fun s => .inl rfl

/-- A step is taken at a state. -/
theorem recordTaken : Yields (recordTaken s enabled a : ExploreM Step χ Empty Unit) x
    fun _ x' => x'.stack = x.stack ∧ x'.table = x.table.update s (·.takeAmong enabled a) := by
  unfold Exploration.recordTaken
  refine .bind (.modify (.bind (.get ?_)))
  dsimp only
  split
  · exact .throw trivial
  · exact .pure ⟨rfl, rfl⟩

/-- The next step is one that may be offered; it is taken. -/
theorem nextAction [ChoiceSource χ] [LawfulChoiceSource χ] :
    Yields (nextAction (p.context precision t settings) s) x fun answer x' =>
    x'.stack = x.stack ∧ match answer with
      | none => x'.table = x.table
      | some a => a ∈ (x.table.offerable s).toList ∧ ∃ n entry, x.stack.topNode? = some n ∧
        t.node? n = some entry ∧ entry.stateId = s ∧
        x'.table = x.table.update s (·.takeAmong (p.enabledSet entry.state) a) := by
  unfold Exploration.nextAction
  refine .bind (.get ?_)
  split
  · exact .throw trivial
  · rename_i n hn
    refine .bind (.lookUp fun entry hentry => ?_)
    split
    · exact .throw trivial
    · rename_i hs
      have hs : entry.stateId = s := not_not.1 hs
      refine .bind (.get (.bind (.choose (fun _ => .pure ⟨rfl, rfl⟩) fun a ha choices => ?_)))
      refine .bind (.enabledAt (.bind (recordTaken.imp fun _ x' hx' => .pure ?_)))
      exact ⟨hx'.1, ha, n, entry, hn, hentry, hs, hx'.2⟩

/-! ## Adding nodes -/

variable [ChoiceSource χ]

/-- A round starts with the root, where everything enabled is required. -/
theorem addRoot (ht : t.Sound p) (hempty : x.stack.size = 0) :
    Yields (add (p.context precision t settings) SearchTree.root) x fun _ x' =>
      x'.stack = x.stack.push (.root SearchTree.root) ∧
      x'.table = (x.table.markVisited ⟨0⟩).reset ⟨0⟩ { backtrack := p.enabledSet p.initialState } := by
  obtain ⟨root, hroot, hparent, haction, hstate, -⟩ := ht.root
  have hlookUp : ∀ e, t.node? SearchTree.root = some e → e = root := fun e he =>
    Option.some.inj (he.symm.trans hroot)
  have hid : root.stateId = ⟨0⟩ := (ht.identity _ _ hroot).1
  unfold Exploration.add
  refine .bind (.get ?_)
  rw [SearchStack.topNode?_eq_none_iff.2 hempty]
  have htopmost : Yields (topmost (p.context precision t settings) (t.size + 1) SearchTree.root) x
      fun n x' => n = SearchTree.root ∧ x' = x := by
    refine .bind (.lookUp fun e he => ?_)
    rw [hlookUp e he, hparent]
    exact .pure ⟨rfl, rfl⟩
  refine .bind (htopmost.imp ?_)
  rintro _ _ ⟨rfl, rfl⟩
  refine .bind (.modify (.bind (.pure (.bind (.lookUp fun e he => .bind (.modify (.bind (.get ?_))))))))
  rw [hlookUp e he, hid]
  refine .bind (.lookUp fun e' he' => ?_)
  rw [hlookUp e' he', haction]
  refine .bind (.enabledAt (.bind (.modify (.bind (.modify (.bind (.modify (.pure ⟨rfl, ?_⟩))))))))
  rw [hid, hstate]

/-- A node is added above its parent. -/
theorem addChild {c top : NodeId} {Q : Bool → Exploration Step χ → Prop} (ht : t.Sound p)
    (htop : x.stack.topNode? = some top)
    (h : ∀ entry a, t.node? c = some entry → entry.parent = some top → entry.action = some a →
      Yields (Exploration.pushStep (p.context precision t settings) c entry a x.stack.size)
        { x with table := x.table.markVisited entry.stateId } Q) :
    Yields (add (p.context precision t settings) c) x Q := by
  unfold Exploration.add
  refine .bind (.get ?_)
  rw [htop]
  refine .bind (.lookUp fun entry hentry => ?_)
  split
  · rename_i hparent
    obtain ⟨-, a, -, -, haction, -⟩ := ht.edge c entry top hentry hparent
    refine .bind (.pure (.bind (.lookUp fun e he => .bind (.modify (.bind (.get ?_))))))
    obtain rfl : e = entry := Option.some.inj (he.symm.trans hentry)
    refine .bind (.lookUp fun e' he' => ?_)
    obtain rfl : e' = e := Option.some.inj (he'.symm.trans hentry)
    rw [haction]
    exact h e' a hentry hparent haction
  · exact .bind (.throw trivial)

/-- The child of the current node by the step `a` is added: after the scan of the step its frame is put
on top. -/
theorem addStep [LawfulChoiceSource χ] {R : RaceScan → Exploration Step χ → Prop}
    {last : Frame Step} {w : List Step} {n : NodeId} (ht : t.Sound p) (hfollows : Follows t x.stack w)
    (hlast : x.stack.frame? w.length = some last) (hedge : t.Edge last.node a n)
    (hscan : Yields (Exploration.scanBelow (p.context precision t settings) x.stack a (w.length + 1)
      w.length (.start last a.process (w.length + 1)))
        { x with table := x.table.markVisited ⟨n.index⟩ } R)
    (hR : ∀ scan x₁, R scan x₁ → x₁.stack = x.stack) :
    Yields (add (p.context precision t settings) n) x fun _ x' => ∃ scan x₁ entry before d,
      R scan x₁ ∧ t.node? n = some entry ∧ t.node? last.node = some before ∧
        Fresh p precision entry a (x₁.table.sleep ⟨last.node.index⟩) d ∧
        Installed x₁ n entry last before a scan.clock d x' := by
  have htop := hfollows.topNode?_eq hlast
  have hsize := hfollows.size_eq
  have hsize' : x.stack.size - 1 = w.length := by omega
  refine addChild ht htop fun entry b hentry hparent haction => ?_
  obtain rfl : a = b := by
    obtain ⟨entry', hentry', -, haction'⟩ := SearchTree.edge_iff.1 hedge
    obtain rfl : entry' = entry := Option.some.inj (hentry'.symm.trans hentry)
    exact Option.some.inj (haction'.symm.trans haction)
  rw [(ht.identity n entry hentry).1]
  let y : Exploration Step χ := { x with table := x.table.markVisited ⟨n.index⟩ }
  have hlast' : y.stack.frame? (y.stack.size - 1) = some last := hsize'.symm ▸ hlast
  have hscan' : Yields (Exploration.scanBelow (p.context precision t settings) y.stack a y.stack.size
      (y.stack.size - 1) (.start last a.process y.stack.size)) y R := by
    show Yields (Exploration.scanBelow _ x.stack a x.stack.size (x.stack.size - 1)
      (.start last a.process x.stack.size)) y R
    rw [hsize', hsize]
    exact hscan
  refine (pushStep ht hentry hlast' hscan' hR).imp ?_
  rintro isNew x' ⟨scan, x₁, before, hx₁, hbefore, hpushed⟩
  have hstack := hR scan x₁ hx₁
  -- a child of the current node stands nowhere on the stack, and is entered
  cases hpushed with
  | refused hholds => exact absurd (hstack ▸ hholds) (hfollows.not_holds_child ht htop hedge)
  | visited _ hlimit =>
    rcases hlimit with hlimit | hlimit
    · rw [hstack] at hlimit
      exact absurd hlimit (Nat.lt_irrefl _)
    · exact absurd hparent hlimit
  | entered _ _ _ hfresh hinstalled =>
    rw [(ht.identity last.node before hbefore).1] at hfresh
    exact ⟨scan, x₁, entry, before, _, hx₁, hentry, hbefore, hfresh, hinstalled⟩

/-! ## Loops -/

/-- The edges that are taken again lead to children that have not been visited, by steps that are not
redundant. -/
theorem of_mem_replayableEdges {table : DecorationTable Step} {n c : NodeId}
    {entry : SearchTree.Node ProgramState Step} (ht : t.Sound p) (hn : t.node? n = some entry)
    (h : (c, a) ∈ replayableEdges (p.context precision t settings) table entry) :
    c ∈ entry.children ∧ t.Edge n a c ∧ table.isVisited ⟨c.index⟩ = false ∧
      (table.sleep ⟨n.index⟩).hasKey (Action.key a) = false := by
  obtain ⟨c', hc', h⟩ := List.mem_filterMap.1 h
  obtain ⟨child, hchild, h⟩ := Option.bind_eq_some_iff.1 h
  obtain ⟨a', ha', h⟩ := Option.bind_eq_some_iff.1 h
  obtain ⟨⟨⟩, hguard, h⟩ := Option.bind_eq_some_iff.1 h
  obtain ⟨rfl, rfl⟩ := Prod.mk.inj (Option.some.inj h)
  have hopen : (!table.isVisited child.stateId && !(table.sleep entry.stateId).contains a') = true :=
    (Option.guard_eq_some' ()).1 hguard
  simp only [Bool.and_eq_true, Bool.not_eq_true'] at hopen
  have hedge : t.Edge n a' c' :=
    ⟨ht.child n entry hn c' hc', SearchTree.action_eq_some_iff.2 ⟨child, hchild, ha'⟩⟩
  rw [(ht.identity c' child hchild).1, (ht.identity n entry hn).1] at hopen
  exact ⟨hc', hedge, hopen⟩

/-- An edge that is neither redundant nor visited in the round can be taken again. -/
theorem mem_replayableEdges {table : DecorationTable Step} {c : NodeId}
    {entry child : SearchTree.Node ProgramState Step} (hc : c ∈ entry.children)
    (hchild : t.node? c = some child) (haction : child.action = some a)
    (hnew : table.isVisited child.stateId = false)
    (hawake : (table.sleep entry.stateId).contains a = false) :
    (c, a) ∈ replayableEdges (p.context precision t settings) table entry := by
  refine List.mem_filterMap.2 ⟨c, hc, ?_⟩
  refine Option.bind_eq_some_iff.2 ⟨child, hchild, Option.bind_eq_some_iff.2 ⟨a, haction, ?_⟩⟩
  refine Option.bind_eq_some_iff.2 ⟨(), (Option.guard_eq_some' ()).2 ?_, rfl⟩
  rw [hnew, hawake]
  rfl

section Loops

variable {I E : Exploration Step χ → Prop}

theorem pick {count : Nat} {Q : Nat → Exploration Step χ → Prop}
    (h : ∀ i choices, Q i { x with choices }) :
    Ends (pick count : ExploreM Step χ Empty _) x Q E := .modifyGet (h _ _)

variable (hE : ∀ x, I x → E x) (hI : ∀ x x', I x → x'.stack = x.stack → x'.table = x.table → I x')
include hE hI

/-- What taking an edge of an earlier round preserves, taking all of them preserves. -/
theorem replayEdges (hx : I x)
    (hstep : ∀ x top entry c a, I x → x.stack.topNode? = some top → t.node? top = some entry →
      (c, a) ∈ replayableEdges (p.context precision t settings) x.table entry →
      Ends (do
        Exploration.recordTaken entry.stateId (p.enabledSet entry.state) a
        count fun c => { c with lazyReplays := c.lazyReplays + 1 }
        add (p.context precision t settings) c) x (fun _ => I) E) :
    Ends (replayEdges (p.context precision t settings) limit) x (fun _ => I) E := by
  induction limit generalizing x with
  | zero => exact .throw (hE x hx)
  | succ limit ih =>
    refine .bind (.get ?_)
    split
    · exact .pure hx
    · rename_i top htop
      refine .bind (.lookUp_or (hE x hx) fun entry hentry => .bind (.get ?_))
      dsimp only
      split
      · rename_i hne
        refine .bind (pick fun i choices => ?_)
        split
        · exact .throw (hE _ (hI x _ hx rfl rfl))
        · rename_i c a hget
          refine .bind (.enabledAt ?_)
          have hstep := hstep { x with choices } top entry c a (hI x _ hx rfl rfl) htop hentry
            (List.mem_of_getElem? hget)
          exact .bind ((bind_iff.1 hstep).imp fun _ x₁ hx₁ => .bind ((bind_iff.1 hx₁).imp
            fun _ x₂ hx₂ => .bind (hx₂.imp fun _ x₃ hx₃ => ih hx₃)))
      · exact .pure hx

theorem exploreLazily (hx : I x)
    (hstep : ∀ x top entry c a, I x → x.stack.topNode? = some top → t.node? top = some entry →
      (c, a) ∈ replayableEdges (p.context precision t settings) x.table entry →
      Ends (do
        Exploration.recordTaken entry.stateId (p.enabledSet entry.state) a
        count fun c => { c with lazyReplays := c.lazyReplays + 1 }
        add (p.context precision t settings) c) x (fun _ => I) E) :
    Ends (exploreLazily (p.context precision t settings)) x (fun _ => I) E := by
  unfold Exploration.exploreLazily
  split
  · exact replayEdges hE hI hx hstep
  · exact .pure hx

omit hI

/-- What a pop and the edges after it preserve, popping all that is exhausted preserves. The current
node is neither subsumed nor exhausted afterwards. -/
theorem dropExhausted (hx : I x)
    (hpop : ∀ x top entry, I x → x.stack.topNode? = some top → t.node? top = some entry →
      (entry.isSubsumed || (entry.expanded && (x.table.offerable entry.stateId).isEmpty)) = true →
      Ends (Exploration.popFrame (p.context precision t settings)) x (fun _ => I) E)
    (hlazy : ∀ x, I x → Ends (Exploration.exploreLazily (p.context precision t settings)) x
      (fun _ => I) E) :
    Ends (dropExhausted (p.context precision t settings) limit) x (fun _ x' => I x' ∧
      ∀ top entry, x'.stack.topNode? = some top → t.node? top = some entry →
        entry.isSubsumed = false) E := by
  induction limit generalizing x with
  | zero => exact .throw (hE x hx)
  | succ limit ih =>
    refine .bind (.get ?_)
    split
    · rename_i hnone
      exact .pure ⟨hx, fun top entry htop => nomatch hnone.symm.trans htop⟩
    · rename_i top htop
      refine .bind (.lookUp_or (hE x hx) fun entry hentry => .bind (.get ?_))
      dsimp only
      split
      · rename_i hexhausted
        refine .bind ((hpop x top entry hx htop hentry hexhausted).imp fun _ x₁ hx₁ => ?_)
        exact .bind ((hlazy x₁ hx₁).imp fun _ x₂ hx₂ => ih hx₂)
      · rename_i hgoesOn
        simp only [Bool.or_eq_true, not_or, Bool.not_eq_true] at hgoesOn
        exact .pure ⟨hx, SearchStack.forall_top htop hentry hgoesOn.1⟩

/-- What the walk below a covering node, the edges of earlier rounds, and pops preserve, the question
for the end of a round preserves. -/
theorem isEmpty (hx : I x)
    (hcovered : ∀ x top entry covering, I x → x.stack.topNode? = some top →
      t.node? top = some entry → entry.covering = some covering →
      Ends (virtualExploration (p.context precision t settings) covering) x (fun _ => I) E)
    (hpop : ∀ x top entry, I x → x.stack.topNode? = some top → t.node? top = some entry →
      (entry.isSubsumed || (entry.expanded && (x.table.offerable entry.stateId).isEmpty)) = true →
      Ends (Exploration.popFrame (p.context precision t settings)) x (fun _ => I) E)
    (hlazy : ∀ x, I x → Ends (Exploration.exploreLazily (p.context precision t settings)) x
      (fun _ => I) E) :
    Ends (isEmpty (p.context precision t settings)) x (fun b x' => I x' ∧
      (b = true → x'.stack.size = 0) ∧
      ∀ top entry, x'.stack.topNode? = some top → t.node? top = some entry →
        entry.isSubsumed = false) E := by
  have hdrop : ∀ x, I x → ∀ limit, Ends (do
      Exploration.dropExhausted (p.context precision t settings) limit
      return (← MonadState.get).stack.isEmpty) x (fun b x' => I x' ∧ (b = true → x'.stack.size = 0) ∧
        ∀ top entry, x'.stack.topNode? = some top → t.node? top = some entry →
          entry.isSubsumed = false) E := by
    intro x hx limit
    refine .bind ((dropExhausted hE hx hpop hlazy).imp fun _ x' hx' => .bind (.get (.pure ?_)))
    exact ⟨hx'.1, SearchStack.isEmpty_iff.1, hx'.2⟩
  unfold Exploration.isEmpty
  refine .bind (.get ?_)
  split
  · rename_i hnone
    exact .pure ⟨hx, fun _ => SearchStack.topNode?_eq_none_iff.1 hnone,
      fun top entry htop => nomatch hnone.symm.trans htop⟩
  · rename_i top htop
    refine .bind (.lookUp_or (hE x hx) fun entry hentry => ?_)
    split
    · rename_i covering hcovering _
      split
      · refine .bind ((hcovered x top entry covering hx htop hentry hcovering).imp fun _ x₁ hx₁ => ?_)
        exact .bind (.get (hdrop x₁ hx₁ _))
      · exact .bind (.get (hdrop x hx _))
    · refine .bind ((hlazy x hx).imp fun _ x₁ hx₁ => ?_)
      exact .bind (.get (hdrop x₁ hx₁ _))

end Loops

omit [ChoiceSource χ] in
theorem count {f : Counters → Counters} {Q : Unit → Exploration Step χ → Prop}
    (h : ∀ counters, Q () { x with counters }) :
    Yields (Exploration.count f : ExploreM Step χ Empty _) x Q := .modify (h _)

theorem remove {R : Exploration Step χ → Prop}
    (h : Yields (Exploration.isEmpty (p.context precision t settings)) x fun _ => R) :
    Yields (remove (p.context precision t settings)) x fun n x' =>
      R x' ∧ x'.stack.topNode? = some n := by
  unfold Exploration.remove
  refine .bind (h.imp fun b x' hx' => ?_)
  split
  · exact .throw trivial
  · refine .bind (.get ?_)
    split
    · rename_i n hn
      exact .pure ⟨hx', hn⟩
    · exact .throw trivial

end Ends

/-! ## Sets of a node -/

namespace Exploration

/-- The sets of the state of a node. -/
def sets (x : Exploration Step Seeded) (n : NodeId) : Decoration Step := x.table.get ⟨n.index⟩

/-- The node has been visited in the current round. -/
def Visits (x : Exploration Step Seeded) (n : NodeId) : Prop := x.table.isVisited ⟨n.index⟩

/-- The step was redundant at the node when the round came to it. -/
def Asleep (x : Exploration Step Seeded) (n : NodeId) (a : Step) : Prop :=
  a ∈ (x.sets n).asleep.toList

end Exploration

namespace Installed

variable {x₁ x' : Exploration Step Seeded} {n m : NodeId} {last : Frame Step} {a : Step} {clock : Clock}
  {entry before : SearchTree.Node ProgramState Step} {d : Decoration Step}
  (h : Installed x₁ n entry last before a clock d x') (hid : entry.stateId = ⟨n.index⟩)
include h hid

theorem sets_self : x'.sets n = d := by
  rw [Exploration.sets, h.table, DecorationTable.get_reset, if_pos hid]

theorem sets_of_ne (hm : m ≠ n) : x'.sets m = x₁.sets m := by
  rw [Exploration.sets, h.table, DecorationTable.get_reset, if_neg]
  · rfl
  · rw [hid]
    exact fun heq => hm (NodeId.eq_of_stateId_eq heq.symm)

end Installed

section Taking

variable {x x' : Exploration Step Seeded} {n : NodeId} {a b : Step}

/-- The step `a` is taken at the node `n`, and required together with all that its thread can do. -/
structure Takes (p : Program) (t : SearchTree ProgramState Step) (n : NodeId) (a : Step)
    (x x' : Exploration Step Seeded) : Prop where
  stack : x'.stack = x.stack
  visits : ∀ m, x'.Visits m ↔ x.Visits m
  sets_self : x'.sets n = (x.sets n).takeAmong (p.enabledSet (t.state n)) a
  sets_ne : ∀ m, m ≠ n → x'.sets m = x.sets m
  canRun : p.CanRun (t.state n) a
  awake : (x.sets n).sleep.hasKey (Action.key a) = false

namespace Takes

variable {m : NodeId}

theorem of_update {entry : SearchTree.Node ProgramState Step} (ht : t.Sound p)
    (hn : t.node? n = some entry) (ha : p.CanRun entry.state a)
    (hawake : (x.sets n).sleep.hasKey (Action.key a) = false) (hstack : x'.stack = x.stack)
    (htable : x'.table = x.table.update entry.stateId
      (·.takeAmong (p.enabledSet entry.state) a)) : Takes p t n a x x' := by
  have hid : entry.stateId = ⟨n.index⟩ := (ht.identity _ _ hn).1
  have hstate := SearchTree.state_eq hn
  refine ⟨hstack, fun m => ?_, ?_, fun m hm => ?_, hstate ▸ ha, hawake⟩
  · rw [Exploration.Visits, htable]
    rfl
  · rw [Exploration.sets, htable, DecorationTable.get_update, if_pos hid, hid, hstate]
    rfl
  · rw [Exploration.sets, htable, DecorationTable.get_update, if_neg]
    · rfl
    · rw [hid]
      exact fun heq => hm (NodeId.eq_of_stateId_eq heq.symm)

variable (h : Takes p t n a x x')
include h

theorem keeps (hb : b ∈ (x.sets m).backtrack.toList) : b ∈ (x'.sets m).backtrack.toList := by
  by_cases hm : m = n
  · subst hm
    rw [h.sets_self]
    exact Keyed.mem_insert.2 (.inl (Keyed.mem_insertAll_of_mem hb))
  · rw [h.sets_ne m hm]
    exact hb

theorem adds (hb : b ∈ (x'.sets m).backtrack.toList) :
    b ∈ (x.sets m).backtrack.toList ∨ m = n ∧ p.CanRun (t.state n) b := by
  by_cases hm : m = n
  · subst hm
    rw [h.sets_self] at hb
    rcases Keyed.mem_insert.1 hb with hb | ⟨rfl, -⟩
    · refine (Keyed.mem_of_mem_insertAll hb).imp_right fun hb => ⟨rfl, ?_⟩
      exact Program.mem_enabledSet_iff.1 (Keyed.mem_filter.1 hb).1
    · exact .inr ⟨rfl, h.canRun⟩
  · rw [h.sets_ne m hm] at hb
    exact .inl hb

theorem mem_sleep_iff :
    b ∈ (x'.sets m).sleep.toList ↔ b ∈ (x.sets m).sleep.toList ∨ m = n ∧ b = a := by
  by_cases hm : m = n
  · subst hm
    have hawake := h.awake
    rw [h.sets_self]
    show b ∈ ((x.sets m).sleep.insert a).toList ↔ _
    simp [hawake]
  · simp [h.sets_ne m hm, hm]

theorem mem_explored_iff (hexplored : ∀ c ∈ (x.sets n).explored.toList, c ∈ (x.sets n).sleep.toList) :
    b ∈ (x'.sets m).explored.toList ↔ b ∈ (x.sets m).explored.toList ∨ m = n ∧ b = a := by
  by_cases hm : m = n
  · subst hm
    have hkey : (x.sets m).explored.hasKey (Action.key a) = false := by
      rw [Bool.eq_false_iff]
      intro hkey
      obtain ⟨c, hc, hca⟩ := Keyed.hasKey_iff.1 hkey
      have hawake := h.awake
      rw [← hca, Keyed.hasKey_of_mem (hexplored c hc)] at hawake
      cases hawake
    rw [h.sets_self]
    show b ∈ ((x.sets m).explored.insert a).toList ↔ _
    simp [hkey]
  · simp [h.sets_ne m hm, hm]

end Takes

end Taking

end Interleaving
