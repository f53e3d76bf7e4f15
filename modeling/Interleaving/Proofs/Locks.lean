import Interleaving.Proofs.Sessions

/-!
# Locks left held

A frame keeps, for each lock that is held, the index of the frame whose step has acquired it. A push
takes such an entry away from a frame only if its step releases the lock
(`SearchStack.exists_frame_releaseAll`). So as long as no step on top of a frame releases a lock that
the step of the frame has acquired, the frame knows of it, and when the frame is popped all that the
lock has kept from running below becomes required (`Search.session_locksLeftHeld`).
-/

namespace Interleaving

variable {p : Program} {precision : Precision} {t : SearchTree ProgramState Step}
  {settings : Settings} {χ : Type} {x x' y : Exploration Step χ} {n m : NodeId}
  {entry : SearchTree.Node ProgramState Step} {a : Step} {L : LockId}

/-! ## Tables of locks -/

theorem SortedMap.get?_foldl_put (m : SortedMap LockId Nat) (locks : List LockId) (i : Nat) :
    get? (locks.foldl (fun m l => put m l i) m) L = if L ∈ locks then some i else get? m L := by
  induction locks generalizing m with
  | nil => rfl
  | cons l locks ih =>
    rw [List.foldl_cons, ih, get?_put]
    by_cases hl : L = l <;> by_cases hL : L ∈ locks <;> simp [hl, hL]

theorem SortedMap.get?_foldl_erase (m : SortedMap LockId Nat) (locks : List LockId) :
    get? (locks.foldl Keyed.erase m) L = if L ∈ locks then none else get? m L := by
  induction locks generalizing m with
  | nil => rfl
  | cons l locks ih =>
    rw [List.foldl_cons, ih, get?_erase]
    by_cases hl : L = l <;> by_cases hL : L ∈ locks <;> simp [hl, hL]

/-- The locks that are held in the one state and not in the other. -/
def ProgramState.locksBeyond (s s' : ProgramState) : List LockId :=
  ((Keyed.ofList s.locks.keys : SortedSet LockId).difference
    (Keyed.ofList s'.locks.keys : SortedSet LockId)).toList

theorem ProgramState.mem_locksBeyond {s s' : ProgramState} :
    L ∈ s.locksBeyond s' ↔ s.holder L ≠ none ∧ s'.holder L = none := by
  have hheld : ∀ s : ProgramState, (Keyed.ofList s.locks.keys : SortedSet LockId).hasKey L ↔
      s.holder L ≠ none := by
    intro s
    rw [Keyed.hasKey_ofList, holder, SortedMap.get?, ne_eq, Option.map_eq_none_iff,
      Keyed.find?_eq_none_iff, Bool.not_eq_false, Keyed.hasKey_iff]
    simp [Keyed.keys]
  have hmem : L ∈ (Keyed.ofList s.locks.keys : SortedSet LockId).toList ↔ s.holder L ≠ none := by
    rw [← hheld, Keyed.hasKey_iff]
    simp
  rw [locksBeyond, Keyed.mem_difference, hmem, Bool.eq_false_iff]
  exact and_congr_right fun _ => (not_congr (hheld s')).trans not_not

/-- The new frame has the index of the step for the locks that it has acquired. -/
theorem Exploration.get?_locks_nextFrame {last : Frame Step} {index : Nat} {clock : Clock}
    {spawned : List ProcessId} {acquired released : List LockId} (hacquired : L ∈ acquired)
    (hreleased : L ∉ released) :
    SortedMap.get? (nextFrame last index n a clock spawned acquired released).locks L = some index := by
  show SortedMap.get? (released.foldl Keyed.erase
    (acquired.foldl (fun locks lock => SortedMap.put locks lock index) last.locks)) L = _
  rw [SortedMap.get?_foldl_erase, if_neg hreleased, SortedMap.get?_foldl_put, if_pos hacquired]

/-- `f'` is `f`, apart from locks that are gone. -/
structure Frame.Sheds (f f' : Frame Step) : Prop where
  node : f'.node = f.node
  action : f'.action = f.action
  lastAction : f'.lastAction = f.lastAction
  clocks : f'.clocks = f.clocks
  locks : ∀ l i, SortedMap.get? f'.locks l = some i → SortedMap.get? f.locks l = some i

namespace Frame.Sheds

variable {f f' f'' : Frame Step}

theorem refl (f : Frame Step) : f.Sheds f := ⟨rfl, rfl, rfl, rfl, fun _ _ h => h⟩

theorem trans (h : f.Sheds f') (h' : f'.Sheds f'') : f.Sheds f'' where
  node := h'.node.trans h.node
  action := h'.action.trans h.action
  lastAction := h'.lastAction.trans h.lastAction
  clocks := h'.clocks.trans h.clocks
  locks l i hi := h.locks l i (h'.locks l i hi)

theorem release (f : Frame Step) (lock : LockId) : f.Sheds (f.release lock) := by
  refine ⟨rfl, rfl, rfl, rfl, fun l i hi => ?_⟩
  rw [Frame.release, SortedMap.get?_erase] at hi
  split at hi
  · cases hi
  · exact hi

end Frame.Sheds

namespace SearchStack

variable {s s' s'' : SearchStack Step} {f : Frame Step} {size i : Nat}

/-- Releasing locks takes no more than their own entries away. -/
theorem exists_frame_releaseAll (hf : s.frame? i = some f) (locks : List LockId) :
    ∃ f', (locks.foldl releaseWhereAcquired s).frame? i = some f' ∧ f.Sheds f' ∧
      ∀ l ∉ locks, SortedMap.get? f'.locks l = SortedMap.get? f.locks l := by
  induction locks generalizing s f with
  | nil => exact ⟨f, hf, .refl f, fun _ _ => rfl⟩
  | cons lock locks ih =>
    obtain ⟨g, hg, hsheds, hkeeps⟩ : ∃ g, (s.releaseWhereAcquired lock).frame? i = some g ∧ f.Sheds g ∧
        ∀ l ≠ lock, SortedMap.get? g.locks l = SortedMap.get? f.locks l := by
      unfold releaseWhereAcquired
      split
      · rename_i j _
        simp only [frame?, modify, Array.getElem?_modify] at hf ⊢
        rw [hf]
        split
        · refine ⟨f.release lock, rfl, .release f lock, fun l hl => ?_⟩
          rw [Frame.release, SortedMap.get?_erase, if_neg hl]
        · exact ⟨f, rfl, .refl f, fun _ _ => rfl⟩
      · exact ⟨f, hf, .refl f, fun _ _ => rfl⟩
    obtain ⟨f', hf', hsheds', hkeeps'⟩ := ih hg
    refine ⟨f', hf', hsheds.trans hsheds', fun l hl => ?_⟩
    rw [hkeeps' l fun hl' => hl (List.mem_cons_of_mem _ hl'), hkeeps l fun heq =>
      hl (heq ▸ List.mem_cons_self)]

theorem Prefix.size_le_size (h : s.Prefix size s') : s'.size ≤ s.size := by
  by_contra hlt
  obtain ⟨f, hf⟩ := exists_frame_of_lt (Nat.lt_of_not_le hlt)
  exact absurd (frame?_lt (h.frame _ f hf)) (Nat.lt_irrefl _)

/-- The lowest frames, as many as given, are those of `s` apart from locks that are gone. -/
def Sheds (size : Nat) (s s' : SearchStack Step) : Prop :=
  ∀ i f, i < size → s.frame? i = some f → ∃ f', s'.frame? i = some f' ∧ f.Sheds f'

namespace Sheds

theorem refl (size : Nat) (s : SearchStack Step) : Sheds size s s := fun _ f _ hf => ⟨f, hf, .refl f⟩

theorem trans (h : Sheds size s s') (h' : Sheds size s' s'') : Sheds size s s'' := by
  intro i f hi hf
  obtain ⟨f', hf', hsheds⟩ := h i f hi hf
  obtain ⟨f'', hf'', hsheds'⟩ := h' i f' hi hf'
  exact ⟨f'', hf'', hsheds.trans hsheds'⟩

theorem of_cut (h : s.Prefix size s') : Sheds size s s' := by
  intro i f hi hf
  exact ⟨f, (h.low i hi).trans hf, .refl f⟩

end Sheds

end SearchStack

/-! ## What a push makes of the stack -/

/-- A frame for the node is put on top, after the locks that its step has released are released where
they were acquired. -/
inductive Stacked (t : SearchTree ProgramState Step) (s : SearchStack Step) (n : NodeId)
    (entry : SearchTree.Node ProgramState Step) : SearchStack Step → Prop where
  | root : entry.action = none → Stacked t s n entry (s.push (.root n))
  | child {last : Frame Step} {before : SearchTree.Node ProgramState Step} {a : Step} {clock : Clock}
    {spawned : List ProcessId} : s.frame? (s.size - 1) = some last → t.node? last.node = some before →
    Stacked t s n entry
      (((before.state.locksBeyond entry.state).foldl SearchStack.releaseWhereAcquired s).push
        (Exploration.nextFrame last s.size n a clock spawned (entry.state.locksBeyond before.state)
          (before.state.locksBeyond entry.state)))

namespace Stacked

variable {s s' : SearchStack Step} {f g : Frame Step} {i : Nat}

theorem size_eq (h : Stacked t s n entry s') : s'.size = s.size + 1 := by
  cases h with
  | root => exact SearchStack.size_push
  | child => rw [SearchStack.size_push, (SearchStack.Relocks.releaseAll s _).size_eq]

theorem topNode?_eq (h : Stacked t s n entry s') : s'.topNode? = some n := by
  cases h <;> exact SearchStack.topNode?_push

/-- The frames below stay, apart from locks. An entry goes only if the step has released the lock. -/
theorem exists_frame (h : Stacked t s n entry s') (hn : t.node? n = some entry)
    (hf : s.frame? i = some f) : ∃ f', s'.frame? i = some f' ∧ f.Sheds f' ∧
      ∀ L, SortedMap.get? f'.locks L = SortedMap.get? f.locks L ∨
        ∃ m, s.topNode? = some m ∧ (t.state m).holder L ≠ none ∧ (t.state n).holder L = none := by
  have hlt := SearchStack.frame?_lt hf
  cases h with
  | root =>
    refine ⟨f, ?_, .refl f, fun _ => .inl rfl⟩
    rw [SearchStack.frame?_push, if_neg (Nat.ne_of_lt hlt)]
    exact hf
  | @child last before a clock spawned hlast hbefore =>
    obtain ⟨f', hf', hsheds, hkeeps⟩ := SearchStack.exists_frame_releaseAll hf
      (before.state.locksBeyond entry.state)
    refine ⟨f', ?_, hsheds, fun L => ?_⟩
    · rw [SearchStack.frame?_push, (SearchStack.Relocks.releaseAll s _).size_eq,
        if_neg (Nat.ne_of_lt hlt)]
      exact hf'
    · by_cases hmem : L ∈ before.state.locksBeyond entry.state
      · have hreleased := ProgramState.mem_locksBeyond.1 hmem
        rw [← SearchTree.state_eq hbefore, ← SearchTree.state_eq hn] at hreleased
        exact .inr ⟨last.node, SearchStack.topNode?_eq_some_iff.2 ⟨last, hlast, rfl⟩, hreleased⟩
      · exact .inl (hkeeps L hmem)

/-- The new frame has the index of the step for a lock that the step has acquired. -/
theorem get?_locks_top {e : SearchTree.Node ProgramState Step} (h : Stacked t s n entry s')
    (ht : t.Sound p) (hn : t.node? n = some entry) (htop : s.frame? (s.size - 1) = some f)
    (he : t.node? f.node = some e) (hg : s'.frame? s.size = some g) (hfree : e.state.holder L = none)
    (hheld : entry.state.holder L ≠ none) : SortedMap.get? g.locks L = some s.size := by
  cases h with
  | root hnone =>
    -- no lock is held in the initial state
    cases hparent : entry.parent with
    | none =>
      obtain ⟨r, hr, -, -, hstate, -⟩ := ht.root
      rw [ht.orphan n entry hn hparent, hr, Option.some.injEq] at hn
      rw [← hn, hstate] at hheld
      exact absurd rfl hheld
    | some m =>
      obtain ⟨-, a, -, -, ha, -⟩ := ht.edge n entry m hn hparent
      rw [hnone] at ha
      cases ha
  | @child last before a clock spawned hlast hbefore =>
    obtain rfl : f = last := Option.some.inj (htop.symm.trans hlast)
    obtain rfl : e = before := Option.some.inj (he.symm.trans hbefore)
    rw [SearchStack.frame?_push, (SearchStack.Relocks.releaseAll s _).size_eq, if_pos rfl] at hg
    obtain rfl := Option.some.inj hg
    refine Exploration.get?_locks_nextFrame (ProgramState.mem_locksBeyond.2 ⟨hheld, hfree⟩) ?_
    exact fun hmem => (ProgramState.mem_locksBeyond.1 hmem).1 hfree

end Stacked

namespace Ends

open Exploration

variable [ChoiceSource χ] {limit : Nat}

/-- A node that is refused leaves the stack as it is. -/
theorem push_stacked :
    Yields (Exploration.push (p.context precision t settings) n limit) x fun isNew x' =>
      (isNew = false → x'.stack = x.stack) ∧
      (isNew = true → ∃ entry, t.node? n = some entry ∧ Stacked t x.stack n entry x'.stack) := by
  unfold Exploration.push
  refine .bind (.lookUp fun entry hn => ?_)
  split
  · rename_i hnone
    refine .bind (.enabledAt (.bind (.modify (.bind (.modify (.bind (.modify (.pure ?_))))))))
    exact ⟨nofun, fun _ => ⟨entry, hn, .root hnone⟩⟩
  · rename_i a ha
    cases htop : x.stack.top? with
    | none =>
      unfold Exploration.pushStep
      refine .bind (.get ?_)
      dsimp only
      rw [htop]
      exact .throw trivial
    | some last =>
      rw [SearchStack.top?_eq] at htop
      refine pushStep_parts (R := fun _ => True) htop (scanBelow_steady.imp fun _ _ h => ⟨trivial, h⟩)
        (fun x₁ _ => .lookUp fun before hbefore => ⟨hbefore, rfl⟩) (fun x₂ position hx₂ => ?_)
        fun x₂ scan before d hx₂ _ hbefore => ?_
      · refine refuseCycle.imp ?_
        rintro isNew x' ⟨rfl, hstack, -⟩
        exact ⟨fun _ => hstack.trans hx₂.stack, nofun⟩
      · -- the frame is put on the stack that the scan and the choice of the sets leave as it is
        rw [← hx₂.stack] at htop ⊢
        generalize (decide (limit < x₂.stack.size) || entry.parent != some last.node) = isVirtual
        unfold Exploration.installFrame
        refine .bind (.bind (.get (.bind (.modify (.bind (.modify (.bind (.modify ?_))))))))
        cases isVirtual <;>
          exact .modify (.pure ⟨nofun, fun _ => ⟨entry, hn, .child htop hbefore⟩⟩)

end Ends

/-! ## What a pop makes required -/

theorem Frame.mem_locksAcquiredAt {f : Frame Step} {i : Nat} :
    L ∈ f.locksAcquiredAt i ↔ SortedMap.get? f.locks L = some i := by
  rw [SortedMap.get?_eq_some_iff, locksAcquiredAt]
  simp

/-- The lock keeps the step from running: the lock of atomic blocks keeps all steps from running, any
other one those that take it. -/
def LockId.Blocks (L : LockId) (a : Step) : Prop := L = .atomic ∨ ∃ m, L = .named m ∧ a.instr = .lock m

theorem Exploration.mem_blockedBy {s : ProgramState} {locks : List LockId} (hL : L ∈ locks)
    (ha : p.CanRun s a) (hblocks : L.Blocks a) :
    a ∈ blockedBy (p.system precision) (p.enabledSet s) locks := by
  refine List.mem_flatMap.2 ⟨L, hL, List.mem_filter.2 ⟨Program.mem_enabledSet_iff.2 ha, ?_⟩⟩
  obtain rfl | ⟨m, rfl, hinstr⟩ := hblocks
  · rfl
  · show (_ || Step.isBlockedBy a (.named m)) = true
    rw [Step.isBlockedBy, hinstr]
    simp [Instr.neededLock]

/-- All that a lock of the popped frame has kept from running below becomes required. -/
theorem Ends.popFrame_forces {top below : Frame Step} {i : Nat} (hsize : x.stack.size = i + 2)
    (htop : x.stack.frame? (i + 1) = some top) (hbelow : x.stack.frame? i = some below)
    (hentry : t.node? below.node = some entry) (hlock : SortedMap.get? top.locks L = some (i + 1)) :
    Yields (Exploration.popFrame (p.context precision t settings)) x fun _ x' =>
      ∀ a, p.CanRun entry.state a → L.Blocks a →
        (x'.table.get entry.stateId).backtrack.hasKey (Action.key a) := by
  have hmem : L ∈ top.locksAcquiredAt (i + 1) := Frame.mem_locksAcquiredAt.2 hlock
  unfold Exploration.popFrame
  refine .bind (.get ?_)
  dsimp only
  rw [SearchStack.top?_eq, hsize, show i + 2 - 1 = i + 1 by omega, show i + 2 - 2 = i by omega, htop]
  dsimp only
  rw [hbelow]
  split
  swap
  · rename_i hnone
    cases hlocks : top.locksAcquiredAt (i + 1) with
    | nil =>
      rw [hlocks] at hmem
      cases hmem
    | cons lock locks => exact absurd hlocks (hnone below lock locks rfl)
  -- the lock is among those that the frame has acquired, so there are some
  rename_i below' lock locks hbelow' hlocks
  obtain rfl := Option.some.inj hbelow'
  rw [← hlocks, if_pos (by omega)]
  unfold Exploration.forceBlocked
  refine .bind (.bind (.lookUp_of_node? hentry (.bind (.enabledAt (.bind (.get ?_))))))
  refine .bind (.modify (.modify (.bind (.modify (.modify fun a ha hblocks => ?_)))))
  show (DecorationTable.get (DecorationTable.update _ _ _) _).backtrack.hasKey _
  rw [DecorationTable.get_update, if_pos rfl]
  exact Keyed.hasKey_insertAll.2 (.inr ⟨a, Exploration.mem_blockedBy hmem ha hblocks, rfl⟩)

/-! ## Events -/

namespace Exploration

section

variable [ChoiceSource χ]

/-- What can happen between two moments, as far as the stack is concerned. Frames that are taken away
without a pop are those of a walk that turns back, or the stack is emptied. -/
inductive Event (p : Program) (t : SearchTree ProgramState Step) (settings : Settings)
    (x : Exploration Step χ) : Exploration Step χ → Prop where
  | rest {x' : Exploration Step χ} : x.stack.Prefix 0 x'.stack → x.counters.SameFrames x'.counters →
    Event p t settings x x'
  | push {x' : Exploration Step χ} {precision : Precision} {n : NodeId} {limit : Nat} {isNew : Bool} :
    push (p.context precision t settings) n limit x = .ok isNew x' → Event p t settings x x'
  | pop {x' : Exploration Step χ} {precision : Precision} :
    popFrame (p.context precision t settings) x = .ok () x' → Event p t settings x x'

/-- Events in a row, after each of which all is in order. -/
abbrev Course (p : Program) (t : SearchTree ProgramState Step) (settings : Settings) :
    Exploration Step χ → Exploration Step χ → Prop :=
  Relation.ReflTransGen fun x x' => Event p t settings x x' ∧ Orderly p t x'

namespace Course

theorem orderly (h : Orderly p t x) (hcourse : x.Course p t settings y) : Orderly p t y := by
  cases hcourse with
  | refl => exact h
  | tail _ hlast => exact hlast.2

/-- Nothing is pushed or popped. -/
theorem rest (hcourse : x.Course p t settings y) (hy : Orderly p t x')
    (hcut : y.stack.Prefix 0 x'.stack) (hframes : y.counters.SameFrames x'.counters) :
    x.Course p t settings x' := hcourse.tail ⟨.rest hcut hframes, hy⟩

theorem keep (hcourse : x.Course p t settings y) (hy : Orderly p t x') (hstack : x'.stack = y.stack)
    (hframes : y.counters.SameFrames x'.counters) : x.Course p t settings x' :=
  hcourse.rest hy (hstack ▸ .refl (Nat.zero_le _)) hframes

end Course

end

end Exploration

namespace Orderly

open Exploration

variable [ChoiceSource χ] [LawfulChoiceSource χ]
variable (ht : t.Sound p) (h : Orderly p t x) (hcourse : x.Course p t settings y)
include ht h hcourse

/-- A push for a node with a parent. -/
theorem push_course {limit : Nat} (hn : t.node? n = some entry) (hparent : entry.parent = some m)
    (hsize : 0 < y.stack.size) :
    Succeeds (Exploration.push (p.context precision t settings) n limit) y fun _ x' =>
      x.Course p t settings x' := by
  refine ((Ends.push_moves ht (hcourse.orderly h) hn hparent hsize).and_ok).imp ?_
  rintro isNew x' ⟨⟨htrail, -⟩, hpush⟩
  exact hcourse.tail ⟨.push hpush, Exploration.Move.orderly_trail ht (hcourse.orderly h) htrail⟩

theorem addChild_course (htop : y.stack.topNode? = some m) (hn : t.node? n = some entry)
    (hparent : entry.parent = some m) :
    Succeeds (Exploration.add (p.context precision t settings) n) y fun _ x' =>
      x.Course p t settings x' := by
  let marked : Exploration Step χ := { y with table := y.table.markVisited entry.stateId }
  have hmarked : x.Course p t settings marked :=
    hcourse.keep ((hcourse.orderly h).of_eq rfl fun _ => rfl) rfl ⟨rfl, rfl, rfl⟩
  have hsize : 0 < marked.stack.size := Nat.pos_of_ne_zero (SearchStack.size_ne_zero htop)
  exact Ends.add_child htop hn hparent (h.push_course ht hmarked hn hparent hsize)

omit [LawfulChoiceSource χ] in
theorem addRoot_course (hempty : y.stack.size = 0) (hn : t.node? n = some entry) :
    Succeeds (Exploration.add (p.context precision t settings) n) y fun _ x' =>
      x.Course p t settings x' := by
  let marked : Exploration Step χ :=
    { y with
      table := y.table.markVisited ⟨0⟩
      counters := { y.counters with rounds := y.counters.rounds + 1 } }
  have hy := hcourse.orderly h
  have hmarked : x.Course p t settings marked :=
    hcourse.keep (hy.of_eq rfl fun _ => rfl) rfl ⟨rfl, rfl, rfl⟩
  refine Ends.add_root ht hempty hn ((Ends.pushRoot_ends ht).and_ok.imp ?_)
  rintro isNew x' ⟨⟨-, hstack, htable, haccount⟩, hpush⟩
  have hmoves := Ends.addRoot_moves (p := p) (t := t) hempty hstack htable haccount
  exact hmarked.tail ⟨.push hpush, Exploration.Move.orderly_trail ht hy hmoves⟩

/-- An edge of an earlier round is taken again. -/
theorem replayEdge_course {c : NodeId} (htop : y.stack.topNode? = some n)
    (hn : t.node? n = some entry)
    (hedge : (c, a) ∈ replayableEdges (p.context precision t settings) y.table entry) :
    Succeeds (do
      Exploration.recordTaken entry.stateId (p.enabledSet entry.state) a
      Exploration.count fun c => { c with lazyReplays := c.lazyReplays + 1 }
      Exploration.add (p.context precision t settings) c) y fun _ x' => x.Course p t settings x' := by
  refine (hcourse.orderly h).replayEdge ht htop hn hedge fun z htrail hstack haccount _ _ hedge => ?_
  obtain ⟨child, hchild, hparent⟩ := SearchTree.parent_eq_some_iff.1 hedge.1
  have hz := Exploration.Move.orderly_trail ht (hcourse.orderly h) htrail
  exact h.addChild_course ht (hcourse.keep hz hstack (.of_replay haccount)) (hstack ▸ htop) hchild hparent

omit hcourse in
/-- The walk below a covering node is made up of pushes, and of frames that are taken away. -/
theorem virtualExploration_course {c : NodeId} (hclosed : t.Closed)
    (hcourse : x.Course p t settings y) (htop : y.stack.topNode? = some n)
    (hn : t.node? n = some entry) (hcovering : entry.covering = some c) :
    Succeeds (virtualExploration (p.context precision t settings) c) y fun _ x' =>
      x.Course p t settings x' ∧ y.stack.Relocks x'.stack := by
  refine Ends.virtualExploration_ends (I := fun z => x.Course p t settings z) ⟨?_, ?_, ?_⟩ ht hclosed
    hcourse (Nat.zero_le _) htop hn hcovering
  · intro z z' hz hstack htable haccount
    exact hz.keep ((hz.orderly h).of_eq hstack fun s => by rw [htable]) hstack (.of_account haccount)
  · exact fun z stack hz hcut => hz.rest ((hz.orderly h).cut ht hcut) hcut ⟨rfl, rfl, rfl⟩
  · intro z start m e k hz _ hstart hcovered _ hm _ hk
    have hsize : 0 < z.stack.size := Nat.lt_of_lt_of_le hcovered.1 hstart
    obtain ⟨d, hd, hparent⟩ := SearchTree.parent_eq_some_iff.1 (ht.child m e hm k hk)
    refine ((Ends.pushChild_moves ht (hz.orderly h) hm hk hsize).both
      ((h.push_course ht hz hd hparent hsize).mono (fun _ _ hx => hx) nofun)).imp ?_
    rintro isNew z' ⟨⟨-, -, hrests, htop⟩, hz'⟩
    exact ⟨hz', hrests, htop⟩

omit hcourse in
/-- The question for the end of a round is made up of events: each frame that the search drops is
popped. -/
theorem isEmpty_course (hclosed : t.Closed) :
    Succeeds (Exploration.isEmpty (p.context precision t settings)) x fun _ x' =>
      x.Course p t settings x' := by
  refine (h.isEmpty_preserves (J := fun z => x.Course p t settings z) ht hclosed .refl
    ?_ ?_ ?_ ?_).imp fun _ _ hx' => hx'.1.2
  · exact fun z z' hz hz' hstack _ haccount => hz.keep hz' hstack (.of_account haccount)
  · intro n e c htop hn hcovering
    exact (h.virtualExploration_course ht hclosed .refl htop hn hcovering).yields.imp
      fun _ _ hx' => hx'.1
  · exact fun z n e c a hz _ htop hn hedge => (h.replayEdge_course ht hz htop hn hedge).yields
  · intro z n hz horderly _
    refine ((Ends.popFrame_moves horderly).and_ok).yields.imp ?_
    rintro _ z' ⟨⟨htrail, -⟩, hpop⟩
    exact hz.tail ⟨.pop hpop, Exploration.Move.orderly_trail ht horderly htrail⟩

omit hcourse in
/-- Whatever a client asks for is made up of events. -/
theorem settles_course (hclosed : t.Closed) {call : Call}
    (hnodes : ∀ n ∈ call.nodes, ∃ e, t.node? n = some e) :
    Settles (call.perform (p.context precision t settings)) x fun x' => x.Course p t settings x' := by
  refine Call.settles .refl (fun n hn => ?_) (h.isEmpty_course ht hclosed) fun s => ?_
  · obtain ⟨entry, hentry⟩ := hnodes n hn
    exact Ends.add_settles hentry .refl (fun hempty => h.addRoot_course ht .refl hempty hentry)
      fun m htop hparent => h.addChild_course ht .refl htop hentry hparent
  · refine (h.nextAction_leads ht).imp ?_
    rintro x' ⟨hleads, hstack, hcounters⟩
    exact Course.keep .refl (hleads.orderly ht h) hstack (hcounters ▸ ⟨rfl, rfl, rfl⟩)

end Orderly

/-- An event takes frames away from the top, or puts one there. -/
theorem Exploration.Event.prefix_or_stacked [ChoiceSource χ] [LawfulChoiceSource χ]
    (h : Event p t settings x x') : x.stack.Prefix 0 x'.stack ∨
      ∃ n entry, t.node? n = some entry ∧ Stacked t x.stack n entry x'.stack := by
  cases h with
  | rest hcut => exact .inl hcut
  | @push _ n _ isNew hpush =>
    obtain ⟨hrefused, hstacked⟩ := Ends.push_stacked.of_ok hpush
    cases isNew with
    | false =>
      rw [hrefused rfl]
      exact .inl (.refl (Nat.zero_le _))
    | true => exact .inr ⟨n, hstacked rfl⟩
  | pop hpop =>
    rw [((Ends.popFrame (p := p) (t := t)).of_ok hpop).stack]
    refine .inl ⟨Nat.zero_le _, fun i f hf => ?_, fun i hi => absurd hi (Nat.not_lt_zero i)⟩
    rw [SearchStack.frame?_pop] at hf
    split at hf
    · exact hf
    · cases hf

/-! ## Locks in the history of a search -/

namespace Search

section

variable [ChoiceSource χ] {s s' : Search ProgramState Step χ}

/-- An event of the exploration, or a change of the tree. -/
inductive Event (p : Program) (s : Search ProgramState Step χ) : Search ProgramState Step χ → Prop where
  | explore {x : Exploration Step χ} : Exploration.Event p s.tree s.settings s.exploration x →
    Event p s (s.withExploration x)
  | change {t : SearchTree ProgramState Step} : s.tree.Change p t → Event p s (s.withTree t)

/-- An event after which all is in order. -/
def Happens (p : Program) (s s' : Search ProgramState Step χ) : Prop := Event p s s' ∧ s'.IsOrderly p

/-- Events in a row, after each of which all is in order. -/
abbrev Course (p : Program) : Search ProgramState Step χ → Search ProgramState Step χ → Prop :=
  Relation.ReflTransGen (Happens p)

/-- A frame has been put on top whose step has released the lock. -/
def Releases (L : LockId) (s s' : Search ProgramState Step χ) : Prop :=
  s'.exploration.stack.size = s.exploration.stack.size + 1 ∧ ∃ m n,
    s.exploration.stack.topNode? = some m ∧ s'.exploration.stack.topNode? = some n ∧
    (s.tree.state m).holder L ≠ none ∧ (s'.tree.state n).holder L = none

/-- Events during which the frame at `i` stays on the stack, and no step on top of it releases the
lock. -/
abbrev Holding (p : Program) (L : LockId) (i : Nat) :
    Search ProgramState Step χ → Search ProgramState Step χ → Prop :=
  Relation.ReflTransGen fun s s' =>
    Happens p s s' ∧ i < s'.exploration.stack.size ∧ ¬Releases L s s'

/-- The top frame is popped. -/
def Pops (p : Program) (s s' : Search ProgramState Step χ) : Prop :=
  ∃ precision, explore (p.system precision) Exploration.popFrame s = .ok () s'

/-- If the step of the frame above `i` has acquired the lock, the frame has the index of the step. -/
def KnowsLock (L : LockId) (i : Nat) (s : Search ProgramState Step χ) : Prop :=
  ∀ f g e d, s.exploration.stack.frame? i = some f → s.exploration.stack.frame? (i + 1) = some g →
    s.tree.node? f.node = some e → s.tree.node? g.node = some d → e.state.holder L = none →
    d.state.holder L ≠ none → SortedMap.get? g.locks L = some (i + 1)

end

variable [ChoiceSource χ] [LawfulChoiceSource χ] {s s' : Search ProgramState Step χ} {i : Nat}
  {f : Frame Step}

namespace Event

omit [LawfulChoiceSource χ] in
theorem retains (h : Event p s s') : s.tree.Retains s'.tree := by
  cases h with
  | explore => exact .refl _
  | change hchange => exact hchange.retains

/-- An event takes frames away from the top, or puts one there. -/
theorem prefix_or_stacked (hevent : Event p s s') :
    s.exploration.stack.Prefix 0 s'.exploration.stack ∨ s'.tree = s.tree ∧ ∃ n entry,
      s.tree.node? n = some entry ∧ Stacked s.tree s.exploration.stack n entry s'.exploration.stack := by
  cases hevent with
  | explore hevent =>
    exact hevent.prefix_or_stacked.imp_right fun hstacked => ⟨rfl, hstacked⟩
  | change => exact .inl (.refl (Nat.zero_le _))

/-- A frame that stays on the stack keeps its node, and its entry for a lock that is not released. -/
theorem exists_frame (hevent : Event p s s') (hf : s.exploration.stack.frame? i = some f)
    (hi : i < s'.exploration.stack.size) (hheld : ¬Releases L s s') :
    ∃ f', s'.exploration.stack.frame? i = some f' ∧ f'.node = f.node ∧
      SortedMap.get? f'.locks L = SortedMap.get? f.locks L := by
  rcases hevent.prefix_or_stacked with hcut | ⟨htree, n, entry, hn, hstacked⟩
  · obtain ⟨g, hg⟩ := SearchStack.exists_frame_of_lt hi
    obtain rfl : g = f := Option.some.inj ((hcut.frame i g hg).symm.trans hf)
    exact ⟨g, hg, rfl, rfl⟩
  · obtain ⟨f', hf', hsheds, hkeeps⟩ := hstacked.exists_frame hn hf
    refine ⟨f', hf', hsheds.node, (hkeeps L).resolve_right ?_⟩
    rintro ⟨m, hm, hbefore, hafter⟩
    exact hheld ⟨hstacked.size_eq, m, n, hm, hstacked.topNode?_eq, hbefore, htree ▸ hafter⟩

/-- A frame that is put on top knows what its step has acquired. -/
theorem knowsLock_of_push (hevent : Event p s s') (h : s.IsOrderly p)
    (hsize : s.exploration.stack.size = i + 1) (hsize' : s'.exploration.stack.size = i + 2) :
    s'.KnowsLock L i := by
  intro f' g e d hf' hg he hd hfree hheld
  rcases hevent.prefix_or_stacked with hcut | ⟨htree, n, entry, hn, hstacked⟩
  · have := hcut.size_le_size
    omega
  obtain ⟨f, hf⟩ := SearchStack.exists_top (Nat.lt_of_lt_of_eq (Nat.succ_pos i) hsize.symm)
  obtain ⟨f'', hf'', hsheds, -⟩ := hstacked.exists_frame hn hf
  rw [hsize] at hf''
  obtain rfl : f' = f'' := Option.some.inj (hf'.symm.trans hf'')
  have htop : g.node = n := by
    obtain ⟨g', hg', hnode⟩ := SearchStack.topNode?_eq_some_iff.1 hstacked.topNode?_eq
    rw [hsize'] at hg'
    rw [Option.some.inj (hg.symm.trans hg')]
    exact hnode
  rw [htree, hsheds.node] at he
  rw [htree, htop] at hd
  obtain rfl : entry = d := Option.some.inj (hn.symm.trans hd)
  rw [← hsize] at hg ⊢
  exact hstacked.get?_locks_top h.sound hn hf he hg hfree hheld

end Event

/-- As long as the lock is not released, the frame knows it. -/
theorem KnowsLock.holding (hknows : s.KnowsLock L i) (h : s.IsOrderly p)
    (hsize : i + 1 < s.exploration.stack.size) (hholding : Holding p L (i + 1) s s') :
    s'.IsOrderly p ∧ i + 1 < s'.exploration.stack.size ∧ s'.KnowsLock L i := by
  induction hholding with
  | refl => exact ⟨h, hsize, hknows⟩
  | @tail s₁ s₂ _ hevent ih =>
    obtain ⟨h₁, hsize₁, hknows₁⟩ := ih
    obtain ⟨⟨hevent, h₂⟩, hsize₂, hheld⟩ := hevent
    refine ⟨h₂, hsize₂, fun f' g' e' d' hf' hg' he' hd' hfree hheld' => ?_⟩
    -- both frames and their nodes were there before
    obtain ⟨f, hf⟩ := SearchStack.exists_frame_of_lt (Nat.lt_of_succ_lt hsize₁)
    obtain ⟨g, hg⟩ := SearchStack.exists_frame_of_lt hsize₁
    obtain ⟨f'', hf'', hfnode, -⟩ := hevent.exists_frame hf (Nat.lt_of_succ_lt hsize₂) hheld
    obtain ⟨g'', hg'', hgnode, hlock⟩ := hevent.exists_frame hg hsize₂ hheld
    obtain rfl : f' = f'' := Option.some.inj (hf'.symm.trans hf'')
    obtain rfl : g' = g'' := Option.some.inj (hg'.symm.trans hg'')
    obtain ⟨e, he⟩ := h₁.orderly.stands i f hf
    obtain ⟨d, hd⟩ := h₁.orderly.stands (i + 1) g hg
    obtain ⟨e'', he'', -, -, hestate⟩ := hevent.retains _ e he
    obtain ⟨d'', hd'', -, -, hdstate⟩ := hevent.retains _ d hd
    rw [hfnode] at he'
    rw [hgnode] at hd'
    obtain rfl : e' = e'' := Option.some.inj (he'.symm.trans he'')
    obtain rfl : d' = d'' := Option.some.inj (hd'.symm.trans hd'')
    rw [hlock]
    exact hknows₁ f g e d hf hg he hd (hestate ▸ hfree) (hdstate ▸ hheld')

omit [LawfulChoiceSource χ] in
/-- What is a course of the exploration is one of the search. -/
theorem course_explore {x : Exploration Step χ} (h : s.IsOrderly p)
    (hcourse : s.exploration.Course p s.tree s.settings x) : Course p s (s.withExploration x) := by
  refine Relation.ReflTransGen.lift s.withExploration ?_ _ _ hcourse
  rintro y z ⟨hevent, hz⟩
  exact ⟨.explore (s := s.withExploration y) hevent, h.sound, h.closed, hz⟩

/-- A call is made up of events, whether it is answered or refused. -/
theorem IsOrderly.settles_course {call : Exploration.Call} (h : s.IsOrderly p)
    (hnodes : ∀ n ∈ call.nodes, ∃ e, s.tree.node? n = some e) :
    Settles (ask p precision call) s (Course p s) :=
  Search.settles_ask ((h.orderly.settles_course h.sound h.closed hnodes).imp fun _ hx =>
    course_explore h hx)

/-- A session is a course of events from its start. -/
theorem Session.course {allowed : Precision → Prop} (h : Session p allowed s) :
    ∃ settings seed choices,
      Course p (.ofChoices settings seed choices (.singleton p.initialState)) s := by
  induction h with
  | start settings seed choices => exact ⟨settings, seed, choices, .refl⟩
  | @next s s' hsession hperforms ih =>
    obtain ⟨settings, seed, choices, hcourse⟩ := ih
    have h := hsession.isOrderly
    refine ⟨settings, seed, choices, hcourse.trans ?_⟩
    cases hperforms with
    | call _ hnodes hends => exact (h.settles_course hnodes).of_ends hends
    | clear =>
      refine .single ⟨.explore (.rest ?_ ⟨rfl, rfl, rfl⟩), path_clear.isOrderly h⟩
      refine ⟨Nat.zero_le _, fun i f hf => ?_, fun i hi => absurd hi (Nat.not_lt_zero i)⟩
      simp [Exploration.clear, SearchStack.frame?] at hf
    | change hchange => exact .single ⟨.change hchange, (Move.change hchange).isOrderly h⟩

/-- What a lock has kept from running becomes required when the frame is popped whose step has acquired
the lock. A session is a course of events, and so is whatever a client asks for: pushes, by the search
or by a walk, pops, and events at which no frame is pushed or popped. If the frame above `i` has been
put on the stack, and no step on top of it has released a lock that its step has acquired, then after
the frame is popped all steps that can run at the frame `i` and that the lock blocks are required
there. -/
theorem session_locksLeftHeld {allowed : Precision → Prop} (h : Session p allowed s) :
    (∃ settings seed choices,
      Course p (.ofChoices settings seed choices (.singleton p.initialState)) s) ∧
    (∀ precision call, (∀ n ∈ call.nodes, ∃ e, s.tree.node? n = some e) →
      Settles (ask p precision call) s (Course p s)) ∧
    ∀ s₁ s₂ s₃ s₄ i L, Course p s s₁ → Happens p s₁ s₂ → s₁.exploration.stack.size = i + 1 →
      s₂.exploration.stack.size = i + 2 → Holding p L (i + 1) s₂ s₃ →
      s₃.exploration.stack.size = i + 2 → Pops p s₃ s₄ →
      ∀ f g e d, s₃.exploration.stack.frame? i = some f →
        s₃.exploration.stack.frame? (i + 1) = some g → s₃.tree.node? f.node = some e →
        s₃.tree.node? g.node = some d → e.state.holder L = none → d.state.holder L ≠ none →
        ∀ a, p.CanRun e.state a → L.Blocks a →
          a ∈ (s₄.exploration.table.get e.stateId).backtrack.toList := by
  refine ⟨h.course, fun precision call hnodes => h.isOrderly.settles_course hnodes, ?_⟩
  intro s₁ s₂ s₃ s₄ i L hcourse hpushed hsize₁ hsize₂ hholding hsize₃ hpops f g e d hf hg he hd hfree
    hheld a ha hblocks
  have h₁ : s₁.IsOrderly p := by
    cases hcourse with
    | refl => exact h.isOrderly
    | tail _ hlast => exact hlast.2
  obtain ⟨h₃, -, hknows⟩ := (hpushed.1.knowsLock_of_push h₁ hsize₁ hsize₂).holding hpushed.2
    (by omega) hholding
  have hlock := hknows f g e d hf hg he hd hfree hheld
  obtain ⟨precision, hpop⟩ := hpops
  have hpopped : Ends (explore (p.system precision) Exploration.popFrame) s₃ (fun _ s' =>
      a ∈ (s'.exploration.table.get e.stateId).backtrack.toList) fun _ => False := by
    refine ends_explore (((Ends.popFrame_moves h₃.orderly).both
      (Ends.popFrame_forces hsize₃ hg hf he hlock)).imp ?_)
    rintro _ x ⟨⟨htrail, -⟩, hforced⟩
    have hx := Exploration.Move.orderly_trail h₃.sound h₃.orderly htrail
    have hgenuine : (x.table.get e.stateId).backtrack.IsGenuine p :=
      fun b hb => ((hx.agrees _ e he).required b hb).hasStep
    exact (hgenuine.hasKey_iff ha.hasStep).1 (hforced a ha hblocks)
  exact hpopped.of_ok hpop

/-- Two threads take the same lock, one of them after another step. -/
def twoLockers : Program := (Program.empty.thread [.idle, .lock "m"]).thread [.lock "m"]

/-- After the idle step the lock is taken by the one thread; when that is undone, the other thread has
to take it there as well. -/
theorem session_locksLeftHeld_twoLockers :
    let other : Step := ⟨⟨1⟩, 0, .lock "m"⟩
    ∃ s s' : Search ProgramState Step Seeded, Pops twoLockers s s' ∧
      (s.exploration.table.get ⟨1⟩).backtrack.hasKey (Action.key other) = false ∧
      other ∈ (s'.exploration.table.get ⟨1⟩).backtrack.toList := by
  intro other
  have heval : ((follow twoLockers none (Seeded.ofSeed 2) [⟨⟨0⟩, 0, .idle⟩]).bind
      (sprout twoLockers · ⟨⟨0⟩, 1, .lock "m"⟩)).any (fun s =>
        let ctx := twoLockers.context none s.tree s.settings
        s.exploration.stack.size == 2 &&
        (s.tree.node? ⟨1⟩).any (fun e => e.stateId == ⟨1⟩ && e.state.holder (.named "m") == none &&
          decide (other ∈ twoLockers.enabled e.state)) &&
        (s.tree.node? ⟨2⟩).any (fun d => d.parent == some ⟨1⟩ && d.state.holder (.named "m") != none) &&
        endedWith (fun _ x => x.stack.size == 3 && (x.stack.frame? 1).any (·.node == ⟨1⟩) &&
            (x.stack.frame? 2).any (·.node == ⟨2⟩) &&
            !(x.table.get ⟨1⟩).backtrack.hasKey (Action.key other) &&
            endedWith (fun _ _ => true) (Exploration.popFrame ctx x))
          (Exploration.push ctx ⟨2⟩ 2 s.exploration)) = true := by decide +kernel
  obtain ⟨s, hs, heval⟩ := (Option.any_eq_true _ _).1 heval
  obtain ⟨s₀, hs₀, hs⟩ := Option.bind_eq_some_iff.1 hs
  simp only [Bool.and_eq_true, beq_iff_eq] at heval
  obtain ⟨⟨⟨hsize, hbelow⟩, htop⟩, hpush⟩ := heval
  obtain ⟨e, he, hbelow⟩ := (Option.any_eq_true _ _).1 hbelow
  obtain ⟨d, hd, htop⟩ := (Option.any_eq_true _ _).1 htop
  obtain ⟨isNew, x, hpush, heval⟩ := exists_of_endedWith hpush
  simp only [Bool.and_eq_true, beq_iff_eq, bne_iff_ne, decide_eq_true_eq, Bool.not_eq_true'] at hbelow htop heval
  obtain ⟨⟨hid, hfree⟩, hrun⟩ := hbelow
  obtain ⟨hparent, hheld⟩ := htop
  obtain ⟨⟨⟨⟨hsize', hf⟩, hg⟩, hnot⟩, hpop⟩ := heval
  obtain ⟨f, hf, hfnode⟩ := (Option.any_eq_true _ _).1 hf
  obtain ⟨g, hg, hgnode⟩ := (Option.any_eq_true _ _).1 hg
  obtain ⟨_, x', hpop, -⟩ := exists_of_endedWith hpop
  have hsession := (session_follow hs₀).sprout hs
  have h := hsession.isOrderly
  have hmoves := (Ends.push_moves h.sound h.orderly hd hparent (by omega)).of_ok hpush
  let s₂ := s.withExploration x
  have hpushed : Happens twoLockers s s₂ :=
    ⟨.explore (.push hpush), h.sound, h.closed,
      Exploration.Move.orderly_trail h.sound h.orderly hmoves.1⟩
  have hpops : Pops twoLockers s₂ (s₂.withExploration x') := ⟨none, explore_eq_ok hpop⟩
  rw [← beq_iff_eq.1 hfnode] at he
  rw [← beq_iff_eq.1 hgnode] at hd
  refine ⟨s₂, _, hpops, hnot, ?_⟩
  have hrequired := (session_locksLeftHeld hsession).2.2 s s₂ s₂ _ 1 _ .refl hpushed hsize hsize' .refl
    hsize' hpops f g e d hf hg he hd hfree hheld other
    (Program.mem_enabled_iff.1 hrun) (.inr ⟨"m", rfl, rfl⟩)
  rwa [hid] at hrequired

end Search

end Interleaving
