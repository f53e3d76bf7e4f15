import Mathlib.Order.Bounds.Basic
import Interleaving.Proofs.Races
import Interleaving.Proofs.Settling

/-!
# What frames remember

A frame of the stack remembers at which index each thread has acted last, and the clock of a thread
names, for each thread, a step that comes before the last one of the first thread (`Frame.Remembers`).
Frames are made from the ones below: a push takes over what the top frame remembers, joins the clocks of
the frames that the scan stops at, and hands its own clock to the threads that its step spawns. That the
entries stay true is kept for all frames together (`FrameExact`), and an addition keeps it whatever the
source of choices answers (`Ends.add_exact`).
-/

namespace Interleaving

variable {p : Program} {precision : Precision} {t : SearchTree ProgramState Step}
  {settings : Settings} {χ : Type} {x x' : Exploration Step χ} {stack : SearchStack Step}
  {w : List Step} {n m : NodeId} {entry : SearchTree.Node ProgramState Step} {a b c e : Step}
  {q r : ProcessId} {k : Nat}

/-! ## The last step of a thread -/

/-- The step at index `k` is one of the thread. The first step of a run stands at index 1. -/
def ActsAt (w : List Step) (r : ProcessId) (k : Nat) : Prop :=
  1 ≤ k ∧ ∃ a, w[k - 1]? = some a ∧ a.process = r

/-- The last step of the thread stands at index `k`. -/
def ActsLastAt (w : List Step) (r : ProcessId) (k : Nat) : Prop := IsGreatest {j | ActsAt w r j} k

theorem ActsAt.le_length (h : ActsAt w r k) : k ≤ w.length := by
  obtain ⟨hpos, a, ha, -⟩ := h
  have := (List.getElem?_eq_some_iff.1 ha).1
  omega

theorem actsAt_append_singleton :
    ActsAt (w ++ [e]) r k ↔ ActsAt w r k ∨ k = w.length + 1 ∧ e.process = r := by
  constructor
  · rintro ⟨hpos, a, ha, har⟩
    rcases Nat.lt_or_ge (k - 1) w.length with hlt | hge
    · rw [List.getElem?_append_left hlt] at ha
      exact .inl ⟨hpos, a, ha, har⟩
    · have hlast := (List.getElem?_eq_some_iff.1 ha).1
      rw [List.length_append, List.length_singleton] at hlast
      obtain rfl : k = w.length + 1 := by omega
      obtain rfl : e = a := by simpa using ha
      exact .inr ⟨rfl, har⟩
  · rintro (⟨hpos, a, ha, har⟩ | ⟨rfl, her⟩)
    · refine ⟨hpos, a, ?_, har⟩
      rw [List.getElem?_append_left (List.getElem?_eq_some_iff.1 ha).1, ha]
    · exact ⟨Nat.succ_pos _, e, by simp, her⟩

/-- A new step is the last one of its thread. -/
theorem actsLastAt_append_self : ActsLastAt (w ++ [e]) e.process (w.length + 1) := by
  refine ⟨actsAt_append_singleton.2 (.inr ⟨rfl, rfl⟩), fun j hj => ?_⟩
  simpa using ActsAt.le_length hj

/-- The last steps of the other threads stay. -/
theorem actsLastAt_append_of_ne (hr : r ≠ e.process) :
    ActsLastAt (w ++ [e]) r k ↔ ActsLastAt w r k := by
  have hset : {j | ActsAt (w ++ [e]) r j} = {j | ActsAt w r j} := by
    ext j
    rw [Set.mem_ofPred_eq, actsAt_append_singleton]
    exact or_iff_left fun h => hr h.2.symm
  rw [ActsLastAt, hset]
  rfl

/-- What comes last for a thread: its last step or, as long as it has made none, the step that made it
active. -/
def Latest (p : Program) (w : List Step) (r : ProcessId) (b : Step) : Prop :=
  (∃ k, ActsLastAt w r k ∧ w[k - 1]? = some b) ∨ (∀ k, ¬ActsAt w r k) ∧ Activates p w b r

/-- What a thread does comes after the step that made it active. -/
theorem Activates.leads (hrun : p.IsRun p.initialState w) (h : Activates p w b r) (hc : c ∈ w)
    (hcr : c.process = r) : Leads precision w b c := by
  obtain ⟨u, v, rfl, hb, hinactive⟩ := h
  subst hcr
  have hspawns : Step.Depends precision b c :=
    depends_of_anchor (.inr ⟨u, v, rfl, hb, hinactive⟩)
  obtain ⟨hu, hbrun, -⟩ := Program.isRun_append.1 hrun
  rcases List.mem_append.1 hc with hc | hc
  · -- the thread cannot have acted before
    obtain ⟨u₁, u₂, rfl⟩ := List.append_of_mem hc
    obtain ⟨-, hcrun, -⟩ := Program.isRun_append.1 hu
    refine absurd ?_ hinactive
    rw [ProgramState.afterAll_append]
    exact Program.hasKey_active_afterAll.2 (.inl hcrun.active)
  · rcases List.mem_cons.1 hc with rfl | hc
    · exact .refl
    · exact .single ⟨Precedes.append_iff.2 (.inr (.inl (Precedes.cons_iff.2 (.inl ⟨rfl, hc⟩)))), hspawns⟩

/-! ## What a frame remembers -/

/-- The frame after a run remembers the index of the last step of each thread. For each entry of the
clock of a thread, the step at the index is one of the thread that the entry is for, and it is what comes
last for the thread of the clock, or happens before that. -/
structure Frame.Remembers (p : Program) (precision : Precision) (w : List Step) (f : Frame Step) :
    Prop where
  lastAction : ∀ r k, SortedMap.get? f.lastAction r = some k ↔ ActsLastAt w r k
  clock : ∀ r clock q k, SortedMap.get? f.clocks r = some clock → SortedMap.get? clock q = some k →
    1 ≤ k ∧ k ≤ w.length ∧ ∃ a b, w[k - 1]? = some a ∧ a.process = q ∧ Latest p w r b ∧
      (a = b ∨ HappensBefore (Step.Depends precision) w a b)

/-- The clocks of the frame are sound, and it knows the last step of each thread. -/
structure FrameExact (p : Program) (precision : Precision) (w : List Step) (f : Frame Step) : Prop
    extends FrameSound p precision w f where
  lastAction : ∀ r k, SortedMap.get? f.lastAction r = some k ↔ ActsLastAt w r k

namespace FrameExact

variable {f last : Frame Step}

/-- The step that an entry of a clock leads to leads on to what comes last for the thread. -/
theorem exists_latest (hrun : p.IsRun p.initialState w) (h : FrameExact p precision w f) (hb : b ∈ w)
    (hanchor : b.process = r ∨ Activates p w b r) : ∃ c, Latest p w r c ∧ Leads precision w b c := by
  by_cases hacted : ∃ c ∈ w, c.process = r
  · -- the frame knows where the last step of the thread stands
    obtain ⟨c, hc, rfl⟩ := hacted
    obtain ⟨⟨_, k⟩, hk, rfl⟩ := Keyed.hasKey_iff.1 (h.known c hc)
    have hlast := (h.lastAction _ k).1 (SortedMap.get?_eq_some_iff.2 hk)
    obtain ⟨hpos, d, hd, hdc⟩ := hlast.1
    refine ⟨d, .inl ⟨k, hlast, hd⟩, ?_⟩
    rcases hanchor with hbc | hactivates
    · obtain ⟨i, hi⟩ := List.getElem?_of_mem hb
      have hle : i + 1 ≤ k := hlast.2 ⟨Nat.succ_pos i, b, hi, hbc⟩
      exact leads_of_index_le (Nat.succ_pos i) hi hd hle (hdc.trans hbc.symm)
    · exact hactivates.leads hrun (List.mem_of_getElem? hd) hdc
  · refine ⟨b, .inr ⟨fun k hk => ?_, ?_⟩, .refl⟩
    · obtain ⟨-, c, hc, hcr⟩ := hk
      exact hacted ⟨c, List.mem_of_getElem? hc, hcr⟩
    · exact hanchor.resolve_left fun hbr => hacted ⟨b, hb, hbr⟩

theorem remembers (hrun : p.IsRun p.initialState w) (h : FrameExact p precision w f) :
    f.Remembers p precision w := by
  refine ⟨h.lastAction, fun r clock q k hclock hk => ?_⟩
  obtain ⟨a, b, hpos, ha, haq, hb, hab, hanchor⟩ :=
    h.clock r q k (by rwa [SortedMap.getD, hclock, Option.getD_some])
  obtain ⟨c, hc, hbc⟩ := h.exists_latest hrun hb hanchor
  have hlt := (List.getElem?_eq_some_iff.1 ha).1
  refine ⟨hpos, by omega, a, c, ha, haq, hc, ?_⟩
  exact (Relation.reflTransGen_iff_eq_or_transGen.1 (hab.trans hbc)).imp_left Eq.symm

/-- The locks of a frame do not count. -/
theorem of_locks {locks : SortedMap LockId Nat} (h : FrameExact p precision w { f with locks }) :
    FrameExact p precision w f := ⟨h.toFrameSound.of_locks, h.lastAction⟩

theorem root : FrameExact p precision [] (.root n) := by
  refine ⟨frameSound_root, fun r k => ⟨fun h => ?_, fun h => ?_⟩⟩
  · rw [SortedMap.get?_eq_some_iff] at h
    cases h
  · obtain ⟨hpos, -⟩ := h.1
    exact absurd h.1.le_length (Nat.not_le_of_lt hpos)

/-- The frame of a new step knows it as the last one of its thread. -/
theorem lastAction_next {clock : Clock} {spawned : List ProcessId} {acquired released : List LockId}
    (h : FrameExact p precision w last) (r : ProcessId) (k : Nat) :
    SortedMap.get? (Exploration.nextFrame last (w.length + 1) n e clock spawned acquired
      released).lastAction r = some k ↔ ActsLastAt (w ++ [e]) r k := by
  show SortedMap.get? (SortedMap.put last.lastAction e.process (w.length + 1)) r = some k ↔ _
  rw [SortedMap.get?_put]
  split
  · rename_i hr
    subst hr
    rw [Option.some.injEq]
    exact ⟨fun hk => hk ▸ actsLastAt_append_self, fun hk => actsLastAt_append_self.unique hk⟩
  · rename_i hr
    rw [h.lastAction, actsLastAt_append_of_ne hr]

end FrameExact

/-! ## Stacks of frames that remember -/

/-- The stack is the path of the tree to the current node, and its frames remember the run along it. -/
def SearchStack.Remembers (p : Program) (precision : Precision) (t : SearchTree ProgramState Step)
    (stack : SearchStack Step) : Prop :=
  ∀ n, stack.topNode? = some n → Follows t stack (t.traceTo n) ∧
    ∀ i f, stack.frame? i = some f → f.Remembers p precision ((t.traceTo n).take i)

namespace Follows

/-- All frames of a stack that follows a run stand for nodes of the tree. -/
theorem standsIn (ht : t.Sound p) (h : Follows t stack w) : stack.StandsIn t := by
  rintro (_ | i) f hf
  · obtain ⟨g, hg, hnode, -⟩ := h.bottom
    obtain rfl := Option.some.inj (hf.symm.trans hg)
    obtain ⟨e, he, -⟩ := ht.root
    exact ⟨e, hnode ▸ he⟩
  · have hlt := h.frame?_lt hf
    have hget : w[i]? = some w[i] := List.getElem?_eq_getElem (by omega)
    obtain ⟨below, g, -, hg, -, hedge⟩ := h.next i _ hget
    obtain rfl := Option.some.inj (hf.symm.trans hg)
    exact hedge.exists_node

/-- The run that the stack follows is the way of the tree to the current node. -/
theorem eq_traceTo (ht : t.Sound p) (h : Follows t stack w) (htop : stack.topNode? = some n) :
    w = t.traceTo n := by
  obtain ⟨f, hf, rfl⟩ := h.exists_top htop
  obtain ⟨e, he⟩ := h.standsIn ht _ f hf
  obtain ⟨u, hu, g, hg, hroot⟩ := h.exists_split ht hf (ht.walk_traceTo he)
  rw [List.take_length] at hu
  obtain ⟨g₀, hg₀, hroot₀, -⟩ := h.bottom
  -- the root stands at the bottom only
  rcases Nat.eq_zero_or_pos u.length with hzero | hpos
  · rwa [List.length_eq_zero_iff.1 hzero, List.nil_append] at hu
  · have hlt := h.index_lt ht hpos hg₀ hg
    rw [hroot, hroot₀] at hlt
    exact absurd hlt (Nat.lt_irrefl _)

end Follows

namespace EachFrame

theorem standsIn {R : List Step → Frame Step → Prop} (ht : t.Sound p) (h : EachFrame R t stack) :
    stack.StandsIn t := by
  rcases h with hempty | ⟨w, hfollows, -⟩
  · intro i f hf
    have := SearchStack.frame?_lt hf
    omega
  · exact hfollows.standsIn ht

theorem remembers (ht : t.Sound p) (h : EachFrame (FrameExact p precision) t stack) :
    stack.Remembers p precision t := by
  intro n htop
  obtain ⟨w, hfollows, hframes⟩ := h.exists_follows htop
  obtain rfl := hfollows.eq_traceTo ht htop
  refine ⟨hfollows, fun i f hf => (hframes i f hf).remembers ?_⟩
  have hrun := hfollows.isRun ht
  rw [← List.take_append_drop i (t.traceTo n)] at hrun
  exact (Program.isRun_append.1 hrun).1

end EachFrame

/-! ## Additions -/

namespace Ends

open Exploration

variable [ChoiceSource χ] {limit : Nat}

/-- The clock of a scan is sound, whatever the source of choices answers. -/
theorem scanBelow_sound {last : Frame Step} (hfollows : Follows t x.stack w)
    (hframes : ∀ i f, x.stack.frame? i = some f → FrameSound p precision (w.take i) f)
    (hlast : x.stack.frame? w.length = some last) :
    Yields (Exploration.scanBelow (p.context precision t settings) x.stack e limit (x.stack.size - 1)
      (.start last e.process x.stack.size)) x fun scan x₁ =>
        ScanSound precision w e scan ∧ Steady x x₁ := by
  have hsound : FrameSound p precision w last := by simpa using hframes _ _ hlast
  rw [hfollows.size_eq]
  refine scanBelow_scans (scanSound_start hsound) (fun scan q h => h) fun l f c scan hf hc hdepends h => ?_
  exact h.order (hframes _ f hf) ((hfollows.action_of_frame hf).symm.trans hc) hdepends

/-- A push for a child of the current node leaves the stack as it is, or puts a frame on it that is
exact. -/
theorem pushStep_exact {last : Frame Step} (ht : t.Sound p) (hfollows : Follows t x.stack w)
    (hframes : ∀ i f, x.stack.frame? i = some f → FrameExact p precision (w.take i) f)
    (hlast : x.stack.frame? w.length = some last) (hedge : t.Edge last.node a n)
    (hn : t.node? n = some entry) :
    Yields (Exploration.pushStep (p.context precision t settings) n entry a limit) x fun _ x' =>
      EachFrame (FrameExact p precision) t x'.stack := by
  have hlast' : x.stack.frame? (x.stack.size - 1) = some last := by rwa [hfollows.size_eq]
  have hexact : FrameExact p precision w last := by simpa using hframes _ _ hlast
  refine pushStep_parts hlast'
    (scanBelow_sound hfollows (fun i f hf => (hframes i f hf).toFrameSound) hlast)
    (fun x₁ _ => .lookUp fun before hbefore => ⟨hbefore, rfl⟩) (fun x₁ i hx₁ => ?_)
    fun x₁ scan before d hx₁ hscan hbefore => ?_
  · refine refuseCycle.imp fun _ x' hx' => ?_
    rw [hx'.2.1, hx₁.stack]
    exact .inr ⟨w, hfollows, hframes⟩
  · refine .bind (installFrame.imp fun _ x' hinstalled => .pure ?_)
    obtain ⟨s, spawned, acquired, released, hrelocks, hspawned, hpushed⟩ := hinstalled.stack
    rw [hx₁.stack] at hrelocks hpushed
    rw [hpushed, hfollows.size_eq]
    refine .push (R := FrameExact p precision) (fun _ _ _ => .of_locks) hfollows hframes hrelocks hlast
      rfl hedge ⟨?_, hexact.lastAction_next⟩
    exact hexact.child ht hfollows.performs hlast hedge rfl hn hbefore hscan hspawned

/-- A child of the current node is added. -/
theorem addChild_exact (ht : t.Sound p) (h : EachFrame (FrameExact p precision) t x.stack)
    (htop : x.stack.topNode? = some m) (hn : t.node? n = some entry) (hparent : entry.parent = some m) :
    Succeeds (Exploration.add (p.context precision t settings) n) x fun _ x' =>
      EachFrame (FrameExact p precision) t x'.stack := by
  obtain ⟨w, hfollows, hframes⟩ := h.exists_follows htop
  obtain ⟨last, hlast, rfl⟩ := hfollows.exists_top htop
  obtain ⟨-, a, -, -, haction, -⟩ := ht.edge n entry last.node hn hparent
  have hedge : t.Edge last.node a n := SearchTree.edge_iff.2 ⟨entry, hn, hparent, haction⟩
  have hsize : 0 < x.stack.size := Nat.pos_of_ne_zero (SearchStack.size_ne_zero htop)
  let y : Exploration Step χ := { x with table := x.table.markVisited entry.stateId }
  refine add_child htop hn hparent ?_
  unfold Exploration.push
  refine .bind (.lookUp_of_node? hn ?_)
  rw [haction]
  exact ((pushStep_account (x := y) ht (hfollows.standsIn ht) hsize).both
    (pushStep_exact ht hfollows hframes hlast hedge hn)).imp fun _ _ hx' => hx'.2

/-- A node of the tree is added, or refused because it is not a child of the current one. -/
theorem add_exact (ht : t.Sound p) (h : EachFrame (FrameExact p precision) t x.stack)
    (hn : t.node? n = some entry) :
    Settles (Exploration.add (p.context precision t settings) n) x fun x' =>
      EachFrame (FrameExact p precision) t x'.stack := by
  refine add_settles hn h (fun hempty => ?_) fun m htop hparent => addChild_exact ht h htop hn hparent
  refine (addRoot_ends ht hempty hn).imp ?_
  rintro _ x' ⟨-, hstack, -⟩
  rw [hstack]
  exact .root .root hempty

end Ends

end Interleaving
