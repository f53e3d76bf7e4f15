import Interleaving.Proofs.Climbs
import Interleaving.Proofs.Cutoffs
import Interleaving.Proofs.Reversals

/-!
# Races hidden behind covering

When a node `n` is covered by a node `c`, the subtree below `c` is walked on top of the stack that leads to
`n`, so that races of the steps above `n` with those below `c` are seen. Where a walk comes to a covered
node, it goes on below the covering one in the same way. The steps on such a way (`SearchTree.Onward`) are
performed as if they were made at the covered node, which has the same state, and the clocks on the stack
are sound (`WalkedTo`). But the first step below a covering node leads to a child of that, while the frame
below stands for the covered one. So these steps are left out of the run that is to be started by what
reverses a race (`WalkedTo.chainedActions_eq`).

Where the steps left out have no part in that run (`HaveNoPart`), the race is reversed as on a path of the
tree. A call of the walk sees a race where it enters its node (`WalkCall.Rehearses.enter_reverses`), what it
makes required stays so until the walk is over (`AtCovered.virtualExploration_reverses`), and also until the
question for the end of a round has been answered (`AtCovered.isEmpty_reverses`).
-/

namespace Interleaving

variable {p : Program} {precision : Precision} {t : SearchTree ProgramState Step}
  {settings : Settings} {χ : Type} {x y : Exploration Step χ} {stack stack' : SearchStack Step}
  {n m c d k : NodeId} {entry : SearchTree.Node ProgramState Step} {s u v v' w : List Step}
  {a b q g : Step} {i : Nat}

/-! ## Ways past covered nodes -/

namespace SearchTree

/-- The node `c` covers `m`, and is another node with the same state. -/
structure Replaces (t : SearchTree ProgramState Step) (c m : NodeId) : Prop where
  covers : ∃ e, t.node? m = some e ∧ e.covering = some c
  ne : c ≠ m
  state_eq : t.state c = t.state m

theorem Faithful.replaces (h : t.Faithful) (hlive : m ∈ t.live) (hm : t.node? m = some entry)
    (hcovering : entry.covering = some c) : t.Replaces c m := by
  refine ⟨⟨entry, hm, hcovering⟩, ?_, (h.state_covering hlive hm hcovering).2⟩
  rintro rfl
  obtain ⟨e, he, hpruned⟩ := mem_live_iff.1 hlive
  obtain ⟨-, -, -, hlt, -⟩ := h.covered _ e _ he hpruned
    (by rw [Option.some.inj (he.symm.trans hm), hcovering])
  exact Nat.lt_irrefl _ hlt

/-- From `m` the step `a` leads to `k`, a child of `m` or of the node that covers it. In the latter case it
joins the steps `v`. -/
inductive Onward (t : SearchTree ProgramState Step) (v : List Step) (m : NodeId) (a : Step) (k : NodeId) :
    List Step → Prop
  | edge : t.Edge m a k → Onward t v m a k v
  | past {c : NodeId} : t.Replaces c m → t.Edge c a k → Onward t v m a k (v ++ [a])

theorem Onward.exists_edge (h : t.Onward v m a k v') : ∃ d, t.Edge d a k ∧ t.state d = t.state m := by
  cases h with
  | edge hedge => exact ⟨m, hedge, rfl⟩
  | past hreplaces hedge => exact ⟨_, hedge, hreplaces.state_eq⟩

end SearchTree

/-! ## The stack of a walk -/

/-- The step of the frame at an index, if its node is a child of the node below. -/
def SearchStack.chained (stack : SearchStack Step) (t : SearchTree ProgramState Step) (i : Nat) :
    Option Step :=
  match stack.frame? i, stack.frame? (i - 1) with
  | some frame, some below => if t.parent frame.node = some below.node then frame.action else none
  | _, _ => none

/-- The chained actions, one frame after the other. -/
theorem chainedActions_eq_append (hi : i < stack.size) :
    Exploration.chainedActions t stack i =
      (stack.chained t i).toList ++ Exploration.chainedActions t stack (i + 1) := by
  have hrange : stack.size - i = stack.size - (i + 1) + 1 := by omega
  have hchained : ∀ j, Exploration.chainedActions t stack j =
      (List.range' j (stack.size - j)).filterMap (stack.chained t) := by
    intro j
    unfold Exploration.chainedActions
    congr 1
    funext k
    unfold SearchStack.chained
    cases stack.frame? k with
    | none => rfl
    | some frame => cases stack.frame? (k - 1) <;> rfl
  rw [hchained, hchained, hrange, List.range'_succ, List.filterMap_cons]
  cases stack.chained t i with
  | none => rfl
  | some b => rfl

/-- The stack goes down by the steps of `s`. Those of `v` lead to children of nodes that cover the ones
below them. The clocks are sound. -/
structure WalkedTo (p : Program) (precision : Precision) (t : SearchTree ProgramState Step)
    (stack : SearchStack Step) (s v : List Step) : Prop where
  carries : Carries (fun m a k => a ∉ v ∧ t.Edge m a k ∨
    a ∈ v ∧ ∃ c, t.Replaces c m ∧ t.Edge c a k) stack s
  subset : ∀ a ∈ v, a ∈ s
  sound : ∀ i f, stack.frame? i = some f → FrameSound p precision (s.take i) f

/-- A node that is not on the stack gets a frame. -/
theorem Pushed.installed {entry before : SearchTree.Node ProgramState Step} {last : Frame Step}
    {clock : Clock} {limit : Nat} {isNew : Bool}
    (h : Pushed p precision x n entry last before a clock limit isNew y) (hnew : ¬x.stack.Holds n) :
    ∃ d, Installed x n entry last before a clock d y := by
  cases h with
  | refused hholds => exact absurd hholds hnew
  | visited _ _ hinstalled => exact ⟨_, hinstalled⟩
  | entered _ _ _ _ hinstalled => exact ⟨_, hinstalled⟩

namespace WalkedTo

theorem start (hfollows : Follows t stack w)
    (hframes : ∀ i f, stack.frame? i = some f → FrameSound p precision (w.take i) f) :
    WalkedTo p precision t stack w [] :=
  ⟨(follows_iff.1 hfollows).mono fun _ _ _ _ hedge => .inl ⟨List.not_mem_nil, hedge⟩,
    fun _ ha => absurd ha List.not_mem_nil, hframes⟩

variable (h : WalkedTo p precision t stack s v)
include h

theorem performs : Performs t stack s := by
  refine h.carries.mono fun m a n _ hnext => ?_
  rcases hnext with ⟨-, hedge⟩ | ⟨-, c, hreplaces, hedge⟩
  · exact ⟨m, hedge, rfl⟩
  · exact ⟨c, hedge, hreplaces.state_eq⟩

theorem relocks (hs : stack.Relocks stack') : WalkedTo p precision t stack' s v := by
  refine ⟨h.carries.relocks hs, h.subset, fun i f hf => ?_⟩
  obtain ⟨locks, hf'⟩ := hs.exists_frame hf
  exact (h.sound i _ hf').of_locks

theorem exists_last (htop : stack.topNode? = some m) :
    ∃ last, stack.frame? s.length = some last ∧ last.node = m := by
  obtain ⟨f, hf, hnode⟩ := SearchStack.topNode?_eq_some_iff.1 htop
  rw [h.carries.size_eq, Nat.add_sub_cancel] at hf
  exact ⟨f, hf, hnode⟩

/-- The step that leads on goes on with the run, so it is a new one. -/
theorem nodup (ht : t.Sound p) (htop : stack.topNode? = some m) (honward : t.Onward v m a k v') :
    (s ++ [a]).Nodup := by
  obtain ⟨last, hlast, rfl⟩ := h.exists_last htop
  obtain ⟨d, hedge, hsame⟩ := honward.exists_edge
  have hcan := ht.canRun hedge
  obtain ⟨hrun, hstate⟩ := h.performs.run_of_frame ht hlast
  rw [List.take_length] at hrun hstate
  rw [hsame, hstate] at hcan
  exact (Program.isRun_append.2 ⟨hrun, hcan, trivial⟩ : p.IsRun p.initialState (s ++ [a])).nodup

/-- The frame of a step that has not been made is put on top. -/
theorem carries_push {top f : Frame Step} (hnew : a ∉ s) (htop : stack.frame? s.length = some top)
    (hf : f.action = some a) (honward : t.Onward v top.node a f.node v') :
    Carries (fun m a k => a ∉ v' ∧ t.Edge m a k ∨ a ∈ v' ∧ ∃ c, t.Replaces c m ∧ t.Edge c a k)
      (stack.push f) (s ++ [a]) := by
  have hav : a ∉ v := fun hmem => hnew (h.subset a hmem)
  -- the steps made before are left out or not as they were
  have hold : ∀ b ∈ s, b ∈ v' ↔ b ∈ v := by
    intro b hb
    cases honward with
    | edge _ => exact Iff.rfl
    | past _ _ =>
      rw [List.mem_append, List.mem_singleton, or_iff_left]
      rintro rfl
      exact hnew hb
  refine (h.carries.mono fun m b n hb hnext => ?_).push htop hf ?_
  · rwa [hold b hb]
  · cases honward with
    | edge hedge => exact .inl ⟨hav, hedge⟩
    | past hreplaces hedge => exact .inr ⟨by simp, _, hreplaces, hedge⟩

/-- A race with a step of the stack is seen, unless the step is left out. -/
theorem sighted (ht : t.Sound p) (hq : s[i]? = some q) (hqv : q ∉ v)
    (hdepends : Step.Depends precision q a) (ha : a.instr.isOrdinary) :
    ∃ f below origin, Sighted precision t stack a (i + 1) f q below origin := by
  obtain ⟨below, f, hbelow, hf, hfq, hnext⟩ := h.carries.next i q hq
  obtain ⟨-, hedge⟩ := hnext.resolve_right fun hleft => hqv hleft.1
  obtain ⟨origin, hs⟩ :=
    Sighted.of_edge ht hbelow hf hfq hedge hdepends (Step.reversible_of_isOrdinary ha)
  exact ⟨f, below, origin, hs⟩

theorem chained_eq (ha : s[i]? = some a) :
    stack.chained t (i + 1) = if a ∈ v then none else some a := by
  obtain ⟨f, g, hf, hg, hga, ⟨hav, hedge⟩ | ⟨hav, c, hreplaces, hedge⟩⟩ := h.carries.next i a ha
  · rw [if_neg hav]
    simp [SearchStack.chained, hg, hf, hedge.1, hga]
  · -- the covered node is not the parent
    rw [if_pos hav]
    simp [SearchStack.chained, hg, hf, hedge.1, hreplaces.ne]

/-- The scan sees the steps that are not left out. -/
theorem chainedActions_eq (hi : i ≤ s.length) :
    Exploration.chainedActions t stack (i + 1) = (s.drop i).filter (· ∉ v) := by
  have hsize := h.carries.size_eq
  generalize hk : s.length - i = k
  induction k generalizing i with
  | zero =>
    have hnone : stack.size - (i + 1) = 0 := by omega
    rw [List.drop_eq_nil_of_le (by omega), Exploration.chainedActions, hnone]
    rfl
  | succ k ih =>
    have hget : s[i]? = some s[i] := List.getElem?_eq_getElem (by omega)
    rw [chainedActions_eq_append (by omega), h.chained_eq hget, ih (by omega) (by omega),
      List.drop_eq_getElem_cons (i := i) (by omega), List.filter_cons]
    by_cases hv : s[i] ∈ v <;> simp [hv]

end WalkedTo

/-! ## Races that a walk sees -/

/-- A node of a walk is pushed, and the step to it is looked at like any other one. -/
theorem Ends.push_walkedTo [ChoiceSource χ] [LawfulChoiceSource χ] {start : Nat} (ht : t.Sound p)
    (h : WalkedTo p precision t y.stack s v) (htop : y.stack.topNode? = some m)
    (honward : t.Onward v m a k v') (hnew : ¬y.stack.Holds k) :
    Yields (Exploration.push (p.context precision t settings) k start) y fun _ y' =>
      WalkedTo p precision t y'.stack (s ++ [a]) v' ∧ y'.stack.topNode? = some k ∧
        ∃ scan y₁, Searched p precision t s a start y 0 scan y₁ ∧
          ∀ m e, y.stack.Holds m → t.node? m = some e →
            y'.table.get e.stateId = y₁.table.get e.stateId := by
  have hperforms := h.performs
  have hunmade : a ∉ s := fun hmem =>
    (List.nodup_append.1 (h.nodup ht htop honward)).2.2 a hmem a (List.mem_singleton_self a) rfl
  obtain ⟨last, hlast, rfl⟩ := h.exists_last htop
  obtain ⟨d, hedge, hsame⟩ := honward.exists_edge
  obtain ⟨entry, hk, -, ha⟩ := SearchTree.edge_iff.1 hedge
  have hsize : y.stack.size - 1 = s.length := by rw [hperforms.size_eq, Nat.add_sub_cancel]
  unfold Exploration.push
  refine .bind (.lookUp_of_node? hk ?_)
  rw [ha]
  have hscan : Yields (Exploration.scanBelow (p.context precision t settings) y.stack a start
      s.length (.start last a.process (s.length + 1))) y (Searched p precision t s a start y 0) :=
    Ends.searched ht hperforms h.sound (ht.canRun hedge).hasStep hlast
  rw [← hsize] at hlast
  rw [← hperforms.size_eq, ← hsize] at hscan
  refine (Ends.pushStep ht hk hlast hscan fun scan y₁ hy₁ => hy₁.widens.stack).imp ?_
  rintro isNew y' ⟨scan, y₁, before, hsearched, hbefore, hpushed⟩
  have hstack : y₁.stack = y.stack := hsearched.widens.stack
  obtain ⟨decoration, hinstalled⟩ := hpushed.installed (hstack ▸ hnew)
  obtain ⟨s', spawned, acquired, released, hrelocks, hspawned, hpush⟩ := hinstalled.stack
  rw [hstack] at hrelocks
  rw [hsize] at hlast
  obtain ⟨locks, hlast'⟩ := hrelocks.frame _ _ hlast
  have hsound := h.sound _ last hlast
  rw [List.take_length] at hsound
  refine ⟨?_, ?_, scan, y₁, hsearched, fun m e hm he => ?_⟩
  · rw [hpush, hstack, hperforms.size_eq]
    refine ⟨(h.relocks hrelocks).carries_push hunmade hlast' rfl honward, fun b hb => ?_, fun i f hf =>
      EachFrame.forall_push (fun _ _ _ => .of_locks) hperforms.size_eq h.sound hrelocks
        (hsound.child ht hperforms hlast hedge hsame hk hbefore (hsearched.sound hperforms) hspawned) hf⟩
    cases honward with
    | edge _ => exact List.mem_append_left _ (h.subset b hb)
    | past _ _ => exact List.mem_append.2 ((List.mem_append.1 hb).imp_left (h.subset b))
  · rw [hpush]
    exact SearchStack.topNode?_push
  · rw [hinstalled.table, DecorationTable.get_reset, if_neg]
    exact fun hid => hnew ((ht.eq_of_stateId_eq hk he hid).1 ▸ hm)

/-- The step `q` at an index of the path `w` races with the step `a`, to which a walk comes after the steps
`u`: no step stands between the two. -/
structure HiddenRace (precision : Precision) (w u : List Step) (i : Nat) (q a : Step) : Prop where
  step : w[i]? = some q
  process_ne : q.process ≠ a.process
  depends : Step.Depends precision q a
  immediate : ∀ b, HappensBefore (Step.Depends precision) (w ++ u) q b →
    ¬HappensBefore (Step.Depends precision) (w ++ u ++ [a]) b a

/-- The steps of `v` have no part in the run that reverses the race of `q` with `a` after the steps of `u`:
they depend on `q`, or nothing after them depends on them. -/
def HaveNoPart (precision : Precision) (q : Step) (u v : List Step) (a : Step) : Prop :=
  ∀ b ∈ v, Step.Depends precision q b ∨
    ∀ d, Precedes (u ++ [a]) b d → ¬Step.Depends precision d b

section LeftOut

variable {z : List Step}

/-- The run without steps that are left out, up to the last one. -/
theorem reversingSteps_filter (ha : a ∉ v) :
    reversingSteps precision q (z.filter (· ∉ v)) a =
      (reversingSteps precision q z a).filter (· ∉ v) := by
  rw [reversingSteps, reversingSteps, List.filter_append, List.filter_comm]
  simp [ha]

/-- What starts the run without steps that have no part in it starts it with them too. -/
theorem HaveNoPart.starts (h : HaveNoPart precision q u v a) (hv : ∀ b ∈ v, b ∈ u)
    (hnodup : (z ++ u ++ [a]).Nodup)
    (hg : Starts (Step.Depends precision) g (reversingSteps precision q ((z ++ u).filter (· ∉ v)) a)) :
    Starts (Step.Depends precision) g (reversingSteps precision q (z ++ u) a) := by
  obtain ⟨hzu, -, hdisjoint⟩ := List.nodup_append.1 hnodup
  have ha : a ∉ v := fun hmem => hdisjoint a (List.mem_append_right z (hv a hmem)) a (by simp) rfl
  rw [reversingSteps_filter ha] at hg
  refine hg.of_filter fun b hb hbv d hbd => ?_
  have hbv : b ∈ v := by simpa using hbv
  rcases h b hbv with hqb | hlater
  · rcases mem_reversingSteps_iff.1 hb with ⟨-, hindependent⟩ | rfl
    · exact absurd hqb hindependent
    · exact absurd hbv ha
  · -- the step is not one of `z`, so what comes after it is not either
    have hbz : b ∉ z := fun hmem => (List.nodup_append.1 hzu).2.2 b hmem b (hv b hbv) rfl
    have hbd := hbd.of_sublist reversingSteps_sublist
    rw [List.append_assoc, Precedes.append_iff] at hbd
    rcases hbd with hbd | hbd | ⟨hmem, -⟩
    · exact absurd hbd.mem_left hbz
    · exact hlater d hbd
    · exact absurd hmem hbz

end LeftOut

/-- The step `g` can run at the node, is not redundant there, and starts the run. -/
structure Starter (p : Program) (precision : Precision) (t : SearchTree ProgramState Step)
    (x : Exploration Step χ) (m : NodeId) (run : List Step) (g : Step) : Prop where
  canRun : p.CanRun (t.state m) g
  awake : (x.table.get ⟨m.index⟩).asleep.hasKey (Action.key g) = false
  starts : Starts (Step.Depends precision) g run

/-- At the node something is required that is not redundant in `x` and starts the run. -/
def RequiresStarter (p : Program) (precision : Precision) (t : SearchTree ProgramState Step)
    (x y : Exploration Step χ) (m : NodeId) (run : List Step) : Prop :=
  ∃ r, Starter p precision t x m run r ∧
    (y.table.get ⟨m.index⟩).backtrack.hasKey (Action.key r)

theorem Starter.congr {run : List Step} (h : Starter p precision t x m run g)
    (hasleep : (y.table.get ⟨m.index⟩).asleep = (x.table.get ⟨m.index⟩).asleep) :
    Starter p precision t y m run g := ⟨h.canRun, hasleep ▸ h.awake, h.starts⟩

namespace HiddenRace

variable (hp : ∀ instrs ∈ p.threads, ∀ i ∈ instrs, i.isOrdinary)
  (h : HiddenRace precision w u i q a)
include hp h

/-- No thread leads from the earlier step to one that is ordered before the later one. -/
theorem not_reaches {l : Nat} (ht : t.Sound p) (hperforms : Performs t y.stack (w ++ u)) (hl : i + 1 ≤ l) :
    ¬Reaches p precision t y (w ++ u) a (i + 1) q.process l := by
  intro hreaches
  have hrun := hperforms.isRun ht
  have hq : (w ++ u)[i]? = some q := by
    rw [List.getElem?_append_left (List.getElem?_eq_some_iff.1 h.step).1, h.step]
  obtain ⟨b, hanchor, ⟨rfl, hactivates⟩ | ⟨-, hqb⟩⟩ :=
    hreaches.exists_anchor hrun (Nat.succ_pos i) hq h.process_ne hl
  · -- an ordinary step makes no thread active
    obtain ⟨u', y', -, hspawn, -⟩ := hactivates
    have hordinary := (hrun.hasStep (List.mem_of_getElem? hq)).isOrdinary hp
    rw [hspawn] at hordinary
    cases hordinary
  · refine h.immediate b hqb (.single ⟨?_, hanchor.depends hperforms⟩)
    exact Precedes.append_iff.2 (.inr (.inr ⟨hqb.mem_right, by simp⟩))

/-- The scan of the later step reverses the race, if the steps that are left out have no part in that. -/
theorem reversed {l : Nat} {below : Frame Step} {scan : Exploration.RaceScan} {y₁ : Exploration Step χ}
    (ht : t.Sound p) (hwalked : WalkedTo p precision t y.stack (w ++ u) v) (hv : ∀ b ∈ v, b ∈ u)
    (hnodup : (w ++ u ++ [a]).Nodup) (ha : p.HasStep a)
    (hsearched : Searched p precision t (w ++ u) a l y 0 scan y₁) (hl : w.length < l)
    (hpart : HaveNoPart precision q u v a) (hbelow : y.stack.frame? i = some below)
    (hg : ∃ g ∉ v, Starter p precision t y below.node
      (reversingSteps precision q (w.drop (i + 1) ++ u) a) g) :
    RequiresStarter p precision t y y₁ below.node
      (reversingSteps precision q (w.drop (i + 1) ++ u) a) := by
  have hi := (List.getElem?_eq_some_iff.1 h.step).1
  have hq : (w ++ u)[i]? = some q := by rw [List.getElem?_append_left hi, h.step]
  have hdrop : (w ++ u).drop (i + 1) = w.drop (i + 1) ++ u := List.drop_append_of_le_length hi
  have hqv : q ∉ v := by
    intro hmem
    have hwu := (List.nodup_append.1 hnodup).1
    exact (List.nodup_append.1 hwu).2.2 q (List.mem_of_getElem? h.step) q (hv q hmem) rfl
  have hav : a ∉ v := by
    intro hmem
    exact (List.nodup_append.1 hnodup).2.2 a (List.mem_append_right w (hv a hmem)) a (by simp) rfl
  obtain ⟨f, below', origin, hs⟩ := hwalked.sighted ht hq hqv h.depends (ha.isOrdinary hp)
  obtain rfl : below = below' := Option.some.inj (hbelow.symm.trans hs.belowFrame)
  have hid : origin.stateId = ⟨below.node.index⟩ := (ht.identity below.node origin hs.atOrigin).1
  have hrun : Exploration.chainedActions t y.stack (i + 1 + 1) =
      (w.drop (i + 1) ++ u).filter (· ∉ v) := by
    rw [hwalked.chainedActions_eq (by rw [List.length_append]; omega), hdrop]
  -- no step that is left out starts the run
  obtain ⟨g, hgv, hcan, hawake, hstarts⟩ := hg
  rw [SearchTree.state_eq hs.atOrigin] at hcan
  have hinitial : Initial p precision t y a (i + 1) q origin g := by
    refine ⟨hcan, hid ▸ hawake, ?_⟩
    rw [hrun, reversingSteps_filter hav]
    exact hstarts.filter (by simpa using hgv)
  rcases hsearched.reversed (i + 1) f q below origin g (Nat.succ_pos i) (by omega) hs h.process_ne
    hinitial with ⟨r, ⟨hcan', hawake', hstarts'⟩, hkey⟩ | ⟨j, hj, hreaches⟩
  · rw [hrun] at hstarts'
    rw [← SearchTree.state_eq hs.atOrigin] at hcan'
    have hnodup' : (w.drop (i + 1) ++ u ++ [a]).Nodup :=
      hnodup.sublist ((hdrop ▸ List.drop_sublist _ _).append (.refl [a]))
    exact ⟨r, ⟨hcan', hid ▸ hawake', hpart.starts hv hnodup' hstarts'⟩, hid ▸ hkey⟩
  · exact absurd hreaches (h.not_reaches hp ht hwalked.performs hj)

end HiddenRace

/-! ## Calls of a walk -/

/-- A walk leaves what is redundant at the nodes on the stack. -/
theorem Wanders.asleep_eq (h : Wanders p t c x y) (hk : x.stack.Holds k) :
    (y.table.get ⟨k.index⟩).asleep = (x.table.get ⟨k.index⟩).asleep := by
  rcases h.explored ⟨k.index⟩ with hexplored | ⟨-, m, -, hm, hid⟩
  · rw [Decoration.asleep, Decoration.asleep, h.sleep, hexplored]
  · obtain rfl : m = k := NodeId.eq_of_stateId_eq hid.symm
    exact absurd hk hm

namespace WalkCall

variable {call call' : WalkCall χ} {realSize : Nat} {ctx : Context ProgramState Step Empty}

/-- Where a walk begins, no frame is above its own. -/
theorem unwound_stack (h : call.start = call.exploration.stack.size) :
    (call.unwound entry).stack = call.exploration.stack := by
  show call.exploration.stack.unwindTo call.start entry.parent = _
  rw [h, SearchStack.unwindTo, Nat.sub_self]
  rfl

/-- What is known of a call to which a walk comes on the way `u`. When the frames above the parent of its
node are gone, the stack is that of a walk to the parent. -/
structure Rehearses (p : Program) (precision : Precision) (t : SearchTree ProgramState Step)
    (x : Exploration Step χ) (w u v : List Step) (m : NodeId) (call : WalkCall χ) : Prop where
  start_le : x.stack.size ≤ call.start
  roams : Roams p t x.counters call.exploration
  aligned : ∃ floor, Aligned t call.root call.start floor call.node call.exploration.stack
  walked : ∀ entry, t.node? call.node = some entry →
    (call.node = call.root ∧ WalkedTo p precision t (call.unwound entry).stack (w ++ u) v ∧
      (call.unwound entry).stack.topNode? = some m) ∨
    call.node ≠ call.root ∧ m = call.node ∧ ∃ u₀ v₀ m₀ a, u = u₀ ++ [a] ∧
      WalkedTo p precision t (call.unwound entry).stack (w ++ u₀) v₀ ∧
      (call.unwound entry).stack.topNode? = some m₀ ∧ t.Onward v₀ m₀ a call.node v

namespace Rehearses

theorem first (hfaithful : t.Faithful) (hx : Orderly p t x)
    (hclimbs : x.stack.Climbs t) (htop : x.stack.topNode? = some n) (hlive : n ∈ t.live)
    (hn : t.node? n = some entry) (hcovering : entry.covering = some c)
    (hfollows : Follows t x.stack w)
    (hframes : ∀ i f, x.stack.frame? i = some f → FrameSound p precision (w.take i) f) :
    (WalkCall.first t c x).Rehearses p precision t x w [] [] n where
  start_le := Nat.le_refl _
  roams := ⟨hx, hclimbs, rfl⟩
  aligned := ⟨_, .first hfaithful hclimbs htop hlive hn hcovering⟩
  walked e _ := by
    rw [unwound_stack rfl, List.append_nil]
    exact .inl ⟨rfl, .start hfollows hframes, htop⟩

end Rehearses

variable [ChoiceSource χ]

/-- The walk below `c`, which covers `n`, comes to a call on the way `u`, of which the steps `v` are left
out. Then `m` is the node of the call, or the node that is covered by it if a walk begins there. -/
inductive Comes (ctx : Context ProgramState Step Empty) (x : Exploration Step χ) (n c : NodeId) :
    List Step → List Step → NodeId → WalkCall χ → Prop where
  | first : Comes ctx x n c [] [] n (.first ctx.tree c x)
  | child {u v v' : List Step} {m : NodeId} {a : Step} {call call' : WalkCall χ} :
    Comes ctx x n c u v m call → Makes ctx x.stack.size call call' → call'.roots = call.roots →
    ctx.tree.Onward v m a call'.node v' → Comes ctx x n c (u ++ [a]) v' call'.node call'
  | nested {u v : List Step} {m : NodeId} {call call' : WalkCall χ} :
    Comes ctx x n c u v m call → call.node ≠ call.root → Makes ctx x.stack.size call call' →
    call'.roots ≠ call.roots → Comes ctx x n c u v m call'

theorem Comes.calls (h : Comes ctx x n c u v m call) :
    Relation.ReflTransGen (Makes ctx x.stack.size) (.first ctx.tree c x) call := by
  induction h with
  | first => exact .refl
  | child _ hmakes _ _ ih => exact ih.tail hmakes
  | nested _ _ hmakes _ ih => exact ih.tail hmakes

theorem Comes.subset (h : Comes ctx x n c u v m call) : ∀ b ∈ v, b ∈ u := by
  induction h with
  | first => exact fun _ hb => hb
  | nested _ _ _ _ ih => exact ih
  | child _ _ _ honward ih =>
    intro b hb
    cases honward with
    | edge _ => exact List.mem_append_left _ (ih b hb)
    | past _ _ => exact List.mem_append.2 ((List.mem_append.1 hb).imp_left (ih b))

variable [LawfulChoiceSource χ]

namespace Rehearses

variable (ht : t.Sound p) (h : call.Rehearses p precision t x w u v m)
  (hnode : t.node? call.node = some entry)
include ht h hnode

/-- A node that is not the root of its walk is entered, and the scan of its step sees the stack of the
walk to its parent. -/
theorem enter_searched (hroot : call.node ≠ call.root) :
    ∃ u₀ v₀ a, u = u₀ ++ [a] ∧ (∀ b ∈ v₀, b ∈ v) ∧ p.HasStep a ∧ (w ++ u₀ ++ [a]).Nodup ∧
      WalkedTo p precision t (call.unwound entry).stack (w ++ u₀) v₀ ∧
      Yields (Exploration.enterVirtual (p.context precision t settings) realSize call.start call.root
        call.node) (call.unwound entry) fun _ y =>
          WalkedTo p precision t y.stack (w ++ u) v ∧ y.stack.topNode? = some m ∧
          ∃ scan y₁,
            Searched p precision t (w ++ u₀) a call.start (call.unwound entry) 0 scan y₁ ∧
            ∀ m e, (call.unwound entry).stack.Holds m → t.node? m = some e →
              y.table.get e.stateId = y₁.table.get e.stateId := by
  obtain ⟨-, rfl, u₀, v₀, m₀, a, rfl, hwalked, htop, honward⟩ :=
    (h.walked entry hnode).resolve_left fun hplace => hroot hplace.1
  obtain ⟨floor, haligned⟩ := h.aligned
  obtain ⟨d, hedge, -⟩ := honward.exists_edge
  have hnew : ¬(call.unwound entry).stack.Holds call.node :=
    haligned.not_holds ht h.roams.climbs hnode hroot
  have hsub : ∀ b ∈ v₀, b ∈ v := by
    cases honward with
    | edge _ => exact fun _ hb => hb
    | past _ _ => exact fun _ hb => List.mem_append_left _ hb
  refine ⟨u₀, v₀, a, rfl, hsub, (ht.canRun hedge).hasStep, hwalked.nodup ht htop honward, hwalked,
    ?_⟩
  rw [← List.append_assoc]
  unfold Exploration.enterVirtual
  rw [if_neg hroot]
  refine .bind ((Ends.push_walkedTo ht hwalked htop honward hnew).imp fun isNew y hy => ?_)
  split
  · refine .bind (.get ?_)
    split
    · exact .bind (.modify (.pure hy))
    · exact .pure hy
  · exact .pure hy

/-- The walk comes to its node. -/
theorem enter : Yields (Exploration.enterVirtual (p.context precision t settings) realSize call.start
    call.root call.node) (call.unwound entry) fun _ y =>
      WalkedTo p precision t y.stack (w ++ u) v ∧ y.stack.topNode? = some m := by
  by_cases hroot : call.node = call.root
  · unfold Exploration.enterVirtual
    rw [if_pos hroot]
    obtain ⟨-, hplace⟩ := (h.walked entry hnode).resolve_right fun hplace => hplace.1 hroot
    exact .pure hplace
  · obtain ⟨_, _, _, -, -, -, -, -, henter⟩ := h.enter_searched ht hnode hroot
    exact henter.imp fun _ y hy => ⟨hy.1, hy.2.1⟩

omit hnode in
/-- The call for a child. -/
theorem child (hfaithful : t.Faithful) (hmakes : Makes (p.context precision t settings) realSize call call')
    (hroots : call'.roots = call.roots) (honward : t.Onward v m a call'.node v') :
    call'.Rehearses p precision t x w (u ++ [a]) v' call'.node := by
  cases hmakes with
  | nested _ _ _ _ _ => exact absurd hroots (List.cons_ne_self _ _)
  | @child depth entry earlier later k y z hdepth hnode henter huncovered hchildren hearlier =>
    have hnode : t.node? call.node = some entry := hnode
    obtain ⟨floor, haligned⟩ := h.aligned
    obtain ⟨hcut, hsize⟩ := haligned.unwound ht h.roams.climbs hnode
    obtain ⟨hwalked, htop⟩ := (h.enter ht hnode).of_ok henter
    rw [unwound] at henter
    obtain ⟨hy, hrests, hbelow⟩ := (Ends.enterVirtual_climbs ht (h.roams.cut ht hcut) haligned hsize
      (.of_cut hcut)).of_ok henter
    obtain ⟨hsize₂, hplace₂⟩ := hbelow rfl
    have hmem : ∀ m, m ∈ earlier ∨ m = k → m ∈ entry.children := by
      intro m hm
      rw [← List.mem_reverse, hchildren]
      simpa using hm.imp_right .inl
    -- the walks through the earlier children leave the frame for the node and those below it
    obtain ⟨hz, hrests', haligned'⟩ := (Ends.walkChildren_climbs ht
      (fun hx haligned => Ends.walkVirtual_climbs ht hfaithful hx haligned) haligned hnode huncovered
      (fun m hm => hmem m (.inl hm)) (.trans (.of_cut hcut) hrests (Nat.le_refl _)) hy hsize₂
      (hplace₂.imp_left And.left)).of_ok hearlier
    have hk := hmem k (.inr rfl)
    have haligned' := haligned' k hk
    have hyounger : k ≠ call.root := by
      rcases haligned.place with ⟨hplace, -⟩ | ⟨hlt, -⟩
      · obtain ⟨b, hedge⟩ := ht.exists_edge_of_child hnode hk
        rw [← hplace]
        rintro rfl
        exact Nat.lt_irrefl _ (ht.index_lt hedge)
      · obtain ⟨b, hedge⟩ := ht.exists_edge_of_child hnode hk
        rintro rfl
        exact Nat.lt_asymm hlt (ht.index_lt hedge)
    refine ⟨h.start_le, hz, ⟨_, haligned'⟩, fun e he =>
      .inr ⟨hyounger, rfl, u, v, m, a, rfl, ?_, ?_, honward⟩⟩
    all_goals
      obtain ⟨hcut', hsize'⟩ := haligned'.unwound ht hz.climbs he
      rw [ht.depth_child hnode hk, ← hsize₂] at hcut' hsize'
      rw [← hsize₂] at hrests'
      have hrelocks := (hrests'.trans (.of_cut hcut') (Nat.le_refl _)).relocks hsize'
    · exact hwalked.relocks hrelocks
    · show (SearchStack.unwindTo _ _ _).topNode? = _
      rw [hrelocks.topNode?_eq, htop]

omit hnode in
/-- The call with which a walk of its own begins. -/
theorem nested (hfaithful : t.Faithful)
    (hmakes : Makes (p.context precision t settings) realSize call call')
    (hroots : call'.roots ≠ call.roots) (hroot : call.node ≠ call.root) :
    call'.Rehearses p precision t x w u v m := by
  cases hmakes with
  | child _ _ _ _ _ _ => exact absurd rfl hroots
  | @nested depth entry c y hdepth hnode henter hcovering hfresh =>
    have hnode : t.node? call.node = some entry := hnode
    obtain ⟨floor, haligned⟩ := h.aligned
    obtain ⟨hcut, hsize⟩ := haligned.unwound ht h.roams.climbs hnode
    obtain ⟨hwalked, htop⟩ := (h.enter ht hnode).of_ok henter
    rw [unwound] at henter
    obtain ⟨hy, hrests, hbelow⟩ := (Ends.enterVirtual_climbs ht (h.roams.cut ht hcut) haligned hsize
      (.of_cut hcut)).of_ok henter
    obtain ⟨-, hplace⟩ := hbelow rfl
    have htop' := hplace.resolve_left fun hplace => hroot hplace.1
    have hle : call.start ≤ y.stack.size :=
      Nat.le_trans haligned.start_le_floor (hsize ▸ hrests.size_le)
    refine ⟨Nat.le_trans h.start_le hle, hy, ⟨_, .first hfaithful hy.climbs htop' haligned.live hnode
      hcovering⟩, fun e _ => ?_⟩
    rw [unwound_stack rfl]
    exact .inl ⟨rfl, hwalked, htop⟩

omit h hnode in
/-- A race of the path above the covered node with the step by which the call is reached is reversed where
its node is entered. -/
theorem enter_reverses {below : Frame Step} {entry : SearchTree.Node ProgramState Step}
    (h : call.Rehearses p precision t x w (u ++ [a]) v m) (hroot : call.node ≠ call.root)
    (hv : ∀ b ∈ v, b ∈ u ++ [a]) (hp : ∀ instrs ∈ p.threads, ∀ i ∈ instrs, i.isOrdinary)
    (hwanders : Wanders p t c x call.exploration) (hsize : x.stack.size = w.length + 1)
    (hnode : t.node? call.node = some entry) (hrace : HiddenRace precision w u i q a)
    (hpart : HaveNoPart precision q u v a) (hbelow : x.stack.frame? i = some below)
    (hg : ∃ g, (g ∈ v → g = a) ∧ Starter p precision t x below.node
      (reversingSteps precision q (w.drop (i + 1) ++ u) a) g) :
    Yields (Exploration.enterVirtual (p.context precision t settings) realSize call.start call.root
      call.node) (call.unwound entry) fun _ y => RequiresStarter p precision t x y below.node
        (reversingSteps precision q (w.drop (i + 1) ++ u) a) := by
  obtain ⟨u₀, v₀, a', hsplit, hsub, ha, hnodup, hwalked, henter⟩ := h.enter_searched ht hnode hroot
  obtain ⟨rfl, hlast⟩ := List.append_inj' hsplit rfl
  obtain rfl := (List.cons.inj hlast).1
  have hav : a ∉ v₀ := fun hmem =>
    (List.nodup_append.1 hnodup).2.2 a (hwalked.subset a hmem) a (List.mem_singleton_self a) rfl
  have hvu : ∀ b ∈ v₀, b ∈ u := by
    intro b hb
    rcases List.mem_append.1 (hv b (hsub b hb)) with hmem | hmem
    · exact hmem
    · exact absurd (List.mem_singleton.1 hmem ▸ hb) hav
  -- the frame before the race is still there
  have hi := SearchStack.frame?_lt hbelow
  obtain ⟨f, hf, hsheds⟩ := hwanders.sheds i below hi hbelow
  have hcut : call.exploration.stack.Prefix call.start (call.unwound entry).stack :=
    .unwindTo (by obtain ⟨_, haligned⟩ := h.aligned; exact haligned.start_le)
  have hf' : (call.unwound entry).stack.frame? i = some f := by
    rw [hcut.low i (Nat.lt_of_lt_of_le hi h.start_le), hf]
  have hasleep := hwanders.asleep_eq ⟨i, below, hbelow, rfl⟩
  obtain ⟨e, he⟩ := hwanders.orderly.stands i f hf
  have hid : e.stateId = ⟨below.node.index⟩ := by rw [(ht.identity _ e he).1, hsheds.node]
  refine henter.imp fun _ y ⟨_, _, scan, y₁, hsearched, hsame⟩ => ?_
  obtain ⟨g, hgv, hg⟩ := hg
  obtain ⟨r, hr, hkey⟩ := hrace.reversed hp ht hwalked hvu hnodup ha hsearched
    (by have := h.start_le; omega) (fun b hb => hpart b (hsub b hb)) hf'
    ⟨g, fun hmem => hav (hgv (hsub g hmem) ▸ hmem), by rw [hsheds.node]; exact hg.congr hasleep⟩
  rw [hsheds.node] at hr hkey
  refine ⟨r, hr.congr hasleep.symm, ?_⟩
  rwa [← hid, hsame _ e ⟨i, f, hf', rfl⟩ he, hid]

end Rehearses

/-- All calls to which a walk comes are as the first one. -/
theorem Comes.rehearses (ht : t.Sound p) (hfaithful : t.Faithful)
    (hfirst : (WalkCall.first t c x).Rehearses p precision t x w [] [] n)
    (h : Comes (p.context precision t settings) x n c u v m call) :
    call.Rehearses p precision t x w u v m := by
  induction h with
  | first => exact hfirst
  | child _ hmakes hroots honward ih => exact ih.child ht hfaithful hmakes hroots honward
  | nested _ hroot hmakes hroots ih => exact ih.nested ht hfaithful hmakes hroots hroot

end WalkCall

/-! ## What a walk makes required -/

variable [ChoiceSource χ] [LawfulChoiceSource χ]

/-- A required step stays so until the end of a walk. -/
theorem WalkKeeps.required {origin : NodeId} {base : Nat} {run : List Step} (ht : t.Sound p) :
    WalkKeeps p precision t settings origin base fun y : Exploration Step χ => Orderly p t y ∧
      RequiresStarter p precision t x y m run where
  keep y y' hy hstack htable _ :=
    ⟨hy.1.of_eq hstack fun _ => by rw [htable], by rw [RequiresStarter, htable]; exact hy.2⟩
  cut y stack hy hcut := ⟨hy.1.cut ht (hcut.mono (Nat.zero_le _)), hy.2⟩
  push y start k e c hy _ hstart hcovered _ hk huncovered hc := by
    have hsize := Nat.lt_of_lt_of_le hcovered.1 hstart
    refine (Ends.pushChild_moves ht hy.1 hk hc hsize).imp fun isNew y' ⟨htrail, _, hrests, htop⟩ => ?_
    rw [if_neg fun h => hcovered.not_topNode? hstart hk huncovered h.2] at htrail
    refine ⟨⟨Exploration.Move.orderly_trail ht hy.1 htrail, ?_⟩, hrests, htop⟩
    obtain ⟨r, hr, hkey⟩ := hy.2
    obtain ⟨b, hb, hbr⟩ := Keyed.hasKey_iff.1 hkey
    refine ⟨r, hr, Keyed.hasKey_iff.2 ⟨b, ?_, hbr⟩⟩
    exact Exploration.Move.required_trail ht htrail (List.not_mem_nil) hb

/-- The current node `n` is covered by `c`, and the stack goes down to it by the steps of `w`. -/
structure AtCovered (p : Program) (precision : Precision) (t : SearchTree ProgramState Step)
    (x : Exploration Step χ) (w : List Step) (n c : NodeId) : Prop where
  orderly : Orderly p t x
  climbs : x.stack.Climbs t
  follows : Follows t x.stack w
  frames : ∀ i f, x.stack.frame? i = some f → FrameSound p precision (w.take i) f
  top : x.stack.topNode? = some n
  live : n ∈ t.live
  covers : ∃ e, t.node? n = some e ∧ e.covering = some c

namespace AtCovered

variable {call : WalkCall χ} {below : Frame Step} (h : AtCovered p precision t x w n c)
include h

omit [ChoiceSource χ] [LawfulChoiceSource χ] in
theorem satisfies {I : Exploration Step χ → Prop} (hclosed : t.Closed) (hI : I x) :
    (WalkCall.first t c x).Satisfies I t c x.stack.size := by
  obtain ⟨entry, hn, hcovering⟩ := h.covers
  exact ⟨hI, Nat.le_refl _, .first hclosed h.top hn hcovering⟩

theorem rehearses (ht : t.Sound p) (hfaithful : t.Faithful)
    (hcomes : WalkCall.Comes (p.context precision t settings) x n c u v m call) :
    call.Rehearses p precision t x w u v m := by
  obtain ⟨entry, hn, hcovering⟩ := h.covers
  exact hcomes.rehearses ht hfaithful
    (.first hfaithful h.orderly h.climbs h.top h.live hn hcovering h.follows h.frames)

/-- Where a walk comes to a node by a step that races with one above the covered node, the race is
reversed when the walk is over. -/
theorem virtualExploration_reverses (hp : ∀ instrs ∈ p.threads, ∀ i ∈ instrs, i.isOrdinary)
    (ht : t.Sound p) (hclosed : t.Closed) (hfaithful : t.Faithful)
    (hcomes : WalkCall.Comes (p.context precision t settings) x n c (u ++ [a]) v m call)
    (hroot : call.node ≠ call.root) (hrace : HiddenRace precision w u i q a)
    (hpart : HaveNoPart precision q u v a) (hbelow : x.stack.frame? i = some below)
    (hg : ∃ g, (g ∈ v → g = a) ∧ Starter p precision t x below.node
      (reversingSteps precision q (w.drop (i + 1) ++ u) a) g) :
    Succeeds (Exploration.virtualExploration (p.context precision t settings) c) x fun _ y =>
      RequiresStarter p precision t x y below.node
        (reversingSteps precision q (w.drop (i + 1) ++ u) a) := by
  -- what holds of all calls of the walk
  have hcall := (h.satisfies hclosed h.orderly).calls ht hclosed (.orderly ht) hcomes.calls
  have hwanders : Wanders p t c x call.exploration :=
    ((h.satisfies hclosed (.refl h.orderly)).calls ht hclosed (.wanders ht) hcomes.calls).holds
  obtain ⟨e, he⟩ := hcall.walking.present
  have hkeeps : WalkKeeps p precision t settings c x.stack.size fun y : Exploration Step χ =>
      Orderly p t y ∧ RequiresStarter p precision t x y below.node
        (reversingSteps precision q (w.drop (i + 1) ++ u) a) := .required ht
  have hrun := (h.satisfies hclosed h.orderly).run_of_calls ht hclosed hkeeps hcomes.calls
    (hcall.run_of_entered ht hclosed hkeeps he
      (((h.rehearses ht hfaithful hcomes).enter_reverses ht hroot hcomes.subset hp hwanders
        h.follows.size_eq he hrace hpart hbelow hg).imp fun _ y hy horderly => ⟨horderly, hy⟩))
  unfold Exploration.virtualExploration
  exact .bind (.get (.bind (hrun.imp fun _ y hy => .modify hy.2)))

/-- It is so when the question for the end of a round has been answered, whatever is popped. -/
theorem isEmpty_reverses (hp : ∀ instrs ∈ p.threads, ∀ i ∈ instrs, i.isOrdinary) (ht : t.Sound p)
    (hclosed : t.Closed) (hfaithful : t.Faithful)
    (hcomes : WalkCall.Comes (p.context precision t settings) x n c (u ++ [a]) v m call)
    (hroot : call.node ≠ call.root) (hrace : HiddenRace precision w u i q a)
    (hpart : HaveNoPart precision q u v a) (hbelow : x.stack.frame? i = some below)
    (hvirtual : settings.virtualExploration = true) (hvisited : x.table.isVisited ⟨below.node.index⟩)
    (hg : ∃ g, (g ∈ v → g = a) ∧ Starter p precision t x below.node
      (reversingSteps precision q (w.drop (i + 1) ++ u) a) g) :
    Succeeds (Exploration.isEmpty (p.context precision t settings)) x fun _ y =>
      RequiresStarter p precision t x y below.node
        (reversingSteps precision q (w.drop (i + 1) ++ u) a) := by
  let required (y : Exploration Step χ) : Prop := RequiresStarter p precision t x y below.node
    (reversingSteps precision q (w.drop (i + 1) ++ u) a)
  -- moves that do not enter the node again leave it with what is required there
  have hstays : ∀ {y y' : Exploration Step χ} {l : List NodeId}, Trail (Exploration.Move p t) y l y' →
      below.node ∉ l → required y → required y' := by
    rintro y y' l htrail hout ⟨r, hr, hkey⟩
    obtain ⟨b, hb, hbr⟩ := Keyed.hasKey_iff.1 hkey
    exact ⟨r, hr, Keyed.hasKey_iff.2 ⟨b, Exploration.Move.required_trail ht htrail hout hb, hbr⟩⟩
  obtain ⟨entry, hn, hcovering⟩ := h.covers
  refine (h.orderly.isEmpty_ends (J := fun y => y.table.isVisited ⟨below.node.index⟩ ∧ required y) ht
    ?_ ?_ ?_ hclosed ?_ ?_).imp fun _ y hy => hy.1.2.2
  · intro y y' hy _ _ htable _
    dsimp only [required, RequiresStarter]
    rw [htable]
    exact hy
  · intro y m e k b hy horderly htop hm hedge
    obtain ⟨-, -, hnew, -⟩ := Ends.of_mem_replayableEdges ht hm hedge
    refine (horderly.replayEdge ht htop hm hedge fun y₁ htrail hstack _ hsame _ hedge => ?_).yields
    have h₁ := Exploration.Move.orderly_trail ht horderly htrail
    obtain ⟨child, hchild, hparent⟩ := SearchTree.parent_eq_some_iff.1 hedge.1
    refine (Ends.addChild_moves ht h₁ (hstack ▸ htop) hchild hparent).imp
      fun isNew y' ⟨htrail', hmarks, _⟩ => ⟨?_, ?_⟩
    · rw [hmarks, hsame]
      exact .inr hy.1
    · refine hstays htrail' (fun hmem => ?_) (hstays htrail List.not_mem_nil hy.2)
      -- a node that has been visited is not entered again
      split at hmem
      · rw [← List.mem_singleton.1 hmem, hy.1] at hnew
        cases hnew
      · cases hmem
  · intro y m _ hy horderly _ _ _
    refine (Ends.popFrame_moves horderly).yields.imp fun _ y' ⟨htrail, hpopped⟩ => ⟨?_, ?_⟩
    · rw [hpopped.isVisited_eq]
      exact hy.1
    · exact hstays htrail List.not_mem_nil hy.2
  · exact fun hnone => nomatch h.top.symm.trans hnone
  · intro m e hm he
    obtain rfl := Option.some.inj (h.top.symm.trans hm)
    obtain rfl := Option.some.inj (hn.symm.trans he)
    unfold Exploration.prepare
    rw [hcovering, (ht.identity _ entry hn).2]
    dsimp only
    rw [if_pos (show (p.context precision t settings).settings.virtualExploration = true from hvirtual)]
    refine ((h.virtualExploration_reverses hp ht hclosed hfaithful hcomes hroot hrace hpart hbelow
      hg).both (h.orderly.virtualExploration_wanders ht hclosed h.top hn hcovering).yields).yields.imp
      fun _ y ⟨hrequired, hwanders, _⟩ => ⟨?_, hrequired⟩
    rw [hwanders.visited]
    exact hvisited

omit [ChoiceSource χ] [LawfulChoiceSource χ] in
/-- The walk goes on along an edge. The first one leads to a child of `c`, past the covered node. -/
theorem onward (hfaithful : t.Faithful) (hwalk : Walk t.Edge c u d)
    (hplace : u = [] ∧ m = n ∨ u ≠ [] ∧ m = d) (hedge : t.Edge d a k) :
    t.Onward u.head?.toList m a k (u ++ [a]).head?.toList := by
  rcases hplace with ⟨rfl, rfl⟩ | ⟨hu, rfl⟩
  · cases hwalk
    obtain ⟨e, hn, hcovering⟩ := h.covers
    exact .past (hfaithful.replaces h.live hn hcovering) hedge
  · rw [List.head?_append_of_ne_nil _ hu]
    exact .edge hedge

omit [LawfulChoiceSource χ] in
/-- A call that is not part of a walk of its own is reached along the tree, and of that way only the first
step is left out. -/
theorem comes_of_roots (ht : t.Sound p) (hfaithful : t.Faithful)
    (hcalls : Relation.ReflTransGen (WalkCall.Makes (p.context precision t settings) x.stack.size)
      (.first t c x) call) : call.roots ≠ [] ∧ (call.roots = [c] → call.root = c ∧ ∃ u m,
        WalkCall.Comes (p.context precision t settings) x n c u u.head?.toList m call ∧
        Walk t.Edge c u call.node ∧ (u = [] ∧ m = n ∨ u ≠ [] ∧ m = call.node)) := by
  induction hcalls with
  | refl => exact ⟨List.cons_ne_nil _ _, fun _ => ⟨rfl, [], n, .first, .nil c, .inl ⟨rfl, rfl⟩⟩⟩
  | tail _ hmakes ih =>
    obtain ⟨hne, hroots⟩ := ih
    cases id hmakes with
    | nested _ _ _ _ _ =>
      -- a walk of its own adds a root to those that there are
      exact ⟨List.cons_ne_nil _ _, fun heq => absurd (List.cons.inj heq).2 hne⟩
    | @child depth entry earlier later k y z _ hnode _ _ hchildren _ =>
      refine ⟨hne, fun heq => ?_⟩
      obtain ⟨hroot, u, m, hcomes, hwalk, hplace⟩ := hroots heq
      have hk : k ∈ entry.children := by
        rw [← List.mem_reverse, hchildren]
        simp
      obtain ⟨a, hedge⟩ := ht.exists_edge_of_child hnode hk
      exact ⟨hroot, u ++ [a], k, .child hcomes hmakes rfl (h.onward hfaithful hwalk hplace hedge),
        Walk.snoc_iff.2 ⟨_, hwalk, hedge⟩, .inr ⟨by simp, rfl⟩⟩

end AtCovered

end Interleaving
