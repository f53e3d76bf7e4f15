import Interleaving.Proofs.CutoffCounts
import Interleaving.Proofs.HiddenRaces

/-!
# Passages

A passage from a node goes down the tree, and past a covered node it goes on with the children of the
node that covers that one (`SearchTree.Passage`). As long as no call of it is cut off, the walk below the
node that covers the current one comes to all live nodes to which a passage leads
(`AtCovered.exists_comes`).

On its way a walk leaves out the first step past each covered node. The walks of a tree are unhindered if
these steps have no part in the runs that reverse the races on the way (`SearchTree.IsUnhindered`). A tree
that keeps the nodes of another one has all its passages; so if its walks are unhindered, those of the
other one are too (`SearchTree.IsUnhindered.of_keeps`).
-/

namespace Interleaving

variable {p : Program} {precision : Precision} {t t' : SearchTree ProgramState Step}
  {settings : Settings} {χ : Type} {x : Exploration Step χ} {n m c d k : NodeId}
  {entry : SearchTree.Node ProgramState Step} {u v v' w : List Step} {a : Step}

namespace SearchTree

/-- From `n` the steps of `u` lead on to `m`, through live nodes and past covered ones. The steps of `v` are
the first ones past these. -/
inductive Passage (t : SearchTree ProgramState Step) (n : NodeId) :
    List Step → List Step → NodeId → Prop where
  | start : Passage t n [] [] n
  | step {u v v' : List Step} {m k : NodeId} {a : Step} : Passage t n u v m → t.Onward v m a k v' →
    k ∈ t.live → Passage t n (u ++ [a]) v' k

/-- Where a passage from a covered node ends in a race with a step above that node, the steps that a walk
leaves out have no part in the run that reverses the race. -/
def IsUnhindered (t : SearchTree ProgramState Step) (precision : Precision) : Prop :=
  ∀ c n w u v m i q a, t.Covers c n → Walk t.Edge root w n → t.Passage n (u ++ [a]) v m →
    HiddenRace precision w u i q a → HaveNoPart precision q u v a

theorem Passage.isRun (ht : t.Sound p) (h : t.Passage n u v m) :
    p.IsRun (t.state n) u ∧ t.state m = (t.state n).afterAll u := by
  induction h with
  | start => exact ⟨trivial, rfl⟩
  | step _ honward _ ih =>
    obtain ⟨d, hedge, hstate⟩ := honward.exists_edge
    rw [Program.isRun_append, ProgramState.afterAll_append, ← ih.2, ← hstate]
    exact ⟨⟨ih.1, ht.canRun hedge, trivial⟩, ht.state_edge hedge⟩

/-! ## A test -/

/-- The steps to the children of a node. -/
def stepsBelow (t : SearchTree ProgramState Step) (m : NodeId) : List (Step × NodeId) :=
  (t.children m).filterMap fun k => (t.action k).map (·, k)

/-- The steps by which a passage may go on from `m`, with the nodes to which they lead and the steps left
out there. -/
def onwardSteps (t : SearchTree ProgramState Step) (v : List Step) (m : NodeId) :
    List (Step × NodeId × List Step) :=
  (t.stepsBelow m).map (fun (a, k) => (a, k, v)) ++
    match (t.node? m).bind (·.covering) with
    | none => []
    | some c => (t.stepsBelow c).map fun (a, k) => (a, k, v ++ [a])

/-- Where a passage that has left out the steps of `v` goes on from `m`, with no more steps than given, no
step depends on one that has been left out before. -/
def unhinderedBelow (t : SearchTree ProgramState Step) : Nat → List Step → NodeId → Bool
  | 0, _, _ => false
  | limit + 1, v, m => (t.onwardSteps v m).all fun (a, k, v') =>
    v.all (fun b => !decide (Step.Depends none a b)) && t.unhinderedBelow limit v' k

/-- So it is from all covered nodes on. -/
def unhindered (t : SearchTree ProgramState Step) : Bool :=
  t.ids.all fun n => ((t.node? n).bind (·.covering)).isNone || t.unhinderedBelow t.size [] n

theorem mem_stepsBelow (hfaithful : t.Faithful) (hk : k ∈ t.live) (hedge : t.Edge m a k) :
    (a, k) ∈ t.stepsBelow m :=
  List.mem_filterMap.2 ⟨k, hfaithful.mem_children hk hedge, by rw [hedge.2]; rfl⟩

theorem Onward.mem_onwardSteps (h : t.Onward v m a k v') (hfaithful : t.Faithful) (hk : k ∈ t.live) :
    (a, k, v') ∈ t.onwardSteps v m := by
  cases h with
  | edge hedge =>
    exact List.mem_append_left _ (List.mem_map.2 ⟨(a, k), mem_stepsBelow hfaithful hk hedge, rfl⟩)
  | past hreplaces hedge =>
    obtain ⟨e, he, hcovering⟩ := hreplaces.covers
    refine List.mem_append_right _ ?_
    rw [he, Option.bind_some, hcovering]
    exact List.mem_map.2 ⟨(a, k), mem_stepsBelow hfaithful hk hedge, rfl⟩

/-- On a passage from a node that passes the test, nothing after a step left out depends on it. -/
theorem Passage.not_depends {limit : Nat} (ht : t.Sound p) (hfaithful : t.Faithful)
    (htest : t.unhinderedBelow limit [] n) (h : t.Passage n u v m) :
    (∃ limit, t.unhinderedBelow limit v m) ∧
      ∀ b ∈ v, ∀ d, Precedes u b d → ¬Step.Depends none d b := by
  induction h with
  | start => exact ⟨⟨limit, htest⟩, fun b hb => absurd hb List.not_mem_nil⟩
  | @step u v v' m k a hpassage honward hlive ih =>
    obtain ⟨⟨limit, htest⟩, hindependent⟩ := ih
    have hnodup := ((hpassage.step honward hlive).isRun ht).1.nodup
    cases limit with
    | zero => cases htest
    | succ limit =>
      have hstep := List.all_eq_true.1 htest _ (honward.mem_onwardSteps hfaithful hlive)
      simp only [Bool.and_eq_true, List.all_eq_true, Bool.not_eq_true', decide_eq_false_iff_not] at hstep
      refine ⟨⟨limit, hstep.2⟩, fun b hb d hd => ?_⟩
      -- a step left out now is the last one
      have hold : b ∈ v ∨ b = a := by
        cases honward with
        | edge => exact .inl hb
        | past => simpa using hb
      have hne : b ∈ u → b ≠ a := fun hbu => (List.nodup_append.1 hnodup).2.2 b hbu a (by simp)
      rcases Precedes.append_iff.1 hd with hbd | hbd | ⟨hbu, hda⟩
      · exact hindependent b (hold.resolve_right (hne hbd.mem_left)) d hbd
      · simp [Precedes.cons_iff] at hbd
      · rw [List.mem_singleton.1 hda]
        exact hstep.1 b (hold.resolve_right (hne hbu))

/-- The walks of a tree that passes the test are unhindered. -/
theorem isUnhindered_of_unhindered (ht : t.Sound p) (hfaithful : t.Faithful)
    (htest : t.unhindered) : t.IsUnhindered none := by
  rintro c n w u v m i q a ⟨e, he, hcovering⟩ - hpassage - b hb
  have htest : t.unhinderedBelow t.size [] n := by
    have htest := List.all_eq_true.1 htest n (mem_ids_iff.2 ⟨e, he⟩)
    rw [he, Option.bind_some, hcovering] at htest
    exact htest
  exact .inr ((hpassage.not_depends ht hfaithful htest).2 b hb)

/-! ## Trees that keep the nodes of another one -/

/-- The nodes of `t` stand in `t'` where they were, the live ones are live and the covered ones covered. -/
structure Keeps (t t' : SearchTree ProgramState Step) : Prop where
  retains : t.Retains t'
  live : ∀ n ∈ t.live, n ∈ t'.live
  covers : ∀ c n, t.Covers c n → t'.Covers c n

namespace Keeps

theorem of_extends (h : t.Extends t') : t.Keeps t' where
  retains := .of_extends h
  live n hn := by
    obtain ⟨e, he, hpruned⟩ := mem_live_iff.1 hn
    obtain ⟨cs, b, he'⟩ := h n e he
    exact mem_live_iff.2 ⟨_, he', hpruned⟩
  covers c n := by
    rintro ⟨e, he, hcovering⟩
    obtain ⟨cs, b, he'⟩ := h n e he
    exact ⟨_, he', hcovering⟩

/-- A node may get covered. -/
theorem cover (hnot : ∀ d, ¬t.Covers d n) : t.Keeps (t.setCovering n (some c)) where
  retains k e he := by
    rw [setCovering, node?_modify, he]
    split
    · exact ⟨_, rfl, rfl, rfl, rfl⟩
    · exact ⟨e, rfl, rfl, rfl, rfl⟩
  live k hk := by
    obtain ⟨e, he, hpruned⟩ := mem_live_iff.1 hk
    rw [mem_live_iff, setCovering, node?_modify, he]
    split
    · exact ⟨_, rfl, hpruned⟩
    · exact ⟨e, rfl, hpruned⟩
  covers d k := by
    rintro ⟨e, he, hcovering⟩
    refine ⟨e, ?_, hcovering⟩
    rw [setCovering, node?_modify, if_neg, he]
    rintro rfl
    exact hnot d ⟨e, he, hcovering⟩

variable (h : t.Keeps t')
include h

theorem onward (ht : t.Sound p) (honward : t.Onward v m a k v') : t'.Onward v m a k v' := by
  cases honward with
  | edge hedge => exact .edge (h.retains.edge hedge)
  | @past c hreplaces hedge =>
    obtain ⟨hcovers, hne, hsame⟩ := hreplaces
    obtain ⟨e, he, -⟩ := id hcovers
    obtain ⟨f, hf, hparent, -⟩ := edge_iff.1 hedge
    obtain ⟨g, -, hg, -⟩ := ht.edge k f c hf hparent
    obtain ⟨e', he', -, -, hstate⟩ := h.retains m e he
    obtain ⟨g', hg', -, -, hstate'⟩ := h.retains c g hg
    refine .past ⟨h.covers c m hcovers, hne, ?_⟩ (h.retains.edge hedge)
    rw [state_eq hg', state_eq he', hstate, hstate', ← state_eq hg, ← state_eq he, hsame]

theorem passage (ht : t.Sound p) (hpassage : t.Passage n u v m) : t'.Passage n u v m := by
  induction hpassage with
  | start => exact .start
  | step _ honward hlive ih => exact .step ih (h.onward ht honward) (h.live _ hlive)

end Keeps

theorem IsUnhindered.of_keeps (h : t'.IsUnhindered precision) (ht : t.Sound p) (hkeeps : t.Keeps t') :
    t.IsUnhindered precision := by
  intro c n w u v m i q a hcovers hwalk hpassage hrace
  exact h c n w u v m i q a (hkeeps.covers c n hcovers)
    (hwalk.map (f := id) fun _ _ _ => hkeeps.retains.edge) (hkeeps.passage ht hpassage) hrace

end SearchTree

/-! ## Calls on a passage -/

namespace WalkCall

variable {call call' : WalkCall χ} {realSize : Nat}

/-- The walk below `c` comes to `d` along the tree alone: it passes through no covered node on the way. -/
def WalksTo [ChoiceSource χ] (ctx : Context ProgramState Step Empty) (x : Exploration Step χ)
    (c d : NodeId) : Prop :=
  ∃ call, Relation.ReflTransGen (Makes ctx x.stack.size) (.first ctx.tree c x) call ∧
    call.roots = [c] ∧ call.node = d

/-- The roots of the walks under way are no deeper than the node of the call, so that is none of them unless
its walk begins there. -/
theorem Comes.depth_le [ChoiceSource χ] [LawfulChoiceSource χ] (ht : t.Sound p) (hfaithful : t.Faithful)
    (hfirst : (WalkCall.first t c x).Rehearses p precision t x w [] [] n)
    (h : Comes (p.context precision t settings) x n c u v m call) : ∀ r ∈ call.roots,
      t.depth r ≤ t.depth call.node ∧ (call.node ≠ call.root → t.depth r < t.depth call.node) := by
  induction h with
  | first =>
    intro r hr
    obtain rfl := List.mem_singleton.1 hr
    exact ⟨Nat.le_refl _, fun hne => absurd rfl hne⟩
  | child hcomes hmakes hroots _ ih =>
    intro r hr
    cases hmakes with
    | nested => exact absurd hroots (List.cons_ne_self _ _)
    | @child _ entry _ _ k _ _ _ hn _ _ hchildren _ =>
      have hk : k ∈ entry.children := by
        rw [← List.mem_reverse, hchildren]
        simp
      have hlt : t.depth r < t.depth k := by
        rw [ht.depth_child hn hk]
        exact Nat.lt_succ_of_le (ih r hr).1
      exact ⟨Nat.le_of_lt hlt, fun _ => hlt⟩
  | nested hcomes hroot hmakes hroots ih =>
    intro r hr
    cases hmakes with
    | child => exact absurd rfl hroots
    | nested _ hn _ hcovering _ =>
      obtain ⟨_, haligned⟩ := (hcomes.rehearses ht hfaithful hfirst).aligned
      have hdepth := (hfaithful.depth_covering haligned.live hn hcovering).2
      refine ⟨?_, fun hne => absurd rfl hne⟩
      rcases List.mem_cons.1 hr with rfl | hr
      · exact Nat.le_refl _
      · exact hdepth ▸ Nat.le_of_lt ((ih r hr).2 hroot)

/-- A call that is not cut off goes down from its node. -/
theorem Rehearses.exists_entered [ChoiceSource χ] [LawfulChoiceSource χ] (ht : t.Sound p)
    (h : call.Rehearses p precision t x w u v m) (hnode : t.node? call.node = some entry)
    (hnone : ∀ z, ¬call.CutsOff (p.context precision t settings) realSize z) :
    ∃ y, Exploration.enterVirtual (p.context precision t settings) realSize call.start call.root
      call.node (call.unwound entry) = .ok true y := by
  by_cases hroot : call.node = call.root
  · refine ⟨call.unwound entry, ?_⟩
    unfold Exploration.enterVirtual
    rw [if_pos hroot]
    rfl
  obtain ⟨_, haligned⟩ := h.aligned
  obtain ⟨hcut, -⟩ := haligned.unwound ht h.roams.climbs hnode
  obtain ⟨-, -, u₀, v₀, m₀, b, -, -, htop, honward⟩ :=
    (h.walked entry hnode).resolve_left fun hplace => hroot hplace.1
  obtain ⟨d, hedge, -⟩ := honward.exists_edge
  obtain ⟨e, he, hparent⟩ := SearchTree.parent_eq_some_iff.1 hedge.1
  obtain rfl : e = entry := Option.some.inj (he.symm.trans hnode)
  have hpushed : Succeeds (Exploration.push (p.context precision t settings) call.node call.start)
      (call.unwound e) fun isNew _ => isNew = false → (call.unwound e).stack.Holds call.node :=
    (Ends.push_moves ht (h.roams.cut ht hcut).orderly hnode hparent
      (Nat.pos_of_ne_zero (SearchStack.size_ne_zero htop))).imp fun _ _ hy => hy.2.2.2.2.2
  obtain ⟨isNew, y, hpush, hrefused⟩ := hpushed.exists_ok
  obtain rfl : isNew = true := by
    by_contra hold
    exact haligned.not_holds ht h.roams.climbs hnode hroot (hrefused (Bool.eq_false_iff.2 hold))
  refine ⟨y, ?_⟩
  unfold Exploration.enterVirtual
  rw [if_neg hroot]
  refine (bind_of_ok hpush).trans ?_
  show (if y.stack.top?.all (·.isCutOffFrom realSize) then _ else _ : ExploreM Step χ Empty Bool) y = _
  rw [if_neg fun hcut => hnone y ⟨hroot, e, hnode, hpush, hcut⟩]
  rfl

end WalkCall

namespace AtCovered

variable [ChoiceSource χ] [LawfulChoiceSource χ] {call : WalkCall χ}
  (h : AtCovered p precision t x w n c) (ht : t.Sound p) (hclosed : t.Closed) (hfaithful : t.Faithful)
  (hbare : t.Bare)
  (hnone : ∀ call, Relation.ReflTransGen
    (WalkCall.Makes (p.context precision t settings) x.stack.size) (.first t c x) call →
    ∀ z, ¬call.CutsOff (p.context precision t settings) x.stack.size z)
include h ht hclosed hfaithful hbare hnone

/-- From the node of a call the walk goes on to its live children. -/
theorem exists_child (hcomes : WalkCall.Comes (p.context precision t settings) x n c u v m call)
    (hedge : t.Edge call.node a k) (hk : k ∈ t.live) (honward : t.Onward v m a k v') :
    ∃ call' : WalkCall χ, call'.roots = call.roots ∧
      WalkCall.Comes (p.context precision t settings) x n c (u ++ [a]) v' k call' ∧
        call'.node = k ∧ call'.node ≠ call'.root := by
  have hcall := (h.satisfies hclosed h.orderly).calls ht hclosed (.orderly ht) hcomes.calls
  obtain ⟨entry, hnode, -, hmem⟩ := hfaithful.exists_parent hk hedge
  have huncovered : entry.covering = none :=
    Option.eq_none_iff_forall_ne_some.2 fun d hd => hbare.not_covers hnode hmem d ⟨entry, hnode, hd⟩
  obtain ⟨y, henter⟩ :=
    (h.rehearses ht hfaithful hcomes).exists_entered ht hnode (hnone call hcomes.calls)
  obtain ⟨depth, z, hmakes⟩ := hcall.exists_child ht hclosed (.orderly ht) hnode huncovered henter hmem
  refine ⟨{ call with depth, node := k, exploration := z }, rfl, .child hcomes hmakes rfl honward, rfl,
    fun heq => ?_⟩
  have hlt := ht.index_lt hedge
  have heq : k = call.root := heq
  rcases hcall.walking.place with ⟨hroot, -⟩ | ⟨hroot, -⟩
  · rw [hroot, heq] at hlt
    exact Nat.lt_irrefl _ hlt
  · rw [← heq] at hroot
    exact Nat.lt_asymm hlt hroot

omit hbare in
/-- Below a covered node of the walk, a walk of its own begins. -/
theorem exists_nested (hcomes : WalkCall.Comes (p.context precision t settings) x n c u v m call)
    (hroot : call.node ≠ call.root) (hcovers : t.Covers d call.node) :
    ∃ call', WalkCall.Comes (p.context precision t settings) x n c u v m call' ∧ call'.node = d := by
  obtain ⟨first, hn, hcovering⟩ := h.covers
  have hcall := (h.satisfies hclosed h.orderly).calls ht hclosed (.orderly ht) hcomes.calls
  have hrehearses := h.rehearses ht hfaithful hcomes
  obtain ⟨entry, hnode, hcovering'⟩ := hcovers
  obtain ⟨_, haligned⟩ := hrehearses.aligned
  obtain ⟨y, henter⟩ := hrehearses.exists_entered ht hnode (hnone call hcomes.calls)
  obtain ⟨depth, hdepth⟩ : ∃ depth, call.depth = depth + 1 :=
    Nat.exists_eq_add_one_of_ne_zero (Nat.ne_of_gt (Nat.zero_lt_of_lt hcall.walking.room))
  -- the roots of the walks under way are less deep than the covering node
  have hfresh : d ∉ call.roots := by
    intro hmem
    have hdepth := (hfaithful.depth_covering haligned.live hnode hcovering').2
    have hlt := (hcomes.depth_le ht hfaithful (.first hfaithful h.orderly h.climbs h.top h.live hn
      hcovering h.follows h.frames) d hmem).2 hroot
    exact absurd hdepth (Nat.ne_of_lt hlt)
  exact ⟨_, .nested hcomes hroot (.nested hdepth hnode henter hcovering' hfresh)
    (List.cons_ne_self _ _), rfl⟩

/-- A walk of which no call is cut off comes to each node to which a passage leads. -/
theorem exists_comes (hpassage : t.Passage n u v m) : u = [] ∧ v = [] ∧ m = n ∨
    ∃ call, WalkCall.Comes (p.context precision t settings) x n c u v m call ∧ call.node = m ∧
      call.node ≠ call.root := by
  induction hpassage with
  | start => exact .inl ⟨rfl, rfl, rfl⟩
  | @step u v v' m k a _ honward hlive ih =>
    refine .inr ?_
    rcases ih with ⟨rfl, rfl, rfl⟩ | ⟨call, hcomes, rfl, hroot⟩
    · cases id honward with
      | edge hedge =>
        -- covered nodes have no children
        obtain ⟨e, he, -, hmem⟩ := hfaithful.exists_parent hlive hedge
        exact absurd h.covers (hbare.not_covers he hmem c)
      | past hreplaces hedge =>
        obtain rfl := SearchTree.Covers.unique hreplaces.covers h.covers
        exact (h.exists_child ht hclosed hfaithful hbare hnone .first hedge hlive honward).imp
          fun _ => And.right
    · cases id honward with
      | edge hedge =>
        exact (h.exists_child ht hclosed hfaithful hbare hnone hcomes hedge hlive honward).imp
          fun _ => And.right
      | past hreplaces hedge =>
        obtain ⟨call', hcomes', rfl⟩ :=
          h.exists_nested ht hclosed hfaithful hnone hcomes hroot hreplaces.covers
        exact (h.exists_child ht hclosed hfaithful hbare hnone hcomes' hedge hlive honward).imp
          fun _ => And.right

/-- A walk of which no call is cut off comes to each live node below the covering one. -/
theorem walksTo (hwalk : Walk t.Edge c u d) (hd : d ∈ t.live) :
    WalkCall.WalksTo (p.context precision t settings) x c d := by
  induction u using List.reverseRecOn generalizing d with
  | nil =>
    cases hwalk
    exact ⟨_, .refl, rfl, rfl⟩
  | append_singleton u a ih =>
    obtain ⟨m, hwalk, hedge⟩ := Walk.snoc_iff.1 hwalk
    obtain ⟨e, hm, hpruned, -⟩ := hfaithful.exists_parent hd hedge
    obtain ⟨call, hcalls, hroots, rfl⟩ := ih hwalk (SearchTree.mem_live_iff.2 ⟨e, hm, hpruned⟩)
    obtain ⟨-, u', k, hcomes, hwalk', hplace⟩ := (h.comes_of_roots ht hfaithful hcalls).2 hroots
    obtain ⟨call', hroots', hcomes', rfl, -⟩ := h.exists_child ht hclosed hfaithful hbare hnone hcomes
      hedge hd (h.onward hfaithful hwalk' hplace hedge)
    exact ⟨call', hcomes'.calls, hroots'.trans hroots, rfl⟩

end AtCovered

end Interleaving
