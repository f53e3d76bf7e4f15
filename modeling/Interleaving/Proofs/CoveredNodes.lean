import Interleaving.Proofs.Passages

/-!
# Covered nodes left behind

Before a covered node is popped, a walk looks into what lies below the node that covers it. If no call
of the walk is cut off and the walks of the tree are unhindered, the races on the ways past the covered
node have been reversed when the walk is over (`Exploring.reversesPast`). That is what is asked of a
covered node that is left behind, so the question for the end of a round keeps what is known of the steps
taken (`Exploring.isEmpty`).
-/

namespace Interleaving

variable {p : Program} {t : SearchTree ProgramState Step} {settings : Settings}
  {x y : Exploration Step Seeded} {taken : NodeId → List Step} {n m c d k : NodeId}
  {s : ProgramState} {u v w z : List Step} {a b e f q : Step}

/-! ## Races past a covered node -/

/-- In a race of ordinary steps that can be seen, no step stands between the two. -/
theorem Race.hiddenRace {i : Nat} (hp : ∀ instrs ∈ p.threads, ∀ i ∈ instrs, i.isOrdinary)
    (hrun : p.IsRun s (w ++ q :: (z ++ u) ++ [e])) (hrace : Race p none (s.afterAll w) q (z ++ u) e)
    (hi : i = w.length) : HiddenRace none (w ++ q :: z) u i q e := by
  have hsplit : w ++ q :: z ++ u = w ++ q :: (z ++ u) := by simp
  refine ⟨by simp [hi], hrace.process_ne, hrace.depends, ?_⟩
  rw [hsplit]
  generalize z ++ u = z at hrun hrace ⊢
  have hnodup := hrun.nodup
  have hnodup' : (w ++ q :: z).Nodup := (List.nodup_append.1 hnodup).1
  intro b hqb hbe
  -- of the steps that stand between the two, one would come last
  obtain ⟨c, -, hce, hbc⟩ := hbe.exists_last hnodup
  have hqc : HappensBefore (Step.Depends none) (w ++ q :: z) q c := by
    rcases hbc with rfl | hbc
    · exact hqb
    · exact hqb.trans hbc
  obtain ⟨z₁, c, z₂, rfl, ⟨hqc, hce⟩, hlast⟩ : ∃ z₁ c z₂, z = z₁ ++ c :: z₂ ∧
      (HappensBefore (Step.Depends none) (w ++ q :: z) q c ∧ Step.Depends none c e) ∧
      ∀ d ∈ z₂, ¬(HappensBefore (Step.Depends none) (w ++ q :: z) q d ∧ Step.Depends none d e) :=
    exists_final ⟨c, hqc.mem_of_append hnodup', hqc, hce⟩
  have hordered : HappensBefore (Step.Depends none) (q :: (z₁ ++ c :: z₂)) q c := by
    rcases Leads.eq_or_happensBefore hqc.to_reflTransGen hnodup' with rfl | ⟨-, hordered⟩
    · have hmem := hqc.mem_of_append hnodup'
      exact absurd hmem (List.nodup_cons.1 (List.nodup_append.1 hnodup').2.1).1
    · exact hordered
  have hsplit : w ++ q :: (z₁ ++ c :: z₂) = w ++ q :: z₁ ++ c :: z₂ := by simp
  rw [hsplit] at hrun hnodup hnodup' hqc hlast
  -- so that one is in a race with the later step that could be reversed
  have himmediate : ImmediateRace (w ++ q :: z₁ ++ c :: z₂) c e := by
    refine ⟨hrace.apart c (.inr ⟨by simp, hordered⟩), hce, fun b hcb hbe => ?_⟩
    obtain ⟨d, -, hde, hbd⟩ := hbe.exists_last hnodup
    have hcd : HappensBefore (Step.Depends none) (w ++ q :: z₁ ++ c :: z₂) c d := by
      rcases hbd with rfl | hbd
      · exact hcb
      · exact hcb.trans hbd
    exact hlast d (hcd.mem_of_append hnodup') ⟨hqc.trans hcd, hde⟩
  rw [List.append_assoc, List.cons_append] at hrun
  obtain ⟨g, hg, hstarts⟩ := himmediate.exists_starts hp hrun
  rw [ProgramState.afterAll_append] at hg
  have hordinary : e.instr.isOrdinary := (hrun.hasStep (by simp)).isOrdinary hp
  exact hrace.dead z₁ c z₂ rfl hordered hce (Step.reversible_of_isOrdinary hordinary) g hg hstarts

/-- A cause of the later step that starts the run which reverses a race is not one of the steps that have no
part in it, unless it is that step itself. -/
theorem HaveNoPart.eq_of_isCause (h : HaveNoPart none q u v e) (hv : ∀ b ∈ v, b ∈ u ++ [e])
    (hnodup : (z ++ u ++ [e]).Nodup) (hcause : IsCause none (z ++ u) e f)
    (hf : f ∈ reversingSteps none q (z ++ u) e) (hfv : f ∈ v) : f = e := by
  rcases mem_reversingSteps_iff.1 hf with ⟨-, hindependent⟩ | rfl
  swap
  · rfl
  rcases hcause with rfl | hcause
  · rfl
  obtain ⟨d, ⟨hfd, hdepends⟩, -⟩ := Relation.TransGen.head'_iff.1 hcause
  rw [List.append_assoc] at hfd hnodup
  have hfd := hfd.of_append_right hnodup (hv f hfv)
  exact absurd hdepends.symm (((h f hfv).resolve_left hindependent) d hfd)

namespace Exploring

section Ways

variable (h : Exploring p none t taken none x)
include h

theorem mem_live (hn : x.Visits n) : n ∈ t.live := SearchTree.mem_live_iff.2 (h.node n hn)

/-- A way to a visited node is part of a passage from the node at which it begins, or from one that is
covered by this. -/
theorem exists_passage (hcovers : t.Covers c n) (hwalk : Walk (t.LeadsOn x.stack) c u m)
    (hm : x.Visits m) : u = [] ∧ m = c ∨ ∃ v, t.Passage n u v m := by
  induction u using List.reverseRecOn generalizing m with
  | nil =>
    cases hwalk
    exact .inl ⟨rfl, rfl⟩
  | append_singleton u a ih =>
    right
    obtain ⟨k, hwalk, hleads⟩ := Walk.snoc_iff.1 hwalk
    have hk : x.Visits k := h.visits_of_walk (.cons hleads (.nil m)) hm
    have hlive := h.mem_live hm
    -- a node that covers another one is not covered itself
    have hreplaces : ∀ {c n}, t.Covers c n → t.Replaces c n := fun {c n} hcovers => by
      have hanswers := h.covered c n hcovers
      exact ⟨hcovers, fun heq => hanswers.uncovered c (heq ▸ hcovers), hanswers.state_eq⟩
    rcases ih hwalk hk with ⟨rfl, rfl⟩ | ⟨v, hpassage⟩
    · cases hleads with
      | edge hedge => exact ⟨_, .step .start (.past (hreplaces hcovers) hedge) hlive⟩
      | past hcovers' _ _ => exact absurd hcovers' ((h.covered _ _ hcovers).uncovered _)
    · cases hleads with
      | edge hedge => exact ⟨_, .step hpassage (.edge hedge) hlive⟩
      | past hcovers' _ hedge => exact ⟨_, .step hpassage (.past (hreplaces hcovers') hedge) hlive⟩

end Ways

/-- A walk below the node that covers the current one keeps what has been taken. -/
theorem wander (ht : t.Sound p) (h : Exploring p none t taken none x) (hcovers : t.Covers c n)
    (hwanders : Wanders p t c x y) (hrelocks : x.stack.Relocks y.stack) :
    Exploring p none t taken none y := by
  have hnot : ¬t.Uncovered := fun hnone => hnone.not_covers hcovers
  have hvisits : ∀ m, y.Visits m ↔ x.Visits m := fun m => by
    rw [Exploration.Visits, hwanders.visited]
    rfl
  have hsleep : ∀ m, (y.sets m).sleep = (x.sets m).sleep := fun m => hwanders.sleep _
  refine h.carry (h.toRecords.carry hvisits (fun m => hrelocks.holds_iff.1)
    (fun _ _ => hrelocks.topNode?_eq) hsleep fun m => ?_)
    (h.path.relocks (fun _ _ _ => FrameSound.of_locks) hrelocks) hvisits
    (fun m => hrelocks.holds_iff.1) hsleep (fun m hm a ha => ?_) (fun hnone => absurd hnone hnot)
    (fun m _ a hdue => ?_) fun m q k y e k' hedge hwalk => ?_
  · refine (hwanders.explored ⟨m.index⟩).imp_right fun hforgotten => ?_
    obtain ⟨hempty, k, -, hk, hid⟩ := hforgotten
    obtain rfl : k = m := NodeId.eq_of_stateId_eq hid.symm
    exact ⟨hempty, fun hheld => hk (hrelocks.holds_iff.1 hheld), hnot⟩
  · obtain ⟨e, he, -⟩ := h.node m hm
    rw [SearchTree.state_eq he]
    refine (hwanders.orderly.agrees m e he).required a ?_
    rw [(ht.identity m e he).1]
    exact ha
  · refine hdue.imp_right fun hstill => ⟨hrelocks.holds_iff.2 hstill.1, ?_, ?_⟩
    · exact hwanders.keeps _ a hstill.2.1
    · rw [hsleep]
      exact hstill.2.2
  · exact h.reversed m q k y e k' hedge (hwalk.map (f := id) fun _ _ _ hleads =>
      hleads.mono fun _ => hrelocks.holds_iff.2)

section Past

variable (hp : ∀ instrs ∈ p.threads, ∀ i ∈ instrs, i.isOrdinary) (ht : t.Sound p)
  (hfree : t.IsUnhindered none) (h : Exploring p none t taken none x)
  (hcovered : AtCovered p none t x w n c)
include hp ht hfree h hcovered

/-- A race on a way past the current node, which is covered, is hidden behind that, and the steps that a
walk leaves out on the way have no part in the run that reverses the race. -/
theorem exists_hiddenRace (hedge : t.Edge m q k) (hz : Walk t.Edge k z n)
    (hway : Walk (t.LeadsOn x.stack) c (u ++ [e]) d) (hd : x.Visits d)
    (hrace : Race p none (t.state m) q (z ++ u) e) : ∃ i below v, x.stack.frame? i = some below ∧
      below.node = m ∧ w.drop (i + 1) = z ∧ HiddenRace none w u i q e ∧
      t.Passage n (u ++ [e]) v d ∧ HaveNoPart none q u v e ∧ (z ++ u ++ [e]).Nodup := by
  obtain ⟨last, hlast, rfl⟩ := hcovered.follows.exists_top hcovered.top
  have hwalk := hcovered.follows.walk_of_frame hlast
  obtain ⟨w₀, hw, below, hbelow, rfl⟩ := hcovered.follows.exists_split ht hlast (.cons hedge hz)
  rw [List.take_length] at hwalk hw
  obtain ⟨v, hpassage⟩ := (h.exists_passage hcovered.covers hway hd).resolve_left (by simp)
  -- the path to the current node and the way past it are one run
  have hpath := ht.run_of_walk hwalk
  rw [ht.state_root] at hpath
  have hrun : p.IsRun p.initialState (w ++ (u ++ [e])) := by
    refine Program.isRun_append.2 ⟨hpath.1, ?_⟩
    rw [← hpath.2]
    exact (hpassage.isRun ht).1
  subst hw
  have hstate : t.state below.node = p.initialState.afterAll w₀ := by
    have hbelow := (ht.run_of_walk (hcovered.follows.walk_of_frame hbelow)).2
    rwa [List.take_left, ht.state_root] at hbelow
  have hrun : p.IsRun p.initialState (w₀ ++ q :: (z ++ u) ++ [e]) := by simpa using hrun
  rw [hstate] at hrace
  have hhidden := hrace.hiddenRace hp hrun rfl
  have hnodup : (z ++ u ++ [e]).Nodup := by
    have hnodup := hrun.nodup
    rw [List.append_assoc, List.cons_append] at hnodup
    exact (List.nodup_cons.1 (List.nodup_append.1 hnodup).2.1).2
  exact ⟨w₀.length, below, v, hbelow, rfl, by simp, hhidden, hpassage,
    hfree c _ _ u v d _ q e hcovered.covers hwalk hpassage hhidden, hnodup⟩

/-- When the walk below the node that covers the current one is over, the races on the ways past that have
been reversed, if no call of the walk has been cut off and the walks of the tree are unhindered. -/
theorem reversesPast (hclosed : t.Closed) (hfaithful : t.Faithful) (hbare : t.Bare)
    (hnone : ∀ call, Relation.ReflTransGen
      (WalkCall.Makes (p.context none t settings) x.stack.size) (.first t c x) call →
      ∀ z, ¬call.CutsOff (p.context none t settings) x.stack.size z)
    (hover : Exploration.virtualExploration (p.context none t settings) c x = .ok () y)
    (hwanders : Wanders p t c x y) (hrelocks : x.stack.Relocks y.stack) :
    y.ReversesPast p none t taken c n := by
  have hy := h.wander ht hcovered.covers hwanders hrelocks
  have hpasses : ∀ m b, y.PassesOver taken m b ↔ x.PassesOver taken m b := fun m _ =>
    Exploration.passesOver_congr (hwanders.sleep ⟨m.index⟩)
  rintro m q k z u e d hedge hz hway hd hrace ⟨f, hcan, hawake, hcause, hf⟩
  have hway := hway.map (E := t.LeadsOn x.stack) (f := id) fun _ _ _ hleads =>
    hleads.mono fun _ => hrelocks.holds_iff.2
  have hd : x.Visits d := by rwa [Exploration.Visits, ← hwanders.visited]
  obtain ⟨i, below, v, hbelow, rfl, rfl, hhidden, hpassage, hpart, hnodup⟩ :=
    h.exists_hiddenRace hp ht hfree hcovered hedge hz hway hd hrace
  have hholds : x.stack.Holds below.node := ⟨i, below, hbelow, rfl⟩
  obtain ⟨call, hcomes, rfl, hroot⟩ := (hcovered.exists_comes ht hclosed hfaithful hbare hnone
    hpassage).resolve_left (by simp)
  rw [hpasses] at hawake
  have hstarter : Starter p none t x below.node
      (reversingSteps none q (w.drop (i + 1) ++ u) e) f :=
    ⟨hcan, (h.awake_iff hholds hcan.hasStep).2 hawake, hf⟩
  obtain ⟨r, hr, hkey⟩ := (hcovered.virtualExploration_reverses hp ht hclosed hfaithful hcomes hroot
    hhidden hpart hbelow
    ⟨f, hpart.eq_of_isCause hcomes.subset hnodup hcause hf.mem, hstarter⟩).of_ok hover
  refine ⟨r, Exploration.due_of_required (hrelocks.holds_iff.2 hholds) ?_ ?_, hr.starts⟩
  · refine (ActionSet.IsGenuine.hasKey_iff (p := p) ?_ hr.canRun.hasStep).1 hkey
    exact fun b hb => (hy.canRun _ (hy.standing _ (hrelocks.holds_iff.2 hholds)) b hb).hasStep
  · rw [hpasses]
    exact (h.awake_iff hholds hr.canRun.hasStep).1 hr.awake

end Past

/-- Some steps have been taken, and the current node may be left behind: if it is covered, the races on the
ways past it have been reversed. -/
def MayPop (p : Program) (t : SearchTree ProgramState Step) (y : Exploration Step Seeded) : Prop :=
  ∃ taken, Exploring p none t taken none y ∧
    ∀ n c, y.stack.topNode? = some n → t.Covers c n → y.ReversesPast p none t taken c n

theorem MayPop.of_topUncovered (h : ∃ taken, Exploring p none t taken none y) (htop : y.TopUncovered t) :
    MayPop p t y := by
  obtain ⟨taken, h⟩ := h
  exact ⟨taken, h, fun n c hn hcovers => absurd hcovers (htop n c hn)⟩

theorem MayPop.of_eq (h : MayPop p t x) (hstack : y.stack = x.stack) (htable : y.table = x.table) :
    MayPop p t y := by
  obtain ⟨taken, h, hpast⟩ := h
  refine ⟨taken, h.of_eq hstack htable, ?_⟩
  obtain ⟨stack, table, counters, choices⟩ := x
  obtain ⟨stack', table', counters', choices'⟩ := y
  obtain rfl : stack' = stack := hstack
  obtain rfl : table' = table := htable
  exact hpast

/-- The question for the end of a round, where no call of a walk is cut off and the walks of the tree are
unhindered. -/
theorem isEmpty (hp : ∀ instrs ∈ p.threads, ∀ i ∈ instrs, i.isOrdinary) (ht : t.Sound p)
    (hclosed : t.Closed) (hfaithful : t.Faithful) (hbare : t.Bare) (hfree : t.IsUnhindered none)
    (hvirtual : settings.virtualExploration = true) (horderly : Orderly p t x)
    (hclimbs : x.stack.Climbs t) (h : Exploring p none t taken none x)
    (hnone : ∀ n c, x.stack.topNode? = some n → t.Covers c n → ∀ call, Relation.ReflTransGen
      (WalkCall.Makes (p.context none t settings) x.stack.size) (.first t c x) call →
      ∀ z, ¬call.CutsOff (p.context none t settings) x.stack.size z) :
    Succeeds (Exploration.isEmpty (p.context none t settings)) x fun _ y =>
      ∃ taken, Exploring p none t taken none y := by
  have hkeep : ∀ y y' : Exploration Step Seeded, MayPop p t y → Orderly p t y' →
      y'.stack = y.stack → y'.table = y.table → y'.counters.account = y.counters.account →
      MayPop p t y' :=
    fun y y' hy _ hstack htable _ => hy.of_eq hstack htable
  have hedge : ∀ (y : Exploration Step Seeded) m e d a, MayPop p t y → Orderly p t y →
      y.stack.topNode? = some m → t.node? m = some e →
      (d, a) ∈ Exploration.replayableEdges (p.context none t settings) y.table e → Yields (do
        Exploration.recordTaken e.stateId (p.enabledSet e.state) a
        Exploration.count fun c => { c with lazyReplays := c.lazyReplays + 1 }
        Exploration.add (p.context none t settings) d) y fun _ => MayPop p t := by
    rintro y m e d a ⟨taken, hy, -⟩ - htop hm hmem
    exact (Ends.replayEdge_exploring ht hbare hy htop hm hmem).imp fun _ _ hy' =>
      .of_topUncovered hy'.1 hy'.2
  refine (horderly.isEmpty_ends ht hkeep hedge ?_ hclosed ?_ ?_).imp
    fun _ y ⟨⟨_, taken, hy, _⟩, _⟩ => ⟨taken, hy⟩
  · rintro y m e ⟨taken, hy, hpast⟩ - htop hm hexhausted
    exact (Ends.popFrame_exploring ht (fun d => hpast m d htop) hy htop hm hexhausted).imp
      fun _ _ hy' => .of_topUncovered hy'.1 hy'.2
  · exact fun hempty => ⟨taken, h, fun n c htop => nomatch hempty.symm.trans htop⟩
  · intro n entry htop hn
    cases hcovering : entry.covering with
    | none =>
      have htop' : x.TopUncovered t := by
        rintro m c hm ⟨e, he, hc⟩
        obtain rfl := Option.some.inj (htop.symm.trans hm)
        obtain rfl := Option.some.inj (hn.symm.trans he)
        exact nomatch hcovering.symm.trans hc
      refine (horderly.prepare_preserves ht hkeep hedge hclosed (.of_topUncovered ⟨taken, h⟩ htop') htop
        hn fun c hc => ?_).yields.imp fun _ _ hy => hy.2
      exact nomatch hcovering.symm.trans hc
    | some c =>
      have hcovers : t.Covers c n := ⟨entry, hn, hcovering⟩
      obtain ⟨w, hfollows, hframes⟩ := h.path.exists_follows htop
      have hcovered : AtCovered p none t x w n c := ⟨horderly, hclimbs, hfollows, hframes, htop,
        h.mem_live (h.standing n (SearchStack.holds_top htop)), hcovers⟩
      unfold Exploration.prepare
      rw [hcovering, (ht.identity n entry hn).2]
      dsimp only
      rw [if_pos (show (p.context none t settings).settings.virtualExploration = true from hvirtual)]
      refine (((horderly.virtualExploration_wanders ht hclosed htop hn hcovering).both
        (horderly.virtualExploration_leads ht hclosed htop hn hcovering).yields).and_ok).yields.imp
          fun _ y ⟨⟨⟨hwanders, _⟩, _, hrelocks⟩, hover⟩ =>
            ⟨taken, h.wander ht hcovers hwanders hrelocks, ?_⟩
      intro m d hm hd
      rw [hrelocks.topNode?_eq] at hm
      obtain rfl := Option.some.inj (htop.symm.trans hm)
      obtain rfl := hd.unique hcovers
      exact h.reversesPast hp ht hfree hcovered hclosed hfaithful hbare (hnone n d htop hcovers) hover
        hwanders hrelocks

end Exploring
end Interleaving
