import Interleaving.Proofs.Stacks

/-!
# Clocks on the search stack

The clocks of a frame are sound (`FrameSound`) if each entry names a step that leads, by a chain of
dependent steps, to one of the thread of the clock or to the step that made the thread active. A push
keeps that (`FrameSound.next`).

Sound clocks do not hide races: whenever the race of a new step with an earlier one can be seen in the
sense of `Race`, the scan gets to the earlier step and requires a step that starts the reversing run
(`Ends.scanned`).
-/

namespace Interleaving

variable {p : Program} {precision : Precision} {t : SearchTree ProgramState Step}
  {stack : SearchStack Step} {w : List Step} {n : NodeId} {a b c e q : Step} {r : ProcessId}

/-! ## What the entries of a clock say -/

/-- A chain of dependent steps, which may be empty, leads from `a` to `b`. -/
abbrev Leads (precision : Precision) (w : List Step) : Step → Step → Prop :=
  Relation.ReflTransGen fun a b => Precedes w a b ∧ Step.Depends precision a b

/-- The step `b` of a run from the initial state makes a thread active. -/
def Activates (p : Program) (w : List Step) (b : Step) (r : ProcessId) : Prop :=
  ∃ x y, w = x ++ b :: y ∧ b.instr = .spawn r ∧
    ¬(p.initialState.afterAll x).active.hasKey r

/-- Each entry of the clock of a thread names a step that leads to one of the thread, or to the one
that made it active. -/
def ClockSound (p : Program) (precision : Precision) (w : List Step) (r : ProcessId)
    (clock : Clock) : Prop :=
  ∀ q k, SortedMap.get? clock q = some k → ∃ a b, 0 < k ∧ w[k - 1]? = some a ∧ a.process = q ∧
    b ∈ w ∧ Leads precision w a b ∧ (b.process = r ∨ Activates p w b r)

theorem Leads.append (h : Leads precision w a b) (y : List Step) : Leads precision (w ++ y) a b :=
  Relation.ReflTransGen.mono
    (fun _ _ h => ⟨h.1.of_sublist (List.sublist_append_left w y), h.2⟩) _ _ h

theorem Activates.append (h : Activates p w b r) (y : List Step) : Activates p (w ++ y) b r := by
  obtain ⟨x, z, rfl, hb, hactive⟩ := h
  exact ⟨x, z ++ y, by simp, hb, hactive⟩

theorem Activates.spawns {e : Step} (h : Activates p w b e.process) : b.spawns e := by
  obtain ⟨x, z, rfl, hb, -⟩ := h
  simp [Step.spawns, hb]

theorem ClockSound.append {clock : Clock} (h : ClockSound p precision w r clock) (y : List Step) :
    ClockSound p precision (w ++ y) r clock := by
  intro q k hk
  obtain ⟨a, b, hpos, ha, haq, hb, hab, hanchor⟩ := h q k hk
  have hlt : k - 1 < w.length := (List.getElem?_eq_some_iff.1 ha).1
  refine ⟨a, b, hpos, ?_, haq, by simp [hb], hab.append y, hanchor.imp_right (·.append y)⟩
  rw [List.getElem?_append_left hlt, ha]

theorem clockSound_empty : ClockSound p precision w r (∅ : Clock) := by
  intro q k hk
  rw [SortedMap.get?_eq_some_iff] at hk
  cases hk

/-- An entry of two joined clocks is an entry of one of them. -/
theorem Clock.get?_join {c d : Clock} {k : Nat} {q : ProcessId}
    (h : SortedMap.get? (c.join d) q = some k) :
    SortedMap.get? c q = some k ∨ SortedMap.get? d q = some k := by
  -- by induction on the entries that are merged in, for any clock they are merged into
  have hfold : ∀ (l : List (ProcessId × Nat)) (c : Clock),
      SortedMap.get? (l.foldl
        (fun c e => SortedMap.put c e.1 (max (SortedMap.getD c e.1 0) e.2)) c) q = some k →
      SortedMap.get? c q = some k ∨ (q, k) ∈ l := by
    intro l
    induction l with
    | nil => exact fun c h => .inl h
    | cons e l ih =>
      intro c h
      rcases ih _ h with h | h
      · rw [SortedMap.get?_put] at h
        split at h
        · rename_i heq
          rw [Option.some.injEq, SortedMap.getD] at h
          by_cases hmax : ((SortedMap.get? c e.1).getD 0) ≤ e.2
          · rw [Nat.max_eq_right hmax] at h
            right
            rw [List.mem_cons]
            exact .inl (by rw [heq, ← h])
          · left
            rw [Nat.max_eq_left (by omega)] at h
            cases hc : SortedMap.get? c e.1 with
            | none =>
              rw [hc] at hmax
              simp at hmax
            | some v =>
              rw [hc, Option.getD_some] at h
              rw [heq, hc, h]
        · exact .inl h
      · exact .inr (List.mem_cons_of_mem _ h)
  rcases hfold d.toList c h with h | h
  · exact .inl h
  · exact .inr (SortedMap.get?_eq_some_iff.2 h)

/-- The clocks of a frame are sound, and every thread that has made a step is known. -/
structure FrameSound (p : Program) (precision : Precision) (w : List Step) (f : Frame Step) :
    Prop where
  known : ∀ a ∈ w, f.lastAction.hasKey a.process
  clock : ∀ r, ClockSound p precision w r (SortedMap.getD f.clocks r ∅)

theorem frameSound_root {n : NodeId} : FrameSound p precision [] (.root n) := by
  refine ⟨by simp, fun r => ?_⟩
  exact clockSound_empty

/-- The locks of a frame do not count. -/
theorem FrameSound.of_locks {f : Frame Step} {locks : SortedMap LockId Nat}
    (h : FrameSound p precision w { f with locks }) : FrameSound p precision w f := ⟨h.known, h.clock⟩

/-! ## The clock of a scan -/

/-- What is known to come before the new step is up to the entry of the clock. -/
theorem Exploration.RaceScan.isOrdered_iff {scan : RaceScan} {q : ProcessId} {i : Nat} :
    scan.isOrdered q i ↔ ∃ k, SortedMap.get? scan.clock q = some k ∧ i ≤ k := by
  unfold isOrdered
  cases SortedMap.get? scan.clock q <;> simp

/-- A scan starts with every other thread that has made a step. -/
theorem FrameSound.pending_start {last : Frame Step} {q : ProcessId} {i : Nat}
    (h : FrameSound p precision w last) (ha : a ∈ w) (hne : a.process ≠ q) :
    (Exploration.RaceScan.start last q i).pending.hasKey a.process := by
  refine Keyed.hasKey_ofList.2 ⟨a.process, List.mem_filter.2 ⟨?_, by simpa using hne⟩, rfl⟩
  obtain ⟨d, hd, hda⟩ := Keyed.hasKey_iff.1 (h.known a ha)
  exact hda ▸ List.mem_map_of_mem hd

/-- Each entry of the clock of a scan is that of the new step `e`, or names a step that leads to one
that `e` depends on. -/
def ScanSound (precision : Precision) (w : List Step) (e : Step) (scan : Exploration.RaceScan) :
    Prop :=
  ∀ q k, SortedMap.get? scan.clock q = some k → q = e.process ∧ k = w.length + 1 ∨
    ∃ a b, 0 < k ∧ w[k - 1]? = some a ∧ a.process = q ∧ b ∈ w ∧ Leads precision w a b ∧
      Step.Depends precision b e

/-- What leads to an anchor of the thread of `e` leads to something that `e` depends on. -/
theorem depends_of_anchor (h : b.process = e.process ∨ Activates p w b e.process) :
    Step.Depends precision b e := by
  rcases h with h | h
  · exact Step.dependent_of_process_eq h
  · simp [Step.Depends, Step.dependent, h.spawns]

theorem scanSound_start {last : Frame Step} (h : FrameSound p precision w last) :
    ScanSound precision w e (.start last e.process (w.length + 1)) := by
  intro q k hk
  rw [Exploration.RaceScan.start, SortedMap.get?_put] at hk
  split at hk
  · rename_i hq
    exact .inl ⟨hq, (Option.some.inj hk).symm⟩
  · obtain ⟨a, b, hpos, ha, haq, hb, hab, hanchor⟩ := h.clock _ q k hk
    exact .inr ⟨a, b, hpos, ha, haq, hb, hab, depends_of_anchor hanchor⟩

/-- On a frame, an entry of the clock of the thread of the step `c` that led there names a step that
leads to `c`. -/
theorem FrameSound.leads {f : Frame Step} {l k : Nat} {r : ProcessId}
    (hf : FrameSound p precision (w.take (l + 1)) f) (hc : w[l]? = some c)
    (hk : SortedMap.get? (SortedMap.getD f.clocks c.process ∅) r = some k) :
    ∃ a, 0 < k ∧ w[k - 1]? = some a ∧ a.process = r ∧ Leads precision w a c := by
  have htake : w = w.take (l + 1) ++ w.drop (l + 1) := (List.take_append_drop _ _).symm
  have hsplit : w = w.take l ++ c :: w.drop (l + 1) := by
    rw [List.take_add_one, hc] at htake
    simpa using htake
  obtain ⟨a, b, hpos, ha, har, hb, hab, hanchor⟩ := hf.clock c.process r k hk
  have hlt : k - 1 < (w.take (l + 1)).length := (List.getElem?_eq_some_iff.1 ha).1
  refine ⟨a, hpos, ?_, har, ?_⟩
  · rw [htake, List.getElem?_append_left hlt, ha]
  have hab' : Leads precision w a b := by
    have := hab.append (w.drop (l + 1))
    rwa [← htake] at this
  rw [List.take_add_one, hc, Option.toList_some, List.mem_append, List.mem_singleton] at hb
  rcases hb with hb | rfl
  · refine hab'.tail ⟨?_, depends_of_anchor hanchor⟩
    rw [hsplit]
    exact Precedes.append_iff.2 (.inr (.inr ⟨hb, by simp⟩))
  · exact hab'

theorem ScanSound.order {scan : Exploration.RaceScan} {f : Frame Step} {l : Nat}
    (h : ScanSound precision w e scan) (hf : FrameSound p precision (w.take (l + 1)) f)
    (hc : w[l]? = some c) (hce : Step.Depends precision c e) :
    ScanSound precision w e (scan.order c.process (l + 1) f) := by
  have hmem : c ∈ w := List.mem_of_getElem? hc
  intro r k hk
  rcases Clock.get?_join hk with hk | hk
  · rw [SortedMap.get?_put] at hk
    split at hk
    · rename_i hr
      obtain rfl : l + 1 = k := Option.some.inj hk
      exact .inr ⟨c, c, by omega, hc, hr.symm, hmem, .refl, hce⟩
    · exact h r k hk
  · obtain ⟨a, hpos, ha, har, hac⟩ := hf.leads hc hk
    exact .inr ⟨a, c, hpos, ha, har, hmem, hac, hce⟩

/-- An entry of a clock after threads have been spawned was there before, or comes from the clock of
the thread that spawned them. -/
theorem get?_spawned {clock : Clock} {r q : ProcessId} {k : Nat} {spawned : List ProcessId}
    {clocks : SortedMap ProcessId Clock}
    (h : SortedMap.get? (SortedMap.getD (spawned.foldl (fun clocks s =>
      SortedMap.put clocks s (Clock.join (SortedMap.getD clocks s ∅) clock)) clocks) r ∅) q = some k) :
    SortedMap.get? (SortedMap.getD clocks r ∅) q = some k ∨
      r ∈ spawned ∧ SortedMap.get? clock q = some k := by
  induction spawned generalizing clocks with
  | nil => exact .inl h
  | cons s spawned ih =>
    rcases ih h with h | ⟨hr, h⟩
    · rw [SortedMap.getD, SortedMap.get?_put] at h
      split at h
      · rename_i hr
        subst hr
        exact (Clock.get?_join h).imp_right fun h => ⟨by simp, h⟩
      · exact .inl h
    · exact .inr ⟨by simp [hr], h⟩

/-- The frame of a new step is sound after it. -/
theorem FrameSound.next {last : Frame Step} {scan : Exploration.RaceScan} {spawned : List ProcessId}
    {acquired released : List LockId} (hlast : FrameSound p precision w last)
    (hscan : ScanSound precision w e scan)
    (hspawned : ∀ r ∈ spawned, e.instr = .spawn r ∧ ¬(p.initialState.afterAll w).active.hasKey r) :
    FrameSound p precision (w ++ [e])
      (Exploration.nextFrame last (w.length + 1) n e scan.clock spawned acquired released) := by
  have hput : ∀ r, (Exploration.nextFrame last (w.length + 1) n e scan.clock spawned acquired
      released).lastAction.hasKey r ↔ last.lastAction.hasKey r ∨ r = e.process := by
    intro r
    exact SortedMap.hasKey_put
  -- the clock of the scan knows of steps that lead to `e`
  have hnew : ∀ q k, SortedMap.get? scan.clock q = some k → ∃ a, 0 < k ∧
      (w ++ [e])[k - 1]? = some a ∧ a.process = q ∧ Leads precision (w ++ [e]) a e := by
    intro q k hk
    rcases hscan q k hk with ⟨rfl, rfl⟩ | ⟨a, b, hpos, ha, haq, hb, hab, hbe⟩
    · exact ⟨e, by omega, by simp, rfl, .refl⟩
    · have hlt : k - 1 < w.length := (List.getElem?_eq_some_iff.1 ha).1
      refine ⟨a, hpos, by rw [List.getElem?_append_left hlt, ha], haq, (hab.append [e]).tail ⟨?_, hbe⟩⟩
      exact Precedes.append_iff.2 (.inr (.inr ⟨hb, by simp⟩))
  constructor
  · intro a ha
    rw [hput]
    rcases List.mem_append.1 ha with ha | ha
    · exact .inl (hlast.known a ha)
    · exact .inr (by rw [List.mem_singleton.1 ha])
  · intro r q k hk
    change SortedMap.get? (SortedMap.getD (SortedMap.put _ e.process scan.clock) r ∅) q = some k at hk
    rw [SortedMap.getD, SortedMap.get?_put] at hk
    split at hk
    · -- the thread of the step itself
      rename_i hr
      obtain ⟨a, hpos, ha, haq, hae⟩ := hnew q k hk
      exact ⟨a, e, hpos, ha, haq, by simp, hae, .inl hr.symm⟩
    · rcases get?_spawned hk with hk | ⟨hr, hk⟩
      · exact (hlast.clock r).append [e] q k hk
      · obtain ⟨a, hpos, ha, haq, hae⟩ := hnew q k hk
        obtain ⟨hinstr, hactive⟩ := hspawned r hr
        exact ⟨a, e, hpos, ha, haq, by simp, hae, .inr ⟨w, [], by simp, hinstr, hactive⟩⟩

/-- The frame of a child of the current node, or of a node with the same state, is sound: the threads
that are active there and not before were made active by the step. -/
theorem FrameSound.child {last : Frame Step} {scan : Exploration.RaceScan} {spawned : List ProcessId}
    {acquired released : List LockId} {m : NodeId} {entry before : SearchTree.Node ProgramState Step}
    (ht : t.Sound p) (hperforms : Performs t stack w) (hlast : stack.frame? w.length = some last)
    (hedge : t.Edge m e n) (hsame : t.state m = t.state last.node) (hentry : t.node? n = some entry)
    (hbefore : t.node? last.node = some before) (hsound : FrameSound p precision w last)
    (hscan : ScanSound precision w e scan) (hspawned : ∀ r ∈ spawned,
      entry.state.active.hasKey r ∧ before.state.active.hasKey r = false) :
    FrameSound p precision (w ++ [e])
      (Exploration.nextFrame last (w.length + 1) n e scan.clock spawned acquired released) := by
  have hstate := ht.state_edge hedge
  rw [SearchTree.state_eq hentry, hsame, SearchTree.state_eq hbefore] at hstate
  have hrun := hperforms.state_of_frame ht hlast
  rw [SearchTree.state_eq hbefore, List.take_length] at hrun
  refine hsound.next hscan fun r hr => ?_
  obtain ⟨hafter, hbefore'⟩ := hspawned r hr
  rw [hstate, ProgramState.hasKey_active_after, hbefore'] at hafter
  rw [← hrun, hbefore']
  exact ⟨by simpa using hafter, by simp⟩

/-! ## Races are seen -/

/-- What a step of a run leads to is the step itself or happens after it. -/
theorem Leads.eq_or_happensBefore {u y : List Step} (h : Leads precision (u ++ q :: y) q b)
    (hnodup : (u ++ q :: y).Nodup) :
    b = q ∨ b ∈ y ∧ HappensBefore (Step.Depends precision) (q :: y) q b := by
  -- no step of the chain goes back to `u`
  have hstep : ∀ c d, c ∈ q :: y → Precedes (u ++ q :: y) c d → Precedes (q :: y) c d ∧ d ∈ y :=
    fun c d hc hcd =>
      have hcd := hcd.of_append_right hnodup hc
      ⟨hcd, hcd.mem_right_of_cons⟩
  induction h with
  | refl => exact .inl rfl
  | tail _ hcd ih =>
    obtain ⟨hbefore, hdep⟩ := hcd
    rcases ih with rfl | ⟨hc, hhb⟩
    · obtain ⟨hbefore, hd⟩ := hstep _ _ (by simp) hbefore
      exact .inr ⟨hd, .single ⟨hbefore, hdep⟩⟩
    · obtain ⟨hbefore, hd⟩ := hstep _ _ (by simp [hc]) hbefore
      exact .inr ⟨hd, hhb.tail ⟨hbefore, hdep⟩⟩

/-- A later step of a thread comes after an earlier one. -/
theorem leads_of_process_eq {u y : List Step} {k : Nat} (hk : u.length < k)
    (ha : (u ++ q :: y)[k - 1]? = some a) (haq : a.process = q.process) :
    Leads precision (u ++ q :: y) q a := by
  rw [List.getElem?_append_right (by omega)] at ha
  obtain ⟨j, hj⟩ : ∃ j, k - 1 - u.length = j := ⟨_, rfl⟩
  rw [hj] at ha
  cases j with
  | zero =>
    obtain rfl : q = a := by simpa using ha
    exact .refl
  | succ j =>
    have hay : a ∈ y := List.mem_of_getElem? (by simpa using ha)
    refine .single ⟨?_, Step.dependent_of_process_eq haq.symm⟩
    exact Precedes.append_iff.2 (.inr (.inl (Precedes.cons_iff.2 (.inl ⟨rfl, hay⟩))))

section Detection

variable {u y : List Step}

/-- Whatever the clock of a race's later step reaches, the earlier step is not reached by it. -/
theorem Race.clock_lt {clock : Clock} {k : Nat}
    (hrace : Race p precision (p.initialState.afterAll u) q y e) (hw : (u ++ q :: y).Nodup)
    (hclock : ClockSound p precision (u ++ q :: y) e.process clock)
    (hk : SortedMap.get? clock q.process = some k) : k < u.length + 1 := by
  by_contra hle
  obtain ⟨a, b, hpos, ha, haq, hb, hab, hanchor⟩ := hclock _ k hk
  have hqb : Leads precision (u ++ q :: y) q b :=
    (leads_of_process_eq (by omega) ha haq).trans hab
  have hqb := hqb.eq_or_happensBefore hw
  rcases hanchor with h | ⟨x, z, hsplit, hspawn, hdormant⟩
  · exact hrace.apart b hqb h
  · -- the step that made the thread active is not one of `u`
    have hmem : b ∈ q :: y := List.mem_cons.2 (hqb.imp_right And.left)
    have hbu : b ∉ u := fun hb => (List.nodup_append.1 hw).2.2 b hb b hmem rfl
    obtain ⟨y₁, rfl, hy⟩ := exists_split_right hsplit hbu
    rw [ProgramState.afterAll_append] at hdormant
    exact hdormant (hrace.active y₁ b z hy hqb (by simp [Step.spawns, hspawn]))

/-- Nor is it reached by the clock of a frame between the two, unless the step there is ordered after
it. -/
theorem FrameSound.clock_lt {f : Frame Step} {l k : Nat} (hw : (u ++ q :: y).Nodup)
    (hf : FrameSound p precision ((u ++ q :: y).take (l + 1)) f)
    (hc : (u ++ q :: y)[l]? = some c) (hcq : c.process ≠ q.process)
    (hqc : ¬HappensBefore (Step.Depends precision) (q :: y) q c)
    (hk : SortedMap.get? (SortedMap.getD f.clocks c.process ∅) q.process = some k) :
    k < u.length + 1 := by
  by_contra hle
  obtain ⟨a, hpos, ha, haq, hac⟩ := hf.leads hc hk
  have hleads : Leads precision (u ++ q :: y) q c :=
    (leads_of_process_eq (by omega) ha haq).trans hac
  rcases hleads.eq_or_happensBefore hw with rfl | ⟨-, hhb⟩
  · exact hcq rfl
  · exact hqc hhb

end Detection

/-- A step that can be required before the race of `e` with `q`, which `y` follows: it is not
redundant there, and it starts the run that reverses the race. -/
structure Reversal (p : Program) (precision : Precision) (x : Exploration Step Seeded)
    (origin : SearchTree.Node ProgramState Step) (q : Step) (y : List Step) (e g : Step) : Prop where
  canRun : p.CanRun origin.state g
  awake : (x.table.get origin.stateId).asleep.hasKey (Action.key g) = false
  starts : Starts (Step.Depends precision) g (reversingSteps precision q y e)

/-- The race of `e` with the step `q` on the stack, which comes after `u` and before `y`, can be seen
and reversed. -/
structure Visible (p : Program) (precision : Precision) (t : SearchTree ProgramState Step)
    (x : Exploration Step Seeded) (u : List Step) (q : Step) (y : List Step) (e : Step)
    (origin : SearchTree.Node ProgramState Step) : Prop where
  node : ∃ below, x.stack.frame? u.length = some below ∧ t.node? below.node = some origin
  race : Race p precision origin.state q y e
  reversal : ∃ g, Reversal p precision x origin q y e g

theorem Reversal.congr {x x' : Exploration Step Seeded} {origin : SearchTree.Node ProgramState Step}
    {y : List Step} {g : Step} (h : Reversal p precision x origin q y e g)
    (hasleep : ∀ s, (x'.table.get s).asleep = (x.table.get s).asleep) :
    Reversal p precision x' origin q y e g :=
  ⟨h.canRun, by rw [hasleep]; exact h.awake, h.starts⟩

theorem Visible.congr {x x' : Exploration Step Seeded} {origin : SearchTree.Node ProgramState Step}
    {u y : List Step} (h : Visible p precision t x u q y e origin) (hstack : x'.stack = x.stack)
    (hasleep : ∀ s, (x'.table.get s).asleep = (x.table.get s).asleep) :
    Visible p precision t x' u q y e origin := by
  obtain ⟨g, hg⟩ := h.reversal
  exact ⟨by rw [hstack]; exact h.node, h.race, g, hg.congr hasleep⟩

/-- What the scan of `e` has come to when it has looked at the frames above index `l`: the race of
`e` with the step `q` is still to be seen, or has been reversed. -/
structure Scanned (p : Program) (precision : Precision) (t : SearchTree ProgramState Step)
    (w : List Step) (e : Step) (x : Exploration Step Seeded) (l : Nat)
    (scan : Exploration.RaceScan) (x' : Exploration Step Seeded) : Prop where
  widens : Widens p t x x'
  sound : ScanSound precision w e scan
  ahead : ∀ u q y origin, w = u ++ q :: y → Visible p precision t x u q y e origin →
    u.length < l → scan.pending.hasKey q.process ∧
      ∀ k, SortedMap.get? scan.clock q.process = some k → k < u.length + 1
  reversed : ∀ u q y origin, w = u ++ q :: y → Visible p precision t x u q y e origin →
    l ≤ u.length → ∃ r, Reversal p precision x origin q y e r ∧
      (x'.table.get origin.stateId).backtrack.hasKey (Action.key r)

section Scan

variable {settings : Settings} {x x' : Exploration Step Seeded} {scan scan' : Exploration.RaceScan}
variable (hfollows : Follows t x.stack w)
include hfollows

/-- At the frame of the earlier step, the steps that may be required are those that reverse the
race. -/
theorem initial_iff {u y : List Step} {origin : SearchTree.Node ProgramState Step} {g : Step}
    (hw : w = u ++ q :: y) (hwidens : Widens p t x x') :
    Initial p precision t x' e (u.length + 1) q origin g ↔ Reversal p precision x origin q y e g := by
  have hchained : Exploration.chainedActions t x'.stack (u.length + 1 + 1) = y := by
    rw [hwidens.stack, hfollows.chainedActions, hw]
    simp
  constructor
  · rintro ⟨hrun, hawake, hstart⟩
    rw [hchained] at hstart
    rw [hwidens.asleep] at hawake
    exact ⟨hrun, hawake, hstart⟩
  · rintro ⟨hrun, hawake, hstart⟩
    refine ⟨hrun, ?_, ?_⟩
    · rwa [hwidens.asleep]
    · rwa [hchained]

/-- The scan sees a race that is visible when it gets to the earlier step. -/
theorem Visible.sighted {u y : List Step} {origin : SearchTree.Node ProgramState Step}
    (hvisible : Visible p precision t x u q y e origin) (hw : w = u ++ q :: y) :
    ∃ f below, Sighted precision t x.stack e (u.length + 1) f q below origin := by
  obtain ⟨below, hbelow, horigin⟩ := hvisible.node
  have hq : w[u.length]? = some q := by simp [hw]
  obtain ⟨below', f, hbelow', hf, hfq, hedge⟩ := hfollows.next _ q hq
  obtain rfl : below' = below := Option.some.inj (hbelow'.symm.trans hbelow)
  refine ⟨f, below', hf, hfq, hvisible.race.depends, ⟨below'.node, hedge.1, ?_⟩, horigin, hbelow'⟩
  rw [SearchTree.state_eq horigin]
  exact hvisible.race.reversible

variable (ht : t.Sound p)
include ht

/-- Between the two steps of a visible race, no step that is ordered after the earlier one is in a race
that can be reversed. -/
theorem Visible.not_happensBefore {u y : List Step}
    {origin origin' : SearchTree.Node ProgramState Step} {l : Nat} {f below : Frame Step} {g : Step}
    (hvisible : Visible p precision t x u q y e origin) (hw : w = u ++ q :: y) (hl : u.length < l)
    (hwidens : Widens p t x x') (hs : Sighted precision t x.stack e (l + 1) f c below origin')
    (hg : Initial p precision t x' e (l + 1) c origin' g) :
    c.process ≠ q.process ∧ ¬HappensBefore (Step.Depends precision) (q :: y) q c := by
  have hc : w[l]? = some c := (hfollows.action_of_frame hs.frame).symm.trans hs.action
  obtain ⟨y₁, y₂, rfl, hlength⟩ : ∃ y₁ y₂, y = y₁ ++ c :: y₂ ∧ l = u.length + 1 + y₁.length := by
    have hget : y[l - u.length - 1]? = some c := by
      rw [hw, List.getElem?_append_right (by omega), List.getElem?_cons] at hc
      rwa [if_neg (by omega)] at hc
    obtain ⟨hlt, hget⟩ := List.getElem?_eq_some_iff.1 hget
    refine ⟨y.take (l - u.length - 1), y.drop (l - u.length), ?_, by simp; omega⟩
    conv_lhs => rw [← List.take_append_drop (l - u.length - 1) y]
    rw [List.drop_eq_getElem_cons hlt, hget]
    congr 3
    omega
  have hsplit : w = (u ++ q :: y₁) ++ c :: y₂ := by simp [hw]
  have hlength' : (u ++ q :: y₁).length = l := by
    simp only [List.length_append, List.length_cons]
    omega
  obtain ⟨below₀, hbelow₀, horigin⟩ := hvisible.node
  have hstate : origin'.state = (origin.state.after q).afterAll y₁ := by
    have h₀ := hfollows.state_of_frame ht hbelow₀
    have h₁ := hfollows.state_of_frame ht hs.belowFrame
    rw [SearchTree.state_eq horigin, hw, List.take_left] at h₀
    rw [SearchTree.state_eq hs.atOrigin, hsplit, Nat.add_sub_cancel, List.take_left' hlength',
      ProgramState.afterAll_append, ← h₀] at h₁
    exact h₁
  -- the race that the scan sees is one that the visible race forbids
  suffices hqc : ¬HappensBefore (Step.Depends precision) (q :: (y₁ ++ c :: y₂)) q c by
    refine ⟨fun hcq => hqc (.single ⟨?_, Step.dependent_of_process_eq hcq.symm⟩), hqc⟩
    exact Precedes.cons_iff.2 (.inl ⟨rfl, by simp⟩)
  intro hqc
  have hreversible : Step.reversible ((origin.state.after q).afterAll y₁) c e := by
    obtain ⟨source, hsource, hreversible⟩ := hs.reversible
    obtain ⟨below', f', hbelow', hf', -, hedge⟩ := hfollows.next l c hc
    obtain rfl : f' = f := Option.some.inj (hf'.symm.trans hs.frame)
    obtain rfl : below' = below := Option.some.inj (hbelow'.symm.trans hs.belowFrame)
    obtain rfl : below'.node = source := Option.some.inj (hedge.1.symm.trans hsource)
    rwa [SearchTree.state_eq hs.atOrigin, hstate] at hreversible
  have hrun := hg.canRun
  have hstart := hg.starts
  rw [hstate] at hrun
  have hlater : w.drop (l + 1) = y₂ := by
    rw [hsplit, List.append_cons]
    exact List.drop_left' (by rw [List.length_append, hlength', List.length_singleton])
  rw [hwidens.stack, hfollows.chainedActions, hlater] at hstart
  exact hvisible.race.dead y₁ c y₂ rfl hqc hs.depends hreversible g hrun hstart

variable (hframes : ∀ j f, x.stack.frame? j = some f → FrameSound p precision (w.take j) f)
include hframes

theorem scanned_start {last : Frame Step} (hlast : x.stack.frame? w.length = some last) :
    Scanned p precision t w e x w.length (.start last e.process (w.length + 1)) x := by
  have hsound : FrameSound p precision w last := by simpa using hframes _ _ hlast
  refine ⟨.refl x, scanSound_start hsound, ?_, ?_⟩
  · rintro u q y origin rfl hvisible -
    have hne := hvisible.race.process_ne
    have hrace := hvisible.race
    obtain ⟨below, hbelow, horigin⟩ := hvisible.node
    have hstate := hfollows.state_of_frame ht hbelow
    rw [SearchTree.state_eq horigin, List.take_left] at hstate
    rw [hstate] at hrace
    constructor
    · exact hsound.pending_start (by simp) hne
    · intro k hk
      rw [Exploration.RaceScan.start, SortedMap.get?_put, if_neg hne] at hk
      exact hrace.clock_lt (hfollows.isRun ht).nodup (hsound.clock _) hk
  · rintro u q y origin rfl - hle
    simp only [List.length_append, List.length_cons] at hle
    omega

/-- One frame of the scan. -/
theorem Scanned.step {l : Nat} {x₁ x₂ : Exploration Step Seeded}
    (hl : l < w.length) (h : Scanned p precision t w e x (l + 1) scan x₁)
    (hstep : ScanStep p precision t e (w.length + 1) (l + 1) scan scan' x₁ x₂) :
    Scanned p precision t w e x l scan' x₂ := by
  have haction : ∀ f c, x₁.stack.frame? (l + 1) = some f → f.action = some c → w[l]? = some c := by
    intro f c hf hc
    rw [h.widens.stack] at hf
    exact (hfollows.action_of_frame hf).symm.trans hc
  refine ⟨h.widens.trans hstep.widens, ?_, ?_, ?_⟩
  · rcases hstep.result with rfl | ⟨f, c, -, -, -, rfl⟩ | ⟨f, c, below, origin, g, hs, -, rfl⟩
    · exact h.sound
    · exact h.sound
    · have hf := hframes _ f (h.widens.stack ▸ hs.frame)
      exact h.sound.order hf (haction f c hs.frame hs.action) hs.depends
  · intro u q y origin hw hvisible hul
    obtain ⟨hpending, hclock⟩ := h.ahead u q y origin hw hvisible (by omega)
    rcases hstep.result with rfl | ⟨f, c, hf, hc, hordered, rfl⟩ |
      ⟨f, c, below, origin', g, hs, hg, rfl⟩
    · exact ⟨hpending, hclock⟩
    · -- the clock has not reached `q` yet, so the thread left out is another one
      have hcq : c.process ≠ q.process := by
        intro hcq
        obtain ⟨k, hk, hle⟩ := Exploration.RaceScan.isOrdered_iff.1 hordered
        have := hclock k (hcq ▸ hk)
        omega
      exact ⟨Keyed.hasKey_erase.2 ⟨hpending, hcq.symm⟩, hclock⟩
    · -- what is known at the earlier step of a race does not lead from `q` either
      have hc := haction f c hs.frame hs.action
      obtain ⟨hcq, hqc⟩ :=
        hvisible.not_happensBefore hfollows ht hw hul h.widens (h.widens.stack ▸ hs) hg
      refine ⟨Keyed.hasKey_erase.2 ⟨hpending, hcq.symm⟩, fun k hk => ?_⟩
      rcases Clock.get?_join hk with hk | hk
      · rw [SortedMap.get?_put, if_neg (Ne.symm hcq)] at hk
        exact hclock k hk
      · have hf := hframes _ f (h.widens.stack ▸ hs.frame)
        subst hw
        exact hf.clock_lt (hfollows.isRun ht).nodup hc hcq hqc hk
  · intro u q y origin hw hvisible hle
    by_cases hlt : l + 1 ≤ u.length
    · obtain ⟨r, hr, hkey⟩ := h.reversed u q y origin hw hvisible hlt
      exact ⟨r, hr, hstep.widens.hasKey_backtrack hkey⟩
    · -- the scan has come to `q`, which is still looked for and not ordered
      obtain rfl : l = u.length := by omega
      obtain ⟨hpending, hclock⟩ := h.ahead u q y origin hw hvisible (by omega)
      obtain ⟨f, below, hs⟩ := hvisible.sighted hfollows hw
      obtain ⟨g, hg⟩ := hvisible.reversal
      have hunordered : scan.isOrdered q.process (u.length + 1) = false := by
        refine Bool.eq_false_iff.2 fun hordered => ?_
        obtain ⟨k, hk, hle⟩ := Exploration.RaceScan.isOrdered_iff.1 hordered
        have := hclock k hk
        omega
      obtain ⟨r, hr, hkey⟩ := hstep.hit f q below origin g (h.widens.stack.symm ▸ hs) hpending
        hunordered ((initial_iff hfollows hw h.widens).2 hg) (by omega)
      exact ⟨r, (initial_iff hfollows hw h.widens).1 hr, hkey⟩

/-- The scan of a new step sees every race that is visible, and reverses it. -/
theorem Ends.scanned {last : Frame Step} (he : p.HasStep e)
    (hlast : x.stack.frame? w.length = some last) :
    Yields (Exploration.scanBelow (p.context precision t settings) x.stack e (w.length + 1) w.length
      (.start last e.process (w.length + 1))) x fun scan x' =>
        Scanned p precision t w e x 0 scan x' := by
  refine (Ends.scanBelow (J := Scanned p precision t w e x) (hfollows.isGenuine ht) he rfl
    (scanned_start hfollows ht hframes hlast) ?_).imp fun scan x' hx' => hx'.2
  intro l scan scan' x₁ x₂ hl _ h hstep
  exact h.step hfollows ht hframes hl hstep

end Scan

end Interleaving
