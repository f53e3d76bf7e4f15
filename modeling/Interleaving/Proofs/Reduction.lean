import Mathlib.Data.Nat.Find
import Interleaving.Proofs.Detours

/-!
# Reduced trees

A reduced tree performs only some of the steps that can run at a node. It has to obey three rules:

* where something can run that is not redundant, something is taken, and nothing redundant is
  (`exists_taken`, `awake`);
* a step is redundant below a node only if it is independent of the step taken there, and was
  redundant before or taken earlier (`inherited`);
* a race that can be seen on a path is reversed: if something that is not redundant starts the run
  without the earlier step, and is a cause of the later one, then some step that starts this run is taken
  at the node before the race (`reversed`).

Then every run without a redundant start is, with some steps added to its end, a reordering of a path of
the tree (`ReducedTree.exists_walk`), if the tree makes detours (`ReducedTree.MakesDetours`). The proof
looks at the taken step that can stay behind longest, makes it and then a detour, which is covered by
induction, and finds that reversing the first race on it takes a step that can stay behind even longer.

In a disciplined program there is always a detour: the thread of the step runs alone until it has
released. In other programs that may be impossible, as the thread may have to wait for a lock itself. If
every thread can release where a path ends, there is a detour along a path of the tree
(`ReducedTree.makesDetours_of_ends`); here redundant steps have to stay redundant, so that none starts
that path.
-/

namespace Interleaving

/-! ## Races that can be seen -/

/-- The steps of `y` that do not depend on `q`, and then `e`: the run that reverses the race between
`q` and `e`. -/
def reversingSteps (precision : Precision) (q : Step) (y : List Step) (e : Step) : List Step :=
  y.filter (fun b => !Step.dependent precision q b) ++ [e]

variable {precision : Precision} {q e c : Step} {y : List Step}

/-- The step `f` is `e`, or happens before it when `e` follows the steps of `y`. -/
def IsCause (precision : Precision) (y : List Step) (e f : Step) : Prop :=
  f = e ∨ HappensBefore (Step.Depends precision) (y ++ [e]) f e

theorem IsCause.mem {f : Step} (h : IsCause precision y e f) : f ∈ y ++ [e] := by
  rcases h with rfl | h
  · simp
  · obtain ⟨c, hc, -⟩ := Relation.TransGen.head'_iff.1 h
    exact hc.1.mem_left

/-- What a cause depends on, and stands before it, is a cause too. -/
theorem IsCause.of_precedes {f g : Step} (h : IsCause precision y e f) (hg : Precedes (y ++ [e]) g f)
    (hfg : Step.Depends precision f g) : IsCause precision y e g := by
  rcases h with rfl | h
  · exact .inr (.single ⟨hg, hfg.symm⟩)
  · exact .inr (.head ⟨hg, hfg.symm⟩ h)

theorem mem_reversingSteps_iff :
    c ∈ reversingSteps precision q y e ↔ c ∈ y ∧ ¬Step.Depends precision q c ∨ c = e := by
  simp [reversingSteps]

theorem reversingSteps_sublist : (reversingSteps precision q y e).Sublist (y ++ [e]) :=
  List.filter_sublist.append (.refl _)

/-- A list up to a step is a part of the list with more steps before it and after it. -/
theorem sublist_upTo (x y z : List Step) (e : Step) : (x ++ [e]).Sublist (x ++ (y ++ e :: z)) :=
  .append (.refl x) (.trans (by simp) (List.sublist_append_right y _))

/-- After `q` from `s` and then `y`, the step `e` races with `q`, and nothing between hides that. -/
structure Race (p : Program) (precision : Precision) (s : ProgramState) (q : Step) (y : List Step)
    (e : Step) : Prop where
  depends : Step.Depends precision q e
  reversible : Step.reversible s q e
  /-- Neither `q` nor what is ordered after it belongs to the thread of `e`. -/
  apart : ∀ b, b = q ∨ b ∈ y ∧ HappensBefore (Step.Depends precision) (q :: y) q b →
    b.process ≠ e.process
  /-- Where one of them spawns the thread of `e`, it is active already. -/
  active : ∀ y₁ b y₂, q :: y = y₁ ++ b :: y₂ →
    b = q ∨ b ∈ y ∧ HappensBefore (Step.Depends precision) (q :: y) q b → b.spawns e →
    (s.afterAll y₁).active.hasKey e.process
  /-- No race of `e` with a step that is ordered after `q` could be reversed. -/
  dead : ∀ y₁ c y₂, y = y₁ ++ c :: y₂ → HappensBefore (Step.Depends precision) (q :: y) q c →
    Step.Depends precision c e → Step.reversible ((s.after q).afterAll y₁) c e →
    ∀ g, p.CanRun ((s.after q).afterAll y₁) g →
      ¬Starts (Step.Depends precision) g (reversingSteps precision c y₂ e)

theorem Race.process_ne {p : Program} {s : ProgramState} (h : Race p precision s q y e) :
    q.process ≠ e.process := h.apart q (.inl rfl)

namespace Program.Detour

variable {p : Program} {s : ProgramState} {u v body z z' : List Step} {b : Step}
variable (hD : p.Detour s q u v body e)
  (hr : Reorders (Step.Depends none) (v ++ (body ++ e :: z)) (y ++ e :: z'))
  (hnodup : (q :: (v ++ (body ++ e :: z))).Nodup)
include hr hnodup

/-- A step before `e` in a reordering, that `e` depends on, is one of `v` or of the way. -/
theorem mem_of_depends (hc : c ∈ y) (hce : Step.Depends none c e) : c ∈ v ∨ c ∈ body := by
  have hnodupW := (List.nodup_cons.1 hnodup).2
  rw [← List.append_assoc] at hr hnodupW
  exact List.mem_append.1 ((hr.mem_of_split hnodupW hce hce.symm).2 hc)

include hD

/-- In a reordering, no step of `v` is ordered after `q`. -/
theorem not_happensBefore (hb : b ∈ v) :
    ¬HappensBefore (Step.Depends none) (q :: y) q b := by
  intro hhb
  have hnodupW := (List.nodup_cons.1 hnodup).2
  have hqy : q ∉ y := fun h => (List.nodup_cons.1 hnodup).1 (hr.mem_iff.2 (by simp [h]))
  -- a chain from `q` to `b` would lie within `v`, which does not depend on `q`
  have hstep : ∀ c d, c ∈ y → d ∈ v → Precedes (q :: y) c d → Step.Depends none c d → c ∈ v := by
    intro c d hc hd hcd hdep
    have hcd' : Precedes y c d := by
      rcases Precedes.cons_iff.1 hcd with ⟨rfl, -⟩ | h
      · exact absurd hc hqy
      · exact h
    have hbefore := (hr.precedes_iff hnodupW hdep hdep.symm).2
      (hcd'.of_sublist (List.sublist_append_left y _))
    exact hbefore.mem_of_mem_left hnodupW hd
  have hchain : ∀ c, Relation.ReflTransGen
      (fun a b => Precedes (q :: y) a b ∧ Step.Depends none a b) c b → c ∈ y → c ∈ v := by
    intro c hc
    induction hc using Relation.ReflTransGen.head_induction_on with
    | refl => exact fun _ => hb
    | head hab _ ih =>
      intro hmem
      refine hstep _ _ hmem (ih ?_) hab.1 hab.2
      rcases Precedes.cons_iff.1 hab.1 with ⟨-, h⟩ | h
      · exact h
      · exact h.mem_right
  obtain ⟨c, hqc, hcb⟩ := Relation.TransGen.head'_iff.1 hhb
  have hcy : c ∈ y := by
    rcases Precedes.cons_iff.1 hqc.1 with ⟨-, h⟩ | h
    · exact h
    · exact absurd h.mem_left hqy
  exact hD.independent c (hchain c hcb hcy) hqc.2

/-- Where a step that matters to `e` is made in a reordering, the thread of `q` still blocks `e`. -/
theorem blocks_of_reorders {y₁ y₂ : List Step} (hs : p.Coherent s) (hq : p.CanRun s q)
    (hrun : p.IsRun (s.after q) y) (hy : y = y₁ ++ c :: y₂) (hc : c ∈ body)
    (hce : Step.Depends none c e) : Blocks ((s.after q).afterAll y₁) q.process e := by
  obtain ⟨x, x', hsplit⟩ := List.append_of_mem hc
  have hnodupW := (List.nodup_cons.1 hnodup).2
  have hnodup' := hr.nodup hnodupW
  subst hy
  obtain ⟨hrun₁, hrunc, -⟩ := isRun_append.1 hrun
  have hrunx := hD.isRun
  rw [hsplit, List.append_assoc, ← List.append_assoc] at hrunx
  obtain ⟨hrunx, hrunc', -⟩ := isRun_append.1 hrunx
  refine ((hs.after hq).afterAll hrunx).blocks_congr ((hs.after hq).afterAll hrun₁) ?_
    (hD.blocks x c x' hsplit)
  rcases hD.own_or_boundary c hc hce with hown | hboundary
  · -- the thread of `q` is about to make the same step
    rw [← hown, hrunc.counter, hrunc'.counter]
  · -- what stands before the step is the same in both runs
    refine getElem?_pcs_afterAll_of_perm ((List.perm_ext_iff_of_nodup ?_ ?_).2 fun b => ?_) _
    · exact hrun₁.nodup
    · exact hrunx.nodup
    have hdep : Step.Depends none b c := by simp [Step.Depends, Step.dependent, hboundary]
    have hsplitW : v ++ (body ++ e :: z) = (v ++ x) ++ c :: (x' ++ e :: z) := by simp [hsplit]
    have hsplitY : (y₁ ++ c :: y₂) ++ e :: z' = y₁ ++ c :: (y₂ ++ e :: z') := by simp
    rw [hsplitW] at hr hnodupW
    rw [hsplitY] at hr
    exact (hr.mem_of_split hnodupW hdep hdep.symm).symm

/-- What is ordered after `q` in a reordering, and matters to `e`, is a step of the way. -/
theorem mem_body (hb : b ∈ y) (hqb : HappensBefore (Step.Depends none) (q :: y) q b)
    (hbe : Step.Depends none b e) : b ∈ body :=
  (mem_of_depends hr hnodup hb hbe).resolve_left fun hv => hD.not_happensBefore hr hnodup hv hqb

/-- Where `q` or a step of the way spawns the thread of `e`, in whatever order, it is active already. -/
theorem active_of_reorders {y₁ y₂ : List Step} (hy : q :: y = y₁ ++ b :: y₂)
    (hb : b = q ∨ b ∈ body) (hbe : b.spawns e) : (s.afterAll y₁).active.hasKey e.process := by
  rcases hD.spawned b hb hbe with hactive | ⟨a, ha, hae, hprocess⟩
  · exact Program.hasKey_active_afterAll.2 (.inl hactive)
  -- the step that spawns the thread in `v` is one of the same thread, so it stays before
  have hab : Step.Depends none a b := Step.dependent_of_process_eq hprocess
  have hbody : b ∈ body := hb.resolve_left fun hbq => hD.independent a ha (hbq ▸ hab.symm)
  have hbefore : Precedes (q :: (y ++ e :: z')) a b := by
    refine Precedes.cons_iff.2 (.inr (hr.keeps a b hab (Precedes.append_iff.2 (.inr (.inr ?_)))))
    exact ⟨ha, by simp [hbody]⟩
  have hnodup' := (hr.perm.cons q).nodup_iff.1 hnodup
  rw [← List.cons_append, hy, List.append_assoc, List.cons_append] at hbefore hnodup'
  have hmem := (Precedes.split_left_iff hnodup').1 hbefore
  exact Program.hasKey_active_afterAll.2 (.inr ⟨a, hmem, beq_iff_eq.1 hae⟩)

/-- On a reordering of the run with the detour, the race of `q` with `e` can be seen. -/
theorem race (hs : p.Coherent s) (hq : p.CanRun s q) (hrun : p.IsRun (s.after q) y) :
    Race p none s q y e := by
  refine ⟨hD.depends, hD.reversible, ?_, fun y₁ b y₂ hy hb hbe => ?_,
    fun y₁ c y₂ hy hqc hce hreversible g hg hstart => ?_⟩
  · rintro b (rfl | ⟨hb, hqb⟩) hprocess
    · exact hD.process_ne hprocess.symm
    · have hbe : Step.Depends none b e := Step.dependent_of_process_eq hprocess
      exact hD.own_process b (hD.mem_body hr hnodup hb hqb hbe) hprocess
  · refine hD.active_of_reorders hr hnodup hy (hb.imp_right fun ⟨hb, hqb⟩ => ?_) hbe
    exact hD.mem_body hr hnodup hb hqb (by simp [Step.Depends, Step.dependent, hbe])
  · have hc : c ∈ body := hD.mem_body hr hnodup (by simp [hy]) hqc hce
    have hblocks := hD.blocks_of_reorders hr hnodup hs hq hrun hy hc hce
    -- a step of another thread than `q`'s would have to be `e`, which is blocked
    have hge : c.process ≠ q.process → g = e := by
      intro hne
      have hboundary := (hD.own_or_boundary c hc hce).resolve_left hne
      refine (mem_reversingSteps_iff.1 hstart.mem).resolve_left fun hg => hg.2 ?_
      simp [Step.Depends, Step.dependent, hboundary]
    by_cases hown : c.process = q.process
    · obtain ⟨l, hl, rfl | hneeded⟩ := hblocks
      · -- only the thread of `c` can run
        have hgc : g.process = c.process := by rw [hown]; exact (hg.free _ hl).symm
        rcases mem_reversingSteps_iff.1 hstart.mem with ⟨-, hcg⟩ | rfl
        · exact hcg (Step.dependent_of_process_eq hgc.symm)
        · exact hD.process_ne (hgc.trans hown)
      · simp [Step.reversible, hneeded, hl, hown] at hreversible
    · rw [hge hown] at hg
      exact hblocks.not_canRun hD.process_ne hg

omit hr hnodup in
/-- What comes up to `e` both in the run and in the reordering takes part in the run that reverses the
race of `q` with `e`. -/
theorem mem_reversingSteps (hv : b ∈ v ++ [e]) (hy : b ∈ y ++ [e]) : b ∈ reversingSteps none q y e := by
  rw [mem_reversingSteps_iff]
  rcases List.mem_append.1 hy with hy | he
  · rcases List.mem_append.1 hv with hv | he
    · exact .inl ⟨hy, hD.independent b hv⟩
    · exact .inr (List.mem_singleton.1 he)
  · exact .inr (List.mem_singleton.1 he)

/-- Some cause of `e` starts the run, and also the run that reverses the race of `q` with `e`. -/
theorem exists_start : ∃ f, Starts (Step.Depends none) f u ∧ IsCause none y e f ∧
    Starts (Step.Depends none) f (reversingSteps none q y e) := by
  have hnodupW := (List.nodup_cons.1 hnodup).2
  have hnodup' := hr.nodup hnodupW
  have hve := sublist_upTo v body z e
  have hye : (y ++ [e]).Sublist (y ++ e :: z') := sublist_upTo y [] z' e
  -- the first step of `u` that is a cause of `e` where that is made
  obtain ⟨x, f, x', hsplit, hcause, hx⟩ : ∃ x f x', v ++ [e] = x ++ f :: x' ∧ IsCause none y e f ∧
      ∀ c ∈ x, ¬IsCause none y e c := exists_first ⟨e, by simp, .inl rfl⟩
  have hf := hcause.mem
  have hfv : f ∈ v ++ [e] := by simp [hsplit]
  -- a step that `f` depends on keeps its place before `f`
  have hkeep : ∀ c, Step.Depends none f c → Precedes (v ++ (body ++ e :: z)) c f →
      IsCause none y e c := by
    intro c hfc hc
    have hc' := hr.keeps c f hfc.symm hc
    rw [List.append_cons] at hc' hnodup'
    refine hcause.of_precedes (hc'.of_precedes_of_sublist hnodup' (List.sublist_append_left _ _) ?_ hf) hfc
    exact hc'.mem_of_mem_left hnodup' hf
  refine ⟨f, ?_, hcause, ?_⟩
  · obtain ⟨rest, rfl⟩ := hD.split
    refine ⟨x, x' ++ rest, ?_, fun c hc hfc => hx c hc (hkeep c hfc ?_)⟩
    · rw [List.append_cons, hsplit]
      simp
    · have hcf : Precedes (v ++ [e]) c f := by
        rw [hsplit, Precedes.append_iff]
        exact .inr (.inr ⟨hc, by simp⟩)
      exact hcf.of_sublist hve
  · have hsub : (reversingSteps none q y e).Sublist (y ++ e :: z') := reversingSteps_sublist.trans hye
    refine (Starts.iff_of_nodup (hnodup'.sublist hsub)).2
      ⟨hD.mem_reversingSteps hfv hf, fun g hg hfg => ?_⟩
    -- such a step would stand before `f` in `v`, and not be moved behind `e`
    have hgW := (hr.precedes_iff hnodupW hfg.symm hfg).2 (hg.of_sublist hsub)
    have hgv : g ∈ v ++ [e] := by
      rcases mem_reversingSteps_iff.1 hg.mem_left with ⟨hgy, hqg⟩ | rfl
      · rcases List.mem_append.1 hfv with hfv | hfe
        · exact List.mem_append_left _ (hgW.mem_of_mem_left hnodupW hfv)
        · obtain rfl : f = e := by simpa using hfe
          rcases mem_of_depends hr hnodup hgy hfg.symm with h | h
          · simp [h]
          · exact absurd (hD.depends_of_mem h hfg.symm) hqg
      · simp
    have hgf := hgW.of_precedes_of_sublist hnodupW hve hgv hfv
    have hnodupv := hnodupW.sublist hve
    rw [hsplit] at hgf hnodupv
    have hgx := (Precedes.split_left_iff hnodupv).1 hgf
    exact hx g hgx (hcause.of_precedes (hg.of_sublist reversingSteps_sublist) hfg)

/-- A step that starts the run reversing the race of `q` can stay behind longer than `q`: the first
step of `u` that depends on it, if there is one, comes after `v` and `e`. -/
theorem length_lt {r e' : Step} {v' : List Step} (hmeets : Meets (Step.Depends none) r u v' e')
    (hstart : Starts (Step.Depends none) r (reversingSteps none q y e)) : v.length < v'.length := by
  have hnodupW := (List.nodup_cons.1 hnodup).2
  have hnodup' := hr.nodup hnodupW
  have hye : (y ++ [e]).Sublist (y ++ e :: z') := sublist_upTo y [] z' e
  have hsub : (reversingSteps none q y e).Sublist (y ++ e :: z') := reversingSteps_sublist.trans hye
  have hrye := reversingSteps_sublist.subset hstart.mem
  by_contra hle
  obtain ⟨rest, hsplit⟩ := hD.split
  obtain ⟨⟨u', hsplit'⟩, hindependent, hre, hne⟩ := hmeets
  -- `e'` is one of `v` or `e` itself, and what stands before it is independent of `r`
  have hprefix : v ++ [e] <+: u := ⟨rest, by simp [hsplit]⟩
  have hprefix' : v' ++ [e'] <+: u := ⟨u', by simp [hsplit']⟩
  obtain ⟨x, hx⟩ : v' ++ [e'] <+: v ++ [e] := by
    refine List.prefix_of_prefix_length_le hprefix' hprefix ?_
    simp only [List.length_append, List.length_singleton]
    omega
  rw [← List.append_cons] at hx
  have hev : e' ∈ v ++ [e] := by simp [← hx]
  have hve := sublist_upTo v body z e
  rcases Precedes.total (hve.subset hev) (hr.mem_iff.2 (hye.subset hrye)) hne with h | h
  · -- then `e'` stands before `r` in the reversing run, which `r` cannot start
    have hW := hr.keeps e' r hre.symm h
    have hmem : e' ∈ reversingSteps none q y e := by
      refine hD.mem_reversingSteps hev ?_
      rw [List.append_cons] at hW hnodup'
      exact hW.mem_of_mem_left hnodup' hrye
    have hfirst := hW.of_precedes_of_sublist hnodup' hsub hmem hstart.mem
    exact ((Starts.iff_of_nodup (hnodup'.sublist hsub)).1 hstart).2 e' hfirst hre
  · have hrv : r ∉ v := by
      intro hrv
      have hbefore := h.of_precedes_of_sublist hnodupW hve (by simp [hrv]) hev
      have hnodupv := hnodupW.sublist hve
      rw [← hx] at hbefore hnodupv
      exact hindependent r ((Precedes.split_left_iff hnodupv).1 hbefore) Step.dependent_self
    -- so `e'` is `e`, and `r` would be one of the steps on the way, which depend on `q`
    rcases List.mem_append.1 hev with hv | he
    · exact hrv (h.mem_of_mem_left hnodupW hv)
    · obtain rfl : e' = e := by simpa using he
      rw [← List.append_assoc] at h hnodupW
      have hrbody := (List.mem_append.1 ((Precedes.split_left_iff hnodupW).1 h)).resolve_left hrv
      rcases mem_reversingSteps_iff.1 hstart.mem with ⟨-, hqr⟩ | rfl
      · exact hqr (hD.depends_of_mem hrbody hre)
      · exact hne rfl

end Program.Detour

/-! ## Reduced trees -/

/-- A path of a tree. -/
inductive Walk {ν : Type} (edge : ν → Step → ν → Prop) : ν → List Step → ν → Prop
  | nil (n : ν) : Walk edge n [] n
  | cons {n c m : ν} {a : Step} {w : List Step} :
    edge n a c → Walk edge c w m → Walk edge n (a :: w) m

/-- A tree that performs, at each node, some of the steps that can run there. -/
structure ReducedTree (p : Program) (ν : Type) where
  state : ν → ProgramState
  edge : ν → Step → ν → Prop
  /-- The steps that would explore nothing new below a node. -/
  asleep : ν → Step → Prop
  /-- The steps taken at a node, in this order. -/
  taken : ν → List Step
  coherent : ∀ n, p.Coherent (state n)
  canRun : ∀ n a c, edge n a c → p.CanRun (state n) a
  state_eq : ∀ n a c, edge n a c → state c = (state n).after a
  mem_taken : ∀ n a c, edge n a c → a ∈ taken n
  exists_edge : ∀ n, ∀ a ∈ taken n, ∃ c, edge n a c
  exists_taken : ∀ n a, p.CanRun (state n) a → ¬asleep n a → taken n ≠ []
  awake : ∀ n, ∀ a ∈ taken n, ¬asleep n a
  inherited : ∀ n l₁ a l₂ c b, taken n = l₁ ++ a :: l₂ → edge n a c → asleep c b →
    ¬Step.Depends none b a ∧ (asleep n b ∨ b ∈ l₁)
  reversed : ∀ n q y e m, Walk edge n (q :: (y ++ [e])) m → Race p none (state n) q y e →
    (∃ f, p.CanRun (state n) f ∧ ¬asleep n f ∧ IsCause none y e f ∧
      Starts (Step.Depends none) f (reversingSteps none q y e)) →
    ∃ r ∈ taken n, Starts (Step.Depends none) r (reversingSteps none q y e)

namespace Walk

variable {ν : Type} {edge : ν → Step → ν → Prop} {n m : ν} {a : Step} {x y : List Step}

/-- A path goes through the ends of its beginnings. -/
theorem append_iff : Walk edge n (x ++ y) m ↔ ∃ c, Walk edge n x c ∧ Walk edge c y m := by
  induction x generalizing n with
  | nil =>
    constructor
    · exact fun h => ⟨n, .nil n, h⟩
    · rintro ⟨c, h, hy⟩
      cases h
      exact hy
  | cons a x ih =>
    constructor
    · intro h
      cases h with
      | cons hedge h =>
        obtain ⟨c, hx, hy⟩ := ih.1 h
        exact ⟨c, .cons hedge hx, hy⟩
    · rintro ⟨c, h, hy⟩
      cases h with
      | cons hedge h => exact .cons hedge (ih.2 ⟨c, h, hy⟩)

theorem snoc_iff : Walk edge n (x ++ [a]) m ↔ ∃ c, Walk edge n x c ∧ edge c a m := by
  rw [append_iff]
  refine exists_congr fun c => and_congr_right fun _ => ⟨fun h => ?_, fun h => .cons h (.nil m)⟩
  cases h with
  | cons hedge hnil =>
    cases hnil
    exact hedge

/-- Where `P` goes back along the edges from the end of a path, it holds of all its nodes, and the path is one
along the edges that are left then. -/
theorem retrace {E : ν → Step → ν → Prop} {P : ν → Prop} (h : Walk edge n x m) (hm : P m)
    (hback : ∀ n a c, edge n a c → P c → E n a c ∧ P n) : Walk E n x m ∧ P n := by
  induction h with
  | nil => exact ⟨.nil _, hm⟩
  | cons hedge _ ih =>
    obtain ⟨hwalk, hc⟩ := ih hm
    obtain ⟨hedge', hn⟩ := hback _ _ _ hedge hc
    exact ⟨.cons hedge' hwalk, hn⟩

theorem map {μ : Type} {E : μ → Step → μ → Prop} {f : ν → μ} (h : Walk edge n x m)
    (hf : ∀ n a c, edge n a c → E (f n) a (f c)) : Walk E (f n) x (f m) := by
  induction h with
  | nil => exact .nil _
  | cons hedge _ ih => exact .cons (hf _ _ _ hedge) ih

/-- If each edge is a step of a program, a path is a run. -/
theorem isRun {p : Program} {state : ν → ProgramState}
    (hrun : ∀ n a c, edge n a c → p.CanRun (state n) a)
    (hstate : ∀ n a c, edge n a c → state c = (state n).after a) (h : Walk edge n x m) :
    p.IsRun (state n) x ∧ state m = (state n).afterAll x := by
  induction h with
  | nil => exact ⟨trivial, rfl⟩
  | cons hedge _ ih =>
    rw [hstate _ _ _ hedge] at ih
    exact ⟨⟨hrun _ _ _ hedge, ih.1⟩, ih.2⟩

/-- A path with a step ends with an edge. -/
theorem exists_last {c : ν} (hc : edge n a c) (hx : Walk edge c x m) : ∃ j b, edge j b m := by
  induction hx generalizing n a with
  | nil => exact ⟨n, a, hc⟩
  | cons hedge _ ih => exact ih hedge

end Walk

namespace ReducedTree

open Program (isRun_append exists_detour exists_detour_alone)

variable {p : Program} {ν : Type} (T : ReducedTree p ν) {n m : ν} {a b : Step} {u w : List Step}

/-! ### Paths -/

/-- Runs from a child are shorter. -/
theorem bound_child {N : Nat} {c : ν} (hN : ∀ w, p.IsRun (T.state n) w → w.length < N + 1)
    (hedge : T.edge n a c) : ∀ w, p.IsRun (T.state c) w → w.length < N := by
  intro w hw
  rw [T.state_eq n a c hedge] at hw
  have := hN (a :: w) ⟨T.canRun n a c hedge, hw⟩
  rw [List.length_cons] at this
  omega

/-- Each path leads on to an end. -/
theorem exists_end (n : ν) : ∃ w m, Walk T.edge n w m ∧ T.taken m = [] := by
  obtain ⟨N, hN⟩ : ∃ N, ∀ w, p.IsRun (T.state n) w → w.length < N :=
    ⟨p.instrCount + 1, fun w hw => Nat.lt_succ_of_le hw.length_le⟩
  induction N generalizing n with
  | zero => exact absurd (hN [] trivial) (Nat.not_lt_zero _)
  | succ N ih =>
    by_cases htaken : T.taken n = []
    · exact ⟨[], n, .nil n, htaken⟩
    · obtain ⟨a, ha⟩ := List.exists_mem_of_ne_nil _ htaken
      obtain ⟨c, hedge⟩ := T.exists_edge n a ha
      obtain ⟨w, m, hwalk, hm⟩ := ih c (T.bound_child hN hedge)
      exact ⟨a :: w, m, .cons hedge hwalk, hm⟩

/-! ### What nothing redundant starts -/

/-- Whether nothing redundant at a node starts a run. -/
def IsAwake (n : ν) (w : List Step) : Prop := ∀ b, T.asleep n b → ¬Starts (Step.Depends none) b w

/-- What is redundant at a node stays redundant below it, as long as no step depends on it. -/
def KeepsAsleep : Prop := ∀ n a c b, T.edge n a c → T.asleep n b → ¬Step.Depends none b a → T.asleep c b

/-- Then nothing redundant starts a path of the tree. -/
theorem isAwake_of_walk (hkeeps : T.KeepsAsleep) (h : Walk T.edge n w m) : T.IsAwake n w := by
  induction h with
  | nil => exact fun b _ hstart => Starts.not_nil hstart
  | cons hedge _ ih =>
    intro b hb hstart
    rcases Starts.cons_iff.1 hstart with rfl | ⟨hba, hstart⟩
    · exact T.awake _ b (T.mem_taken _ _ _ hedge) hb
    · exact ih b (hkeeps _ _ _ b hedge hb hba) hstart

/-- What is redundant at a child is independent of the step taken, and does not start the beginning of
a run that no redundant and no taken step starts. -/
theorem not_starts_of_asleep_child {c : ν} (hawake : T.IsAwake n (u ++ w))
    (hstart : ∀ a ∈ T.taken n, ¬Starts (Step.Depends none) a (u ++ w)) (hedge : T.edge n a c)
    (hb : T.asleep c b) : ¬Step.Depends none b a ∧ ¬Starts (Step.Depends none) b u := by
  obtain ⟨l₁, l₂, hsplit⟩ := List.append_of_mem (T.mem_taken n a c hedge)
  obtain ⟨hba, hasleep⟩ := T.inherited n l₁ a l₂ c b hsplit hedge hb
  refine ⟨hba, fun hbu => ?_⟩
  rcases hasleep with hasleep | hmem
  · exact hawake b hasleep hbu.append
  · exact hstart b (by simp [hsplit, hmem]) hbu.append

/-! ### Following a run -/

/-- The statement proved by induction: with some steps added to its end, the run `u` is a reordering
of a path. -/
def IsCovered (n : ν) (u : List Step) : Prop :=
  ∃ z w m, Reorders (Step.Depends none) (u ++ z) w ∧ Walk T.edge n w m

/-- If one of the steps taken can come first in the run, the first one that can leads on. -/
theorem isCovered_of_front (hu : p.IsRun (T.state n) u) (hawake : T.IsAwake n u)
    (hchild : ∀ a c, T.edge n a c → ∀ u, p.IsRun (T.state c) u → T.IsAwake c u → T.IsCovered c u)
    (hfront : ∃ a ∈ T.taken n,
      Starts (Step.Depends none) a u ∨ ∀ c ∈ u, ¬Step.Depends none a c) : T.IsCovered n u := by
  obtain ⟨l₁, a, l₂, htaken, ha, hl₁⟩ := exists_first hfront
  obtain ⟨c, hedge⟩ := T.exists_edge n a (by simp [htaken])
  have hrun := T.canRun n a c hedge
  obtain ⟨x, u', hx, hr, hu'⟩ := hu.exists_front hrun ha
  rw [← T.state_eq n a c hedge] at hu'
  have hawake' : T.IsAwake c u' := by
    intro b hb hstart
    obtain ⟨hba, hasleep⟩ := T.inherited n l₁ a l₂ c b htaken hedge hb
    -- then it starts the run itself
    have hstart : Starts (Step.Depends none) b (a :: u') := Starts.cons_iff.2 (.inr ⟨hba, hstart⟩)
    have hnodup : (a :: u').Nodup := by
      have hrun' : p.IsRun (T.state n) (a :: u') := ⟨hrun, T.state_eq n a c hedge ▸ hu'⟩
      exact hrun'.nodup
    have hback := hr.symm (hr.perm.nodup_iff.2 hnodup) fun _ _ => Step.Depends.symm
    have hbu : Starts (Step.Depends none) b u := by
      refine (hstart.of_reorders hnodup (fun _ _ => Step.Depends.symm) hback).of_append.resolve_right ?_
      intro hbx
      exact hba (hx b hbx ▸ Step.dependent_self)
    rcases hasleep with hasleep | hmem
    · exact hawake b hasleep hbu
    · exact hl₁ b hmem (.inl hbu)
  obtain ⟨z, w, m, hr', hwalk⟩ := hchild a c hedge u' hu' hawake'
  refine ⟨x ++ z, a :: w, m, ?_, .cons hedge hwalk⟩
  rw [← List.append_assoc]
  exact (hr.append_right z).trans hr'.cons

/-- If no step taken can come first, one of them can stay behind longest. -/
theorem exists_longest (htaken : T.taken n ≠ [])
    (hmeets : ∀ a ∈ T.taken n, ∃ v e, Meets (Step.Depends none) a u v e) :
    ∃ q ∈ T.taken n, ∃ v e, Meets (Step.Depends none) q u v e ∧
      ∀ r ∈ T.taken n, ∀ v' e', Meets (Step.Depends none) r u v' e' → v'.length ≤ v.length := by
  classical
  let P (k : Nat) : Prop := ∃ q ∈ T.taken n, ∃ v e,
    Meets (Step.Depends none) q u v e ∧ v.length = k
  have hbound : ∀ k, P k → k ≤ u.length := by
    rintro k ⟨q, -, v, e, hq, rfl⟩
    obtain ⟨x, rfl⟩ := hq.split
    simp
  obtain ⟨k, hk⟩ : ∃ k, P k := by
    obtain ⟨q, hq⟩ := List.exists_mem_of_ne_nil _ htaken
    obtain ⟨v, e, hmeet⟩ := hmeets q hq
    exact ⟨v.length, q, hq, v, e, hmeet, rfl⟩
  obtain ⟨q, hq, v, e, hmeet, hlength⟩ := Nat.findGreatest_spec (hbound k hk) hk
  refine ⟨q, hq, v, e, hmeet, fun r hr v' e' hmeet' => ?_⟩
  have hr : P v'.length := ⟨r, hr, v', e', hmeet', rfl⟩
  rw [hlength]
  exact Nat.le_findGreatest (hbound _ hr) hr

/-- No redundant step and none that was taken at a node starts the run `u`. The step `q` was taken there;
the first step of `u` that depends on it is `e`, after `v`. -/
structure Passes (n c : ν) (u : List Step) (q : Step) (v : List Step) (e : Step) : Prop where
  isRun : p.IsRun (T.state n) u
  isAwake : T.IsAwake n u
  start : ∀ a ∈ T.taken n, ¬Starts (Step.Depends none) a u
  edge : T.edge n q c
  meets : Meets (Step.Depends none) q u v e

theorem Passes.process_ne {q e : Step} {c : ν} {v : List Step} (h : T.Passes n c u q v e) :
    e.process ≠ q.process := by
  obtain ⟨⟨x, rfl⟩, hv, -, hne⟩ := h.meets
  have hq := T.canRun n q c h.edge
  intro heq
  refine hne (h.isRun.first_eq hq.counter hq.hasStep (fun d hd hdq => ?_) heq)
  exact hv d hd (Step.dependent_of_process_eq hdq.symm)

/-- After a step that was taken, if what comes before the first step that depends on it is covered, the
tree has a run that performs this and makes a detour. Nothing redundant starts it. -/
def MakesDetours : Prop := ∀ n c u q v e, T.Passes n c u q v e → T.IsCovered c v →
  ∃ body, p.Detour (T.state n) q u v body e ∧ T.IsAwake c (v ++ (body ++ [e]))

/-- If the detour of `q` is covered below, then the race that ends it is reversed, so some step taken
stays behind longer than `q`. -/
theorem exists_longer {q e : Step} {c : ν} {v body : List Step} (hu : p.IsRun (T.state n) u)
    (hawake : T.IsAwake n u) (hmeets : ∀ a ∈ T.taken n, ∃ v e, Meets (Step.Depends none) a u v e)
    (hedge : T.edge n q c) (hD : p.Detour (T.state n) q u v body e)
    (hcovered : T.IsCovered c (v ++ (body ++ [e]))) :
    ∃ r ∈ T.taken n, ∃ v' e', Meets (Step.Depends none) r u v' e' ∧ v.length < v'.length := by
  obtain ⟨z, w, m, hr, hwalk⟩ := hcovered
  have hq := T.canRun n q c hedge
  have hrun := (hwalk.isRun T.canRun T.state_eq).1
  rw [T.state_eq n q c hedge] at hrun
  -- the walk that covers the detour makes `e` somewhere, and is cut there
  have hew : e ∈ w := hr.mem_iff.1 (by simp)
  obtain ⟨y, z', rfl⟩ := List.append_of_mem hew
  have hnodup : (q :: (v ++ (body ++ [e]) ++ z)).Nodup := by
    have hrun' : p.IsRun (T.state n) (q :: (y ++ e :: z')) := ⟨hq, hrun⟩
    exact (hr.perm.cons q).nodup_iff.2 hrun'.nodup
  have hsplit : v ++ (body ++ [e]) ++ z = v ++ (body ++ e :: z) := by simp
  rw [hsplit] at hr hnodup
  have hrace := hD.race hr hnodup (T.coherent n) hq (isRun_append.1 hrun).1
  obtain ⟨f, hfu, hcause, hf⟩ := hD.exists_start hr hnodup
  have hwalk : Walk T.edge n ((q :: (y ++ [e])) ++ z') m := by
    have := Walk.cons hedge hwalk
    simpa using this
  obtain ⟨m', hwalk, -⟩ := Walk.append_iff.1 hwalk
  -- the race of `q` with `e` is seen on that walk, so a start of its reversal was taken at `n`
  obtain ⟨r, hr', hstart⟩ := T.reversed n q y e m' hwalk hrace
    ⟨f, hu.canRun_of_starts hfu, fun hsleep => hawake f hsleep hfu, hcause, hf⟩
  obtain ⟨v', e', hmeet⟩ := hmeets r hr'
  exact ⟨r, hr', v', e', hmeet, hD.length_lt hr hnodup hmeet hstart⟩

/-- Every run that nothing redundant starts is, with some steps added to its end, a reordering of a path of
the tree. -/
theorem isCovered (hdetours : T.MakesDetours) (hu : p.IsRun (T.state n) u)
    (hawake : T.IsAwake n u) : T.IsCovered n u := by
  obtain ⟨N, hN⟩ : ∃ N, ∀ w, p.IsRun (T.state n) w → w.length < N :=
    ⟨p.instrCount + 1, fun w hw => Nat.lt_succ_of_le hw.length_le⟩
  induction N generalizing n u with
  | zero => exact absurd (hN [] trivial) (Nat.not_lt_zero _)
  | succ N ih =>
    have hchild : ∀ a c, T.edge n a c → ∀ u, p.IsRun (T.state c) u → T.IsAwake c u →
        T.IsCovered c u :=
      fun a c hedge u hu hawake => ih hu hawake (T.bound_child hN hedge)
    by_cases hfront : ∃ a ∈ T.taken n,
        Starts (Step.Depends none) a u ∨ ∀ c ∈ u, ¬Step.Depends none a c
    · exact T.isCovered_of_front hu hawake hchild hfront
    simp only [not_exists, not_and, not_or] at hfront
    rcases u with _ | ⟨f, u⟩
    · exact ⟨[], [], n, .refl [], .nil n⟩
    -- otherwise every step taken meets a step of the run that it depends on
    have htaken : T.taken n ≠ [] :=
      T.exists_taken n f hu.1 fun hf => hawake f hf Starts.head
    have hmeets := fun a ha => exists_meets (hfront a ha).1 (hfront a ha).2
    obtain ⟨q, hq, v, e, hmeet, hlongest⟩ := T.exists_longest htaken hmeets
    obtain ⟨c, hedge⟩ := T.exists_edge n q hq
    have hpasses : T.Passes n c (f :: u) q v e :=
      ⟨hu, hawake, fun a ha => (hfront a ha).1, hedge, hmeet⟩
    have hcovered : T.IsCovered c v := by
      obtain ⟨x, hx⟩ := hmeet.split
      have hstart := hpasses.start
      rw [hx] at hu hawake hstart
      refine hchild q c hedge v ?_ fun b hb =>
        (T.not_starts_of_asleep_child hawake hstart hedge hb).2
      rw [T.state_eq n q c hedge]
      refine ((isRun_append.1 hu).1.after_of_independent (T.canRun n q c hedge) ?_).1
      exact fun d hd hdq => hmeet.independent d hd hdq.symm
    obtain ⟨body, hD, hawake'⟩ := hdetours n c _ q v e hpasses hcovered
    have hcovered' : T.IsCovered c (v ++ (body ++ [e])) :=
      hchild q c hedge _ (T.state_eq n q c hedge ▸ hD.isRun) hawake'
    obtain ⟨r, hr, v', e', hmeet', hlonger⟩ :=
      T.exists_longer hu hawake hmeets hedge hD hcovered'
    have := hlongest r hr v' e' hmeet'
    omega

/-- So every complete run that nothing redundant starts is a reordering of a path. -/
theorem exists_walk (hdetours : T.MakesDetours) (hw : p.IsComplete (T.state n) w)
    (hawake : T.IsAwake n w) : ∃ w' m, Reorders (Step.Depends none) w w' ∧ Walk T.edge n w' m := by
  obtain ⟨z, w', m, hr, hwalk⟩ := T.isCovered hdetours hw.isRun hawake
  have hrun := (hwalk.isRun T.canRun T.state_eq).1
  have hback := hr.symm (hr.perm.nodup_iff.2 hrun.nodup) fun _ _ => Step.Depends.symm
  -- nothing can be added to a complete run
  cases z with
  | nil => exact ⟨w', m, by simpa using hr, hwalk⟩
  | cons a z =>
    have hrun' := (hrun.reorder hback).1
    exact absurd (isRun_append.1 hrun').2.1 (Program.isTerminal_iff.1 hw.terminal a)

/-! ### Trees that make detours -/

variable (hspawn : p.HasSoleSpawners)
include hspawn

/-- In a disciplined program, the thread of a step can go on alone until it has released. What is redundant
at the child is not one of its steps. -/
theorem makesDetours_of_isDisciplined (hp : p.IsDisciplined) : T.MakesDetours := by
  rintro n c u q v e hpasses -
  obtain ⟨⟨x, rfl⟩, hv, hqe, -⟩ := hpasses.meets
  obtain ⟨body, hown, hD⟩ := exists_detour_alone (T.canRun n q c hpasses.edge) hpasses.isRun hv
    hpasses.process_ne (T.coherent n) hspawn hqe hp
  refine ⟨body, hD, fun b hb hstart => ?_⟩
  obtain ⟨hbq, hbv⟩ :=
    T.not_starts_of_asleep_child hpasses.isAwake hpasses.start hpasses.edge hb
  rw [← List.append_assoc] at hstart
  rcases hstart.of_snoc with hstart | ⟨rfl, -⟩
  · rcases hstart.of_append with hstart | hmem
    · exact hbv hstart
    · exact hbq (Step.dependent_of_process_eq (hown b hmem))
  · exact hbq hqe.symm

/-- In other programs, a path from the child that performs `v` goes on to an end of the tree. If every
thread can release there, the tree has a detour along that path. -/
theorem makesDetours_of_ends (hrespawns : p.RespawnsFree) (hkeeps : T.KeepsAsleep)
    (hends : ∀ m, T.taken m = [] → ∀ q, p.CanRelease (T.state m) q) : T.MakesDetours := by
  rintro n c u q v e hpasses ⟨z, w₁, m₁, hr, hwalk₁⟩
  obtain ⟨⟨x, rfl⟩, hv, hqe, -⟩ := hpasses.meets
  obtain ⟨w₂, m, hwalk₂, hm⟩ := T.exists_end m₁
  have hwalk : Walk T.edge c (w₁ ++ w₂) m := Walk.append_iff.2 ⟨m₁, hwalk₁, hwalk₂⟩
  obtain ⟨hrun, hstate⟩ := hwalk.isRun T.canRun T.state_eq
  -- the path is a reordering of a run that begins with `v`
  have hback : Reorders (Step.Depends none) (w₁ ++ w₂) (v ++ z ++ w₂) :=
    (hr.append_right w₂).symm ((hr.append_right w₂).perm.nodup_iff.2 hrun.nodup)
      fun _ _ => Step.Depends.symm
  obtain ⟨hrun', hstate'⟩ := hrun.reorder hback
  obtain ⟨alone, halone, hown, hnothing⟩ := hends m hm q.process
  rw [hstate, ← hstate'] at halone hnothing
  have hall := isRun_append.2 ⟨hrun', halone⟩
  rw [← ProgramState.afterAll_append] at hnothing
  rw [T.state_eq n q c hpasses.edge, List.append_assoc v, List.append_assoc v] at hall hnothing
  obtain ⟨body, z', hsplit, hD⟩ := exists_detour (T.canRun n q c hpasses.edge) hpasses.isRun hv
    hpasses.process_ne (T.coherent n) hspawn hqe hrespawns hall hnothing
  refine ⟨body, hD, fun b hb hstart => ?_⟩
  obtain ⟨hbq, hbv⟩ :=
    T.not_starts_of_asleep_child hpasses.isAwake hpasses.start hpasses.edge hb
  rw [← List.append_assoc] at hstart
  rcases hstart.of_snoc with hstart | ⟨rfl, -⟩
  · -- it would start the path, or be a step of the thread of `q`
    have hlong : Starts (Step.Depends none) b (v ++ z ++ w₂ ++ alone) := by
      rw [List.append_assoc v, List.append_assoc v, hsplit, ← List.append_assoc]
      exact hstart.append
    rcases hlong.of_append with hpath | hmem
    · refine T.isAwake_of_walk hkeeps hwalk b hb (hpath.of_reorders hrun'.nodup ?_ ?_)
      · exact fun _ _ => Step.Depends.symm
      · exact hr.append_right w₂
    · exact hbq (Step.dependent_of_process_eq (hown b hmem))
  · exact hbq hqe.symm

end ReducedTree

end Interleaving
