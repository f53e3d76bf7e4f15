import Interleaving.Proofs.Outcome
import Interleaving.Proofs.Queries
import Interleaving.Proofs.Trees

/-!
# Looking for races

What the scan of a new step `e` does at one frame is said once, by `ScanStep`: it changes nothing but
required steps at states on the stack (`Widens`), it leaves a process out only if the frame is ordered
before `e` or races with it, and where a race can be seen it requires a step that starts the run
reversing it.
-/

namespace Interleaving

variable {p : Program} {precision : Precision} {t : SearchTree ProgramState Step}
  {settings : Settings} {χ : Type} {x x' x'' : Exploration Step χ}

/-! ## Parts of an exploration -/

namespace DecorationTable

variable {α : Type} [Action α] (table : DecorationTable α) (s s' : StateId)

@[simp] theorem get_reset (d : Decoration α) :
    (table.reset s d).get s' = if s = s' then d else table.get s' := by
  unfold get
  rw [get?_reset]
  split <;> rfl

@[simp] theorem get_update (f : Decoration α → Decoration α) :
    (table.update s f).get s' = if s = s' then f (table.get s) else table.get s' :=
  get_reset table s s' _

@[simp] theorem isVisited_update (f : Decoration α → Decoration α) :
    (table.update s f).isVisited s' = table.isVisited s' := rfl

@[simp] theorem get_markVisited : (table.markVisited s).get s' = table.get s' := rfl

@[simp] theorem get_clearRound : table.clearRound.get s = table.get s := rfl

end DecorationTable

namespace Ends

variable {β : Type} {Q : β → Exploration Step χ → Prop} {E : Exploration Step χ → Prop}
  {ctx : Context ProgramState Step Empty}

theorem lookUp_or {n : NodeId} {Q : SearchTree.Node ProgramState Step → Exploration Step χ → Prop}
    (hE : E x) (h : ∀ e, ctx.tree.node? n = some e → Q e x) : Ends (Exploration.lookUp ctx n) x Q E := by
  unfold Exploration.lookUp
  split
  · rename_i e he
    exact .pure (h e he)
  · exact .throw hE

theorem lookUp {n : NodeId} {Q : SearchTree.Node ProgramState Step → Exploration Step χ → Prop}
    (h : ∀ e, ctx.tree.node? n = some e → Q e x) : Yields (Exploration.lookUp ctx n) x Q :=
  .lookUp_or trivial h

theorem lookUp_of_node? {n : NodeId} {e : SearchTree.Node ProgramState Step}
    {Q : SearchTree.Node ProgramState Step → Exploration Step χ → Prop}
    (hn : ctx.tree.node? n = some e) (h : Q e x) : Ends (Exploration.lookUp ctx n) x Q E := by
  unfold Exploration.lookUp
  rw [hn]
  exact .pure h

theorem ask {r : Except Empty β} {b : β} (hr : r = .ok b) (h : Q b x) :
    Ends (Exploration.ask r) x Q E := by
  subst hr
  exact .pure h

theorem enabledAt {e : SearchTree.Node ProgramState Step}
    {Q : ActionSet Step → Exploration Step χ → Prop} (h : Q (p.enabledSet e.state) x) :
    Ends (Exploration.enabledAt (p.context precision t settings) e) x Q E := h

/-- A choice uses up the source and changes nothing else. -/
theorem choose_any [ChoiceSource χ] {S : ActionSet Step}
    {Q : Option Step → Exploration Step χ → Prop} (h : ∀ r choices, Q r { x with choices }) :
    Ends (Exploration.choose S : ExploreM Step χ Empty _) x Q E := by
  unfold Exploration.choose
  exact .modifyGet (h _ _)

/-- A choice among the members of a set finds one, unless there is none. -/
theorem choose [ChoiceSource χ] [LawfulChoiceSource χ] {S : ActionSet Step}
    {Q : Option Step → Exploration Step χ → Prop}
    (hnone : S.toList = [] → Q none x)
    (hsome : ∀ a ∈ S.toList, ∀ choices, Q (some a) { x with choices }) :
    Ends (Exploration.choose S : ExploreM Step χ Empty _) x Q E := by
  unfold Exploration.choose
  refine .modifyGet ?_
  dsimp only [ActionSet.choose]
  by_cases hS : S.isEmpty
  · have hnil : S.toList = [] := List.isEmpty_iff.1 hS
    rw [if_pos hS]
    exact hnone hnil
  · rw [if_neg hS]
    have hpos : 0 < S.size := by
      rw [Keyed.size, List.length_pos_iff]
      exact fun h => hS (List.isEmpty_iff.2 h)
    have hlt : (ChoiceSource.pick x.choices S.size).1 < S.size :=
      LawfulChoiceSource.pick_lt _ hpos
    have hget := List.getElem?_eq_getElem (l := S.toList) hlt
    dsimp only
    rw [hget]
    exact hsome _ (List.getElem_mem hlt) _

end Ends

/-! ## Widening -/

/-- At most, steps that can run have become required at states on the stack. -/
structure Widens (p : Program) (t : SearchTree ProgramState Step)
    (x x' : Exploration Step χ) : Prop where
  stack : x'.stack = x.stack
  visited : ∀ s, x'.table.isVisited s = x.table.isVisited s
  sleep : ∀ s, (x'.table.get s).sleep = (x.table.get s).sleep
  explored : ∀ s, (x'.table.get s).explored = (x.table.get s).explored
  keeps : ∀ s, ∀ a ∈ (x.table.get s).backtrack.toList, a ∈ (x'.table.get s).backtrack.toList
  adds : ∀ s, ∀ a ∈ (x'.table.get s).backtrack.toList, a ∈ (x.table.get s).backtrack.toList ∨
    ∃ i f e, x.stack.frame? i = some f ∧ t.node? f.node = some e ∧ e.stateId = s ∧
      p.CanRun e.state a

namespace Widens

theorem refl (x : Exploration Step χ) : Widens p t x x :=
  ⟨rfl, fun _ => rfl, fun _ => rfl, fun _ => rfl, fun _ _ h => h, fun _ _ h => .inl h⟩

/-- Counters and choices do not matter. -/
theorem of_eq (hstack : x'.stack = x.stack) (htable : x'.table = x.table) : Widens p t x x' := by
  refine ⟨hstack, ?_, ?_, ?_, ?_, ?_⟩ <;> rw [htable]
  · exact fun _ => rfl
  · exact fun _ => rfl
  · exact fun _ => rfl
  · exact fun _ _ h => h
  · exact fun _ _ h => .inl h

theorem trans (h : Widens p t x x') (h' : Widens p t x' x'') : Widens p t x x'' where
  stack := h'.stack.trans h.stack
  visited s := (h'.visited s).trans (h.visited s)
  sleep s := (h'.sleep s).trans (h.sleep s)
  explored s := (h'.explored s).trans (h.explored s)
  keeps s a ha := h'.keeps s a (h.keeps s a ha)
  adds s a ha := by
    rcases h'.adds s a ha with ha | ha
    · exact h.adds s a ha
    · rw [h.stack] at ha
      exact .inr ha

theorem hasKey_backtrack (h : Widens p t x x') {s : StateId} {k : ActionKey Nat}
    (hk : (x.table.get s).backtrack.hasKey k) : (x'.table.get s).backtrack.hasKey k := by
  obtain ⟨a, ha, rfl⟩ := Keyed.hasKey_iff.1 hk
  exact Keyed.hasKey_of_mem (h.keeps s a ha)

theorem asleep (h : Widens p t x x') (s : StateId) :
    (x'.table.get s).asleep = (x.table.get s).asleep := by
  unfold Decoration.asleep
  rw [h.sleep, h.explored]

/-- A change of the required steps of a state on the stack. -/
theorem decorate {i : Nat} {f : Frame Step} {e : SearchTree.Node ProgramState Step}
    {backtrack : ActionSet Step} (hf : x.stack.frame? i = some f) (he : t.node? f.node = some e)
    (hkeeps : ∀ a ∈ (x.table.get e.stateId).backtrack.toList, a ∈ backtrack.toList)
    (hadds : ∀ a ∈ backtrack.toList,
      a ∈ (x.table.get e.stateId).backtrack.toList ∨ p.CanRun e.state a)
    (hstack : x'.stack = x.stack)
    (htable : x'.table = x.table.update e.stateId ({ · with backtrack })) : Widens p t x x' := by
  refine ⟨hstack, ?_, ?_, ?_, ?_, ?_⟩ <;> rw [htable]
  · exact fun s => rfl
  · intro s
    rw [DecorationTable.get_update]
    split
    · rename_i hs
      rw [hs]
    · rfl
  · intro s
    rw [DecorationTable.get_update]
    split
    · rename_i hs
      rw [hs]
    · rfl
  · intro s a ha
    rw [DecorationTable.get_update]
    split
    · rename_i hs
      subst hs
      exact hkeeps a ha
    · exact ha
  · intro s a ha
    rw [DecorationTable.get_update] at ha
    split at ha
    · rename_i hs
      subst hs
      exact (hadds a ha).imp_right fun hrun => ⟨i, f, e, hf, he, rfl, hrun⟩
    · exact .inl ha

end Widens

/-! ## One frame of the scan -/

/-- The race at a frame, if the frame is one: the step `c` at index `l` and a later step `e` are
dependent, and could come in the other order. -/
structure Sighted (precision : Precision) (t : SearchTree ProgramState Step)
    (stack : SearchStack Step) (e : Step) (l : Nat) (f : Frame Step) (c : Step) (below : Frame Step)
    (origin : SearchTree.Node ProgramState Step) : Prop where
  frame : stack.frame? l = some f
  action : f.action = some c
  depends : Step.Depends precision c e
  reversible : ∃ source, t.parent f.node = some source ∧ Step.reversible (t.state source) c e
  atOrigin : t.node? below.node = some origin
  belowFrame : stack.frame? (l - 1) = some below

namespace Sighted

variable {stack : SearchStack Step} {e c d : Step} {l : Nat} {f g below below' : Frame Step}
  {origin origin' : SearchTree.Node ProgramState Step}
  (h : Sighted precision t stack e l f c below origin)
include h

theorem eq_of_frame (hg : stack.frame? l = some g) : f = g := Option.some.inj (h.frame.symm.trans hg)

theorem eq_of_action (hg : stack.frame? l = some g) (hd : g.action = some d) : c = d := by
  rw [← h.eq_of_frame hg, h.action] at hd
  exact Option.some.inj hd

theorem unique (h' : Sighted precision t stack e l g d below' origin') :
    f = g ∧ c = d ∧ below = below' ∧ origin = origin' := by
  obtain rfl := h.eq_of_frame h'.frame
  obtain rfl := h.eq_of_action h'.frame h'.action
  obtain rfl := Option.some.inj (h.belowFrame.symm.trans h'.belowFrame)
  exact ⟨rfl, rfl, rfl, Option.some.inj (h.atOrigin.symm.trans h'.atOrigin)⟩

end Sighted

/-- A step that is not redundant before the race and starts the run that reverses it. -/
structure Initial (p : Program) (precision : Precision) (t : SearchTree ProgramState Step)
    (x : Exploration Step χ) (e : Step) (l : Nat) (c : Step)
    (origin : SearchTree.Node ProgramState Step) (g : Step) : Prop where
  canRun : p.CanRun origin.state g
  awake : (x.table.get origin.stateId).asleep.hasKey (Action.key g) = false
  starts : Starts (Step.Depends precision) g
    (reversingSteps precision c (Exploration.chainedActions t x.stack (l + 1)) e)

/-- What the scan of `e` does at the frame at index `l`. -/
structure ScanStep (p : Program) (precision : Precision) (t : SearchTree ProgramState Step)
    (e : Step) (limit l : Nat) (scan scan' : Exploration.RaceScan)
    (x x' : Exploration Step χ) : Prop where
  widens : Widens p t x x'
  /-- The scan goes on as it is, or leaves out a process because of an ordered step or a race. -/
  result : scan' = scan ∨
    (∃ f c, x.stack.frame? l = some f ∧ f.action = some c ∧ scan.isOrdered c.process l ∧
      scan' = scan.drop c.process) ∨
    ∃ f c below origin g, Sighted precision t x.stack e l f c below origin ∧
      Initial p precision t x e l c origin g ∧ scan' = scan.order c.process l f
  /-- A race of a process that is still looked for is reversed. -/
  hit : ∀ f c below origin g, Sighted precision t x.stack e l f c below origin →
    scan.pending.hasKey c.process → scan.isOrdered c.process l = false →
    Initial p precision t x e l c origin g → l < limit →
    ∃ r, Initial p precision t x e l c origin r ∧
      (x'.table.get origin.stateId).backtrack.hasKey (Action.key r)

namespace ScanStep

variable {e : Step} {limit l : Nat} {scan : Exploration.RaceScan}

/-- Where no race is to be reversed, the scan may go on as it is. -/
theorem skip (hwidens : Widens p t x x')
    (hnone : ∀ f c below origin g, Sighted precision t x.stack e l f c below origin →
      scan.pending.hasKey c.process → ¬Initial p precision t x e l c origin g) :
    ScanStep p precision t e limit l scan scan x x' :=
  ⟨hwidens, .inl rfl, fun f c below origin g hs hpending _ hg =>
    absurd hg (hnone f c below origin g hs hpending)⟩

/-- Where a race is to be reversed, the scan goes on with what comes before its earlier step. -/
theorem reverse {f : Frame Step} {c g : Step} {below : Frame Step}
    {origin : SearchTree.Node ProgramState Step} (hwidens : Widens p t x x')
    (hs : Sighted precision t x.stack e l f c below origin)
    (hg : Initial p precision t x e l c origin g)
    (hhit : l < limit → ∃ r, Initial p precision t x e l c origin r ∧
      (x'.table.get origin.stateId).backtrack.hasKey (Action.key r)) :
    ScanStep p precision t e limit l scan (scan.order c.process l f) x x' := by
  refine ⟨hwidens, .inr (.inr ⟨f, c, below, origin, g, hs, hg, rfl⟩), ?_⟩
  intro f' c' below' origin' g' hs' _ _ _ hl
  obtain ⟨rfl, rfl, rfl, rfl⟩ := hs'.unique hs
  exact hhit hl

end ScanStep

/-- All steps on the stack are steps of the program. -/
def SearchStack.IsGenuine (p : Program) (stack : SearchStack Step) : Prop :=
  ∀ i f a, stack.frame? i = some f → f.action = some a → p.HasStep a

theorem hasStep_of_mem_chainedActions {stack : SearchStack Step} {i : Nat} {a : Step}
    (hstack : stack.IsGenuine p) (ha : a ∈ Exploration.chainedActions t stack i) : p.HasStep a := by
  obtain ⟨j, -, hj⟩ := List.mem_filterMap.1 ha
  split at hj
  · rename_i f _ hf _
    split at hj
    · exact hstack j f a hf hj
    · cases hj
  · cases hj

namespace Ends

open Exploration

variable [ChoiceSource χ] [LawfulChoiceSource χ]

/-- One of the options is required afterwards, if there is one. -/
theorem requireOne {i : Nat} {f : Frame Step} {e : SearchTree.Node ProgramState Step}
    {options : ActionSet Step} {E : Exploration Step χ → Prop} (hf : x.stack.frame? i = some f)
    (he : t.node? f.node = some e) (hoptions : ∀ a ∈ options.toList, p.CanRun e.state a) :
    Ends (requireOne e.stateId options : ExploreM Step χ Empty _) x (fun _ x' =>
      Widens p t x x' ∧ (options.toList ≠ [] → ∃ a ∈ options.toList,
        (x'.table.get e.stateId).backtrack.hasKey (Action.key a))) E := by
  have hsame : Widens p t x { x with table := x.table.update e.stateId id } :=
    .decorate hf he (fun _ h => h) (fun _ h => .inl h) rfl rfl
  unfold Exploration.requireOne
  refine .bind (.modify (.bind (.get ?_)))
  split
  · rename_i hinter
    refine .pure ⟨hsame, fun _ => ?_⟩
    obtain ⟨k, hk, hk'⟩ := Keyed.intersects_iff.1 hinter
    obtain ⟨a, ha, rfl⟩ := Keyed.hasKey_iff.1 hk
    exact ⟨a, ha, hk'⟩
  · refine .bind (.choose (fun hnil => .pure ⟨hsame, fun h => absurd hnil h⟩) ?_)
    intro a ha choices
    refine .bind (.modify (.modify ⟨hsame.trans (.decorate hf he ?_ ?_ rfl rfl),
      fun _ => ⟨a, ha, ?_⟩⟩))
    · exact fun b hb => Keyed.mem_insert.2 (.inl hb)
    · intro b hb
      rcases Keyed.mem_insert.1 hb with hb | ⟨rfl, -⟩
      · exact .inl hb
      · exact .inr (hoptions b ha)
    · simp [Decoration.require]

/-- The steps that may be required before a race are those that are not redundant there and start
the run that reverses it. -/
theorem reverseRace {f : Frame Step} {c e : Step} {l limit : Nat} {scan : RaceScan}
    {s : SearchStack Step} (hstack : x.stack = s) (hgenuine : x.stack.IsGenuine p)
    (he : p.HasStep e)
    (hsighted : ∀ below origin, x.stack.frame? (l - 1) = some below →
      t.node? below.node = some origin → Sighted precision t x.stack e l f c below origin) :
    Yields (Exploration.reverseRace (p.context precision t settings) s limit l f c e scan) x
      fun scan' x' => Widens p t x x' ∧
        ((scan' = scan ∧ ∀ below origin g, Sighted precision t x.stack e l f c below origin →
          ¬Initial p precision t x e l c origin g) ∨
        ∃ below origin g, Sighted precision t x.stack e l f c below origin ∧
          Initial p precision t x e l c origin g ∧ scan' = scan.order c.process l f ∧
          (l < limit → ∃ r, Initial p precision t x e l c origin r ∧
            (x'.table.get origin.stateId).backtrack.hasKey (Action.key r))) := by
  subst hstack
  unfold Exploration.reverseRace
  refine .bind (.ask (reversingRun_system x.stack l c e) ?_)
  split
  · rename_i hbelow
    refine .pure ⟨.refl x, .inl ⟨rfl, fun below origin g hs => ?_⟩⟩
    rw [hs.belowFrame] at hbelow
    cases hbelow
  rename_i below hbelow
  refine .bind (.lookUp fun origin horigin => ?_)
  have hsighted := hsighted below origin hbelow horigin
  refine .bind (.enabledAt (.bind (.get ?_)))
  have hcandidates : ActionSet.IsGenuine p ((p.enabledSet origin.state).difference
      (x.table.get origin.stateId).asleep) := fun a ha =>
    Program.isGenuine_enabledSet a (Keyed.mem_difference.1 ha).1
  have hrun : ∀ b ∈ reversingSteps precision c (chainedActions t x.stack (l + 1)) e,
      p.HasStep b := by
    intro b hb
    rcases mem_reversingSteps_iff.1 hb with ⟨hb, -⟩ | rfl
    · exact hasStep_of_mem_chainedActions hgenuine hb
    · exact he
  obtain ⟨options, hoptions, hmem⟩ := @initials_system p precision _ _ hcandidates hrun
  have hinitial : ∀ g, g ∈ options.toList ↔ Initial p precision t x e l c origin g := by
    intro g
    rw [hmem, Keyed.mem_difference, Program.mem_enabledSet_iff]
    constructor
    · rintro ⟨⟨hg, hawake⟩, hstart⟩
      exact ⟨hg, hawake, hstart⟩
    · rintro ⟨hg, hawake, hstart⟩
      exact ⟨⟨hg, hawake⟩, hstart⟩
  refine .bind (.ask hoptions ?_)
  by_cases hempty : options.isEmpty
  · rw [if_pos hempty]
    refine .bind (.modify (.pure ⟨.of_eq rfl rfl, .inl ⟨rfl, fun below' origin' g hs hg => ?_⟩⟩))
    obtain rfl : below' = below := Option.some.inj (hs.belowFrame.symm.trans hbelow)
    obtain rfl : origin' = origin := Option.some.inj (hs.atOrigin.symm.trans horigin)
    have hnil : options.toList = [] := List.isEmpty_iff.1 hempty
    have := (hinitial g).2 hg
    rw [hnil] at this
    cases this
  · rw [if_neg hempty]
    have hne : options.toList ≠ [] := fun h => hempty (List.isEmpty_iff.2 h)
    obtain ⟨g, hg⟩ := List.exists_mem_of_ne_nil _ hne
    have hg := (hinitial g).1 hg
    by_cases hlimit : l < limit
    · rw [if_pos hlimit]
      refine .bind ((requireOne hbelow horigin fun a ha =>
        ((hinitial a).1 ha).canRun).imp fun _ x' hx' => .pure ?_)
      obtain ⟨r, hr, hkey⟩ := hx'.2 hne
      exact ⟨hx'.1, .inr ⟨below, origin, g, hsighted, hg, rfl, fun _ => ⟨r, (hinitial r).1 hr, hkey⟩⟩⟩
    · rw [if_neg hlimit]
      exact .pure ⟨.refl x, .inr ⟨below, origin, g, hsighted, hg, rfl, fun h => absurd h hlimit⟩⟩

/-- The scan goes on as it is if nothing can be required to reverse the race of a frame, and with what
comes before its earlier step otherwise. -/
theorem reverseRace_scanStep {f : Frame Step} {c e : Step} {l limit : Nat} {scan : RaceScan}
    {g : Counters → Counters} (hgenuine : x.stack.IsGenuine p) (he : p.HasStep e)
    (hf : x.stack.frame? l = some f) (hc : f.action = some c) (hdepends : Step.dependent precision c e)
    (hreversible : ∃ source, t.parent f.node = some source ∧ Step.reversible (t.state source) c e) :
    Yields (do
        Exploration.count g
        Exploration.reverseRace (p.context precision t settings) x.stack limit l f c e scan) x
      fun scan' x' => ScanStep p precision t e limit l scan scan' x x' := by
  refine .bind (.modify ?_)
  refine (reverseRace (s := x.stack) (by rfl) ?_ he fun below origin hb ho => ?_).imp
    fun scan' x' hx' => ?_
  · exact hgenuine
  · exact ⟨hf, hc, hdepends, hreversible, ho, hb⟩
  obtain ⟨hwidens, hresult⟩ := hx'
  have hwidens' : Widens p t x x' := .trans (by exact .of_eq rfl rfl) hwidens
  rcases hresult with ⟨rfl, hnone⟩ | ⟨below, origin, g, hs, hg, rfl, hhit⟩
  · refine .skip hwidens' fun f' c' below origin g hs _ hg => ?_
    obtain rfl := hs.eq_of_frame hf
    obtain rfl := hs.eq_of_action hf hc
    exact hnone below origin g hs ⟨hg.canRun, hg.awake, hg.starts⟩
  · refine .reverse hwidens' hs ⟨hg.canRun, hg.awake, hg.starts⟩ fun hl => ?_
    obtain ⟨r, hr, hkey⟩ := hhit hl
    exact ⟨r, ⟨hr.canRun, hr.awake, hr.starts⟩, hkey⟩

/-- The scan at one frame. -/
theorem scanFrame {e : Step} {l limit : Nat} {scan : RaceScan} (hgenuine : x.stack.IsGenuine p)
    (he : p.HasStep e) :
    Yields (Exploration.scanFrame (p.context precision t settings) x.stack e limit l scan) x
      fun scan' x' => ScanStep p precision t e limit l scan scan' x x' := by
  unfold Exploration.scanFrame
  split
  · rename_i hf
    refine .pure (.skip (.refl x) fun f c below origin g hs => ?_)
    rw [hs.frame] at hf
    cases hf
  rename_i f hf
  split
  · rename_i hc
    refine .pure (.skip (.refl x) fun f' c below origin g hs => ?_)
    rw [← hs.eq_of_frame hf, hs.action] at hc
    cases hc
  rename_i c hc
  simp only [Step.process_eq]
  by_cases hpending : scan.pending.hasKey c.process
  swap
  · -- its process is not looked for any more
    rw [if_pos (by simpa using hpending)]
    refine .pure (.skip (.refl x) fun f' c' below origin g hs hp => ?_)
    exact absurd (hs.eq_of_action hf hc ▸ hp) hpending
  rw [if_neg (by simpa using hpending)]
  by_cases hordered : scan.isOrdered c.process l
  · -- it comes before the new step anyway, and so does what its process did before
    rw [if_pos hordered]
    refine .pure ⟨.refl x, .inr (.inl ⟨f, c, hf, hc, hordered, rfl⟩), ?_⟩
    intro f' c' below origin g hs _ hunordered
    rw [hs.eq_of_action hf hc, hordered] at hunordered
    cases hunordered
  rw [if_neg hordered]
  refine .bind (.ask (b := Step.dependent precision c e) rfl ?_)
  by_cases hdepends : Step.dependent precision c e
  swap
  · rw [if_pos (by simpa using hdepends)]
    refine .pure (.skip (.refl x) fun f' c' below origin g hs => ?_)
    exact absurd (hs.eq_of_action hf hc ▸ hs.depends) hdepends
  rw [if_neg (by simpa using hdepends)]
  split
  · rename_i hsource
    refine .pure (.skip (.refl x) fun f' c' below origin g hs => ?_)
    obtain ⟨source, hs', -⟩ := hs.reversible
    rw [hs.eq_of_frame hf] at hs'
    exact absurd (hsource.symm.trans hs') (by simp)
  rename_i source hsource
  have hsource : t.parent f.node = some source := hsource
  refine .bind (.lookUp fun before hbefore => ?_)
  refine .bind (.ask (b := Step.reversible before.state c e) rfl ?_)
  have hstate : t.state source = before.state := SearchTree.state_eq hbefore
  by_cases hreversible : Step.reversible before.state c e
  swap
  · rw [if_neg hreversible]
    refine .bind (.modify (.pure (.skip (.of_eq rfl rfl) fun f' c' below origin g hs _ _ => ?_)))
    obtain ⟨source', hs', hr⟩ := hs.reversible
    rw [hs.eq_of_frame hf, hsource, Option.some.injEq] at hs'
    rw [hs.eq_of_action hf hc, ← hs', hstate] at hr
    exact absurd hr hreversible
  rw [if_pos hreversible]
  exact reverseRace_scanStep hgenuine he hf hc hdepends ⟨source, hsource, hstate ▸ hreversible⟩

/-- What the scan preserves at each frame, it preserves as a whole. -/
theorem scanBelow {e : Step} {n limit : Nat} {scan : RaceScan} {stack : SearchStack Step}
    {J : Nat → RaceScan → Exploration Step χ → Prop} (hgenuine : stack.IsGenuine p)
    (he : p.HasStep e) (hstack : x.stack = stack) (h : J n scan x)
    (hstep : ∀ l scan scan' y y', l < n → y.stack = stack → J (l + 1) scan y →
      ScanStep p precision t e limit (l + 1) scan scan' y y' → J l scan' y') :
    Yields (Exploration.scanBelow (p.context precision t settings) stack e limit n scan) x
      fun scan' x' => x'.stack = stack ∧ J 0 scan' x' := by
  induction n generalizing scan x with
  | zero => exact .pure ⟨hstack, h⟩
  | succ n ih =>
    subst hstack
    refine .bind ((scanFrame hgenuine he).imp fun scan' y hy => ?_)
    refine ih hy.widens.stack (hstep n scan scan' x y (by omega) rfl h hy) ?_
    intro l scan scan' y y' hl
    exact hstep l scan scan' y y' (by omega)

/-- The scan makes steps required at most. -/
theorem scanBelow_widens {e : Step} {n limit : Nat} {scan : RaceScan} {stack : SearchStack Step}
    (hgenuine : stack.IsGenuine p) (he : p.HasStep e) (hstack : x.stack = stack) :
    Yields (Exploration.scanBelow (p.context precision t settings) stack e limit n scan) x
      fun _ x' => Widens p t x x' :=
  (scanBelow (J := fun _ _ x' => Widens p t x x') hgenuine he hstack (.refl x)
    fun _ _ _ _ _ _ _ hy hstep => hy.trans hstep.widens).imp fun _ _ hx => hx.2

end Ends

end Interleaving
