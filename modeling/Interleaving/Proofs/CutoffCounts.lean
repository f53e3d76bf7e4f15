import Interleaving.Proofs.Cutoffs

/-!
# Cut-offs are counted

No operation takes a cut-off back (`Exploration.KeepsCutoffs`). So if none has been counted during a walk,
no call of the walk has been cut off (`WalkCall.not_cutsOff`).
-/

namespace Interleaving

variable {p : Program} {t : SearchTree ProgramState Step} {χ : Type} {n m c : NodeId}
  {x y : Exploration Step χ}

namespace Exploration

/-- The operation takes no cut-off back. -/
def KeepsCutoffs {β : Type} (op : ExploreM Step χ Empty β) : Prop :=
  ∀ x, Yields op x fun _ y => x.counters.virtualCutoffs ≤ y.counters.virtualCutoffs

namespace KeepsCutoffs

variable {β γ : Type} {ctx : Context ProgramState Step Empty} {op : ExploreM Step χ Empty β}
  {f : β → ExploreM Step χ Empty γ} {entry : SearchTree.Node ProgramState Step} {a : Step}
  {start limit index realSize : Nat} {s : StateId} {root node : NodeId} {roots : List NodeId}

theorem le (h : KeepsCutoffs op) {b : β} (hop : op x = .ok b y) :
    x.counters.virtualCutoffs ≤ y.counters.virtualCutoffs := (h x).of_ok hop

/-! ### Basic operations -/

theorem pure (b : β) : KeepsCutoffs (pure b : ExploreM Step χ Empty β) := fun _ => .pure (Nat.le_refl _)

theorem throw {h : Halt Empty} : KeepsCutoffs (throw h : ExploreM Step χ Empty β) :=
  fun _ => .throw trivial

theorem bind (h : KeepsCutoffs op) (hf : ∀ b, KeepsCutoffs (f b)) : KeepsCutoffs (op >>= f) := fun x =>
  .bind ((h x).imp fun b y hy => (hf b y).imp fun _ _ hz => Nat.le_trans hy hz)

theorem get_bind {f : Exploration Step χ → ExploreM Step χ Empty γ} (hf : ∀ x, KeepsCutoffs (f x)) :
    KeepsCutoffs (get >>= f) := fun x => .bind (.get (hf x x))

theorem count {g : Counters → Counters} (hg : ∀ c, c.virtualCutoffs ≤ (g c).virtualCutoffs) :
    KeepsCutoffs (count g : ExploreM Step χ Empty Unit) := fun _ => .modify (hg _)

theorem updateStack {g : SearchStack Step → SearchStack Step} :
    KeepsCutoffs (updateStack g : ExploreM Step χ Empty Unit) := fun _ => .modify (Nat.le_refl _)

theorem updateTable {g : DecorationTable Step → DecorationTable Step} :
    KeepsCutoffs (updateTable g : ExploreM Step χ Empty Unit) := fun _ => .modify (Nat.le_refl _)

theorem lookUp : KeepsCutoffs (lookUp ctx n : ExploreM Step χ Empty _) := by
  unfold Exploration.lookUp
  split
  · exact pure _
  · exact throw

theorem ask {answer : Except Empty β} : KeepsCutoffs (ask answer : ExploreM Step χ Empty β) := by
  unfold Exploration.ask
  split
  · exact pure _
  · exact throw

theorem enabledAt : KeepsCutoffs (enabledAt ctx entry : ExploreM Step χ Empty _) :=
  ask.bind fun _ => pure _

theorem forM {α : Type} {l : List α} {g : α → ExploreM Step χ Empty Unit}
    (hg : ∀ a, KeepsCutoffs (g a)) : KeepsCutoffs (l.forM g) := by
  induction l with
  | nil => exact pure ()
  | cons a l ih => exact (hg a).bind fun _ => ih

theorem refuseCycle {position : Nat} :
    KeepsCutoffs (refuseCycle ctx entry position limit : ExploreM Step χ Empty _) := by
  unfold Exploration.refuseCycle
  dsimp only
  split
  · refine bind enabledAt fun _ => bind updateTable fun _ => ?_
    exact bind (count fun _ => Nat.le_refl _) fun _ => pure _
  · exact bind (count fun _ => Nat.le_refl _) fun _ => pure _

theorem installFrame {last : Frame Step} {before : SearchTree.Node ProgramState Step} {clock : Clock}
    {decoration : Decoration Step} {isVirtual : Bool} : KeepsCutoffs (installFrame ctx node entry last
      before a clock decoration isVirtual : ExploreM Step χ Empty _) := by
  have hend : KeepsCutoffs (if isVirtual then
      Exploration.count fun c => { c with virtualPushes := c.virtualPushes + 1 }
      else Exploration.count fun c => { c with pushes := c.pushes + 1 } : ExploreM Step χ Empty Unit) := by
    split <;> exact count fun _ => Nat.le_refl _
  refine get_bind fun x => ?_
  dsimp only
  split
  · exact bind updateStack fun _ => bind updateTable fun _ => bind updateStack fun _ => hend
  · exact bind updateTable fun _ => bind updateStack fun _ => hend

theorem popFrame : KeepsCutoffs (popFrame ctx : ExploreM Step χ Empty _) := by
  have hpop : KeepsCutoffs (do
      Exploration.updateStack (·.pop)
      Exploration.count fun c => { c with pops := c.pops + 1 } : ExploreM Step χ Empty _) :=
    bind updateStack fun _ => count fun _ => Nat.le_refl _
  refine get_bind fun x => ?_
  dsimp only
  split
  · exact pure _
  split
  · split
    · refine bind ?_ fun _ => hpop
      refine bind lookUp fun _ => bind enabledAt fun _ => get_bind fun _ => bind updateTable fun _ => ?_
      exact count fun _ => Nat.le_refl _
    · exact hpop
  · exact hpop

theorem recordTaken {enabled : ActionSet Step} :
    KeepsCutoffs (recordTaken s enabled a : ExploreM Step χ Empty _) := by
  refine bind updateTable fun _ => get_bind fun _ => ?_
  dsimp only
  split
  · exact throw
  · exact pure _

theorem topmost {steps : Nat} : KeepsCutoffs (topmost ctx steps n : ExploreM Step χ Empty _) := by
  induction steps generalizing n with
  | zero => exact throw
  | succ steps ih =>
    refine bind lookUp fun entry => ?_
    split
    · exact ih
    · exact pure _

variable [ChoiceSource χ]

theorem choose {set : ActionSet Step} : KeepsCutoffs (choose set : ExploreM Step χ Empty _) :=
  fun _ => .modifyGet (Nat.le_refl _)

theorem pick {count : Nat} : KeepsCutoffs (pick count : ExploreM Step χ Empty _) :=
  fun _ => .modifyGet (Nat.le_refl _)

/-! ### Pushes -/

theorem requireOne {options : ActionSet Step} :
    KeepsCutoffs (requireOne s options : ExploreM Step χ Empty Unit) := by
  refine bind updateTable fun _ => get_bind fun x => ?_
  split
  · exact pure ()
  · refine choose.bind fun answer => ?_
    cases answer with
    | none => exact pure ()
    | some a => exact bind updateTable fun _ => count fun _ => Nat.le_refl _

theorem reverseRace {stack : SearchStack Step} {frame : Frame Step} {earlier : Step} {scan : RaceScan} :
    KeepsCutoffs (reverseRace ctx stack limit index frame earlier a scan : ExploreM Step χ Empty _) := by
  refine ask.bind fun run => ?_
  split
  · exact pure _
  refine bind lookUp fun origin => bind enabledAt fun candidates => get_bind fun x => ?_
  refine bind ask fun options => ?_
  split
  · exact bind (count fun _ => Nat.le_refl _) fun _ => pure _
  dsimp only
  split
  · exact bind requireOne fun _ => pure _
  · exact pure _

theorem scanFrame {stack : SearchStack Step} {scan : RaceScan} :
    KeepsCutoffs (scanFrame ctx stack a limit index scan : ExploreM Step χ Empty _) := by
  unfold Exploration.scanFrame
  split
  · exact pure _
  split
  · exact pure _
  dsimp only
  split
  · exact pure _
  split
  · exact pure _
  refine bind ask fun _ => ?_
  split
  · exact pure _
  split
  · exact pure _
  refine bind lookUp fun _ => bind ask fun _ => ?_
  split
  · exact bind (count fun _ => Nat.le_refl _) fun _ => reverseRace
  · exact bind (count fun _ => Nat.le_refl _) fun _ => pure _

theorem scanBelow {stack : SearchStack Step} {scan : RaceScan} :
    KeepsCutoffs (scanBelow ctx stack a limit index scan : ExploreM Step χ Empty _) := by
  induction index generalizing scan with
  | zero => exact pure _
  | succ index ih => exact scanFrame.bind fun _ => ih

theorem freshDecoration {sleep : ActionSet Step} :
    KeepsCutoffs (freshDecoration ctx entry a sleep : ExploreM Step χ Empty _) := by
  refine bind ask fun _ => bind enabledAt fun _ => ?_
  dsimp only
  split
  · exact bind choose fun _ => pure _
  · exact bind (pure _) fun _ => pure _

theorem pushStep : KeepsCutoffs (pushStep ctx node entry a limit : ExploreM Step χ Empty _) := by
  refine get_bind fun x => ?_
  dsimp only
  split
  · exact throw
  refine bind scanBelow fun scan => bind lookUp fun before => ?_
  split
  · refine get_bind fun y => bind (pure _) fun decoration => ?_
    split
    · exact refuseCycle
    · exact bind installFrame fun _ => pure _
  · refine get_bind fun y => bind freshDecoration fun decoration => ?_
    split
    · exact refuseCycle
    · exact bind installFrame fun _ => pure _

theorem push : KeepsCutoffs (push ctx n limit : ExploreM Step χ Empty _) := by
  refine bind lookUp fun entry => ?_
  split
  · refine bind enabledAt fun _ => bind updateTable fun _ => bind updateStack fun _ => ?_
    exact bind (count fun _ => Nat.le_refl _) fun _ => pure _
  · exact pushStep

/-! ### Walks and rounds -/

theorem enterVirtual :
    KeepsCutoffs (enterVirtual ctx realSize start root node : ExploreM Step χ Empty _) := by
  unfold Exploration.enterVirtual
  split
  · exact pure _
  refine bind push fun isNew => ?_
  split
  · refine get_bind fun x => ?_
    split
    · exact bind (count fun _ => Nat.le_succ _) fun _ => pure _
    · exact pure _
  · exact pure _

theorem walkVirtual {depth : Nat} :
    KeepsCutoffs (walkVirtual ctx realSize depth roots root start node : ExploreM Step χ Empty _) := by
  induction depth generalizing roots root start node with
  | zero => exact throw
  | succ depth ih =>
    rw [walkVirtual_succ]
    refine bind lookUp fun entry => bind updateStack fun _ => bind enterVirtual fun below => ?_
    unfold walkBelow
    split
    swap
    · exact pure _
    split
    · split
      swap
      · exact pure _
      exact get_bind fun x => bind ih fun _ => updateStack
    · exact forM fun _ => ih

theorem virtualExploration {covering : NodeId} :
    KeepsCutoffs (virtualExploration ctx covering : ExploreM Step χ Empty _) :=
  get_bind fun _ => bind walkVirtual fun _ => updateStack

theorem add : KeepsCutoffs (add ctx n : ExploreM Step χ Empty _) := by
  have hpush : ∀ added, KeepsCutoffs (do
      let entry ← Exploration.lookUp ctx added
      Exploration.updateTable (·.markVisited entry.stateId)
      Exploration.push ctx added (← get).stack.size : ExploreM Step χ Empty _) := fun _ =>
    bind lookUp fun _ => bind updateTable fun _ => get_bind fun _ => push
  refine get_bind fun x => ?_
  split
  · refine bind lookUp fun _ => ?_
    split
    · exact hpush _
    · exact throw
  · exact bind topmost fun _ => bind (count fun _ => Nat.le_refl _) fun _ => hpush _

theorem replayEdges : KeepsCutoffs (replayEdges ctx limit : ExploreM Step χ Empty _) := by
  induction limit with
  | zero => exact throw
  | succ limit ih =>
    refine get_bind fun x => ?_
    split
    · exact pure _
    refine bind lookUp fun entry => get_bind fun x => ?_
    dsimp only
    split
    swap
    · exact pure _
    refine bind pick fun index => ?_
    split
    · exact throw
    refine bind enabledAt fun _ => bind recordTaken fun _ => bind (count fun _ => Nat.le_refl _) fun _ => ?_
    exact bind add fun _ => ih

theorem exploreLazily : KeepsCutoffs (exploreLazily ctx : ExploreM Step χ Empty _) := by
  unfold Exploration.exploreLazily
  split
  · exact replayEdges
  · exact pure _

theorem dropExhausted : KeepsCutoffs (dropExhausted ctx limit : ExploreM Step χ Empty _) := by
  induction limit with
  | zero => exact throw
  | succ limit ih =>
    refine get_bind fun x => ?_
    split
    · exact pure _
    refine bind lookUp fun entry => get_bind fun x => ?_
    dsimp only
    split
    · exact bind popFrame fun _ => bind exploreLazily fun _ => ih
    · exact pure _

/-- What follows the walk or the edges of earlier rounds in the question for the end of a round. -/
theorem dropAll : KeepsCutoffs (do
    Exploration.dropExhausted ctx ((← get).stack.size + ctx.tree.size + 1)
    Pure.pure (← get).stack.isEmpty : ExploreM Step χ Empty _) :=
  get_bind fun _ => bind dropExhausted fun _ => get_bind fun _ => pure _

theorem isEmpty : KeepsCutoffs (isEmpty ctx : ExploreM Step χ Empty _) := by
  refine get_bind fun x => ?_
  split
  · exact pure _
  refine bind lookUp fun entry => ?_
  split
  · split
    · exact bind virtualExploration fun _ => dropAll
    · exact dropAll
  · exact bind exploreLazily fun _ => dropAll

theorem nextAction : KeepsCutoffs (nextAction ctx s : ExploreM Step χ Empty _) := by
  refine get_bind fun x => ?_
  split
  · exact throw
  refine bind lookUp fun entry => ?_
  split
  · exact throw
  refine get_bind fun x => bind choose fun answer => ?_
  split
  · exact pure _
  · exact bind enabledAt fun _ => bind recordTaken fun _ => pure _

end KeepsCutoffs

end Exploration

/-! ## Walks without cut-offs -/

namespace WalkCall

variable [ChoiceSource χ] {ctx : Context ProgramState Step Empty} {realSize : Nat}
  {call call' : WalkCall χ}

/-- A call that is made ends before the one that has made it, with no more cut-offs. -/
theorem Makes.exists_run (hmakes : Makes ctx realSize call call')
    (hrun : call.run ctx realSize = .ok () y) : ∃ z, call'.run ctx realSize = .ok () z ∧
      z.counters.virtualCutoffs ≤ y.counters.virtualCutoffs := by
  obtain ⟨rest, heq, hrest⟩ := hmakes.run_eq
  have hkeeps : Exploration.KeepsCutoffs rest := by
    rcases hrest with rfl | ⟨_, _, _, -, -, -, -, -, rfl⟩
    · exact .updateStack
    · exact .forM fun _ => .walkVirtual
  have hends : Yields (do
      Exploration.walkVirtual ctx realSize call'.depth call'.roots call'.root call'.start call'.node
      rest) call'.exploration fun _ y => ∃ z, call'.run ctx realSize = .ok () z ∧
        z.counters.virtualCutoffs ≤ y.counters.virtualCutoffs :=
    .bind (Ends.any.and_ok.imp fun _ z ⟨_, hz⟩ => (hkeeps z).imp fun _ _ hle => ⟨z, hz, hle⟩)
  exact hends.of_ok (heq ▸ hrun)

/-- A call begins with the cut-offs with which the one that makes it has begun, or with more. -/
theorem Makes.le (hmakes : Makes ctx realSize call call') :
    call.exploration.counters.virtualCutoffs ≤ call'.exploration.counters.virtualCutoffs := by
  cases hmakes with
  | child _ _ henter _ _ hearlier =>
    exact Nat.le_trans (Exploration.KeepsCutoffs.enterVirtual.le (x := call.unwound _) henter)
      ((Exploration.KeepsCutoffs.forM fun _ => .walkVirtual).le hearlier)
  | nested _ _ henter _ _ =>
    exact Exploration.KeepsCutoffs.enterVirtual.le (x := call.unwound _) henter

/-- If no cut-off has been counted during a call, none of the calls that it makes has been cut off. -/
theorem not_cutsOff (hcalls : Relation.ReflTransGen (Makes ctx realSize) call call')
    (hrun : call.run ctx realSize = .ok () y)
    (hnone : y.counters.virtualCutoffs ≤ call.exploration.counters.virtualCutoffs)
    (z : Exploration Step χ) : ¬call'.CutsOff ctx realSize z := by
  induction hcalls using Relation.ReflTransGen.head_induction_on generalizing y with
  | head hmakes _ ih =>
    obtain ⟨z, hz, hle⟩ := hmakes.exists_run hrun
    exact ih hz (Nat.le_trans hle (Nat.le_trans hnone hmakes.le))
  | refl =>
    intro hcut
    cases hdepth : call'.depth with
    | zero =>
      rw [run, hdepth] at hrun
      cases hrun
    | succ depth =>
      rw [hcut.run_eq hdepth] at hrun
      cases hrun
      obtain ⟨_, entry, _, hpush, _⟩ := hcut
      have hle := Exploration.KeepsCutoffs.push.le (x := call'.unwound entry) hpush
      exact absurd (Nat.le_trans hnone hle) (Nat.not_succ_le_self _)

end WalkCall

/-- If no cut-off has been counted while the question for the end of a round was answered, no call of the
walk below the node that covers the current one has been cut off. -/
theorem not_cutsOff_of_isEmpty [ChoiceSource χ] {ctx : Context ProgramState Step Empty}
    {entry : SearchTree.Node ProgramState Step} {b : Bool} {call : WalkCall χ}
    (hvirtual : ctx.settings.virtualExploration = true) (htop : x.stack.topNode? = some n)
    (hn : ctx.tree.node? n = some entry) (hcovering : entry.covering = some c)
    (hfeasible : entry.feasible = true) (hempty : Exploration.isEmpty ctx x = .ok b y)
    (hnone : y.counters.virtualCutoffs ≤ x.counters.virtualCutoffs)
    (hcalls : Relation.ReflTransGen (WalkCall.Makes ctx x.stack.size) (.first ctx.tree c x) call)
    (z : Exploration Step χ) : ¬call.CutsOff ctx x.stack.size z := by
  have hends : Yields (Exploration.isEmpty ctx) x fun _ y => ∃ z,
      (WalkCall.first ctx.tree c x).run ctx x.stack.size = .ok () z ∧
        z.counters.virtualCutoffs ≤ y.counters.virtualCutoffs := by
    have hwalk : Yields (Exploration.virtualExploration ctx c) x fun _ y => ∃ z,
        (WalkCall.first ctx.tree c x).run ctx x.stack.size = .ok () z ∧
          z.counters.virtualCutoffs ≤ y.counters.virtualCutoffs :=
      .bind (.get (.bind (Ends.any.and_ok.imp fun _ z ⟨_, hz⟩ => .modify ⟨z, hz, Nat.le_refl _⟩)))
    unfold Exploration.isEmpty
    refine .bind (.get ?_)
    rw [htop]
    refine .of_run_eq (bind_of_ok (WalkCall.lookUp_eq hn)) ?_
    rw [hcovering, hfeasible]
    dsimp only
    rw [if_pos hvirtual]
    refine .bind (hwalk.imp fun _ y ⟨z, hz, hle⟩ => ?_)
    exact (Exploration.KeepsCutoffs.dropAll y).imp fun _ _ hle' => ⟨z, hz, Nat.le_trans hle hle'⟩
  obtain ⟨z', hrun, hle⟩ := hends.of_ok hempty
  exact WalkCall.not_cutsOff hcalls hrun (Nat.le_trans hle hnone) z

end Interleaving
