import Interleaving.Proofs.Calls

/-!
# What a push changes

The scan of a new step changes the sets of a state only where it sees a race with a step that is not
known to come before the new one (`Glance`). So a push that only looks into a node leaves alone all that
is redundant, forgets what has been taken at the node, and makes steps required nowhere but at states
that stand on the stack below its limit (`Footprint`). Where the clock of a thread knows the other
threads from some index on, no race of its next step is seen below the index, and what a clock knows
from an index on, it knows in the next frame as well.
-/

namespace Interleaving

variable {p : Program} {precision : Precision} {t : SearchTree ProgramState Step}
  {settings : Settings} {χ : Type} {x x' : Exploration Step χ} {n m : NodeId}
  {entry : SearchTree.Node ProgramState Step} {a c e : Step}

/-! ## Clocks that know a thread from an index on -/

namespace Clock

variable {clock other : Clock} {low k : Nat} {q r : ProcessId}

/-- The clock has an entry for the thread, which is not below the index. -/
def KnowsFrom (clock : Clock) (low : Nat) (q : ProcessId) : Prop :=
  ∃ k, low ≤ k ∧ SortedMap.get? clock q = some k

namespace KnowsFrom

theorem put_self (hk : low ≤ k) : KnowsFrom (SortedMap.put clock q k) low q :=
  ⟨k, hk, by rw [SortedMap.get?_put, if_pos rfl]⟩

theorem put (h : clock.KnowsFrom low q) (hk : low ≤ k) :
    KnowsFrom (SortedMap.put clock r k) low q := by
  obtain ⟨i, hi, hget⟩ := h
  by_cases hq : q = r
  · exact hq ▸ put_self hk
  · exact ⟨i, hi, by rw [SortedMap.get?_put, if_neg hq, hget]⟩

theorem join (h : clock.KnowsFrom low q) : (clock.join other).KnowsFrom low q := by
  unfold Clock.join
  generalize other.toList = entries
  induction entries generalizing clock with
  | nil => exact h
  | cons e entries ih =>
    refine ih ?_
    obtain ⟨i, hi, hget⟩ := h
    by_cases hq : q = e.1
    · refine ⟨max i e.2, Nat.le_trans hi (Nat.le_max_left _ _), ?_⟩
      rw [SortedMap.get?_put, if_pos hq, SortedMap.getD, ← hq, hget, Option.getD_some]
    · exact ⟨i, hi, by rw [SortedMap.get?_put, if_neg hq, hget]⟩

end KnowsFrom

end Clock

/-- What the clock of a thread knows, it knows in the frame of the next step. -/
theorem Exploration.knowsFrom_nextFrame {last : Frame Step} {index low : Nat} {clock : Clock}
    {spawned : List ProcessId} {acquired released : List LockId} {q r : ProcessId}
    (h : (SortedMap.getD last.clocks r ∅).KnowsFrom low q)
    (hown : r = a.process → clock.KnowsFrom low q) :
    (SortedMap.getD (nextFrame last index n a clock spawned acquired released).clocks r
      ∅).KnowsFrom low q := by
  -- the clocks of spawned threads are joined in one after the other, and none forgets anything
  have hinherited : ∀ clocks : SortedMap ProcessId Clock,
      (SortedMap.getD clocks r ∅).KnowsFrom low q →
      (SortedMap.getD (spawned.foldl (fun clocks s =>
        SortedMap.put clocks s (Clock.join (SortedMap.getD clocks s ∅) clock)) clocks) r
        ∅).KnowsFrom low q := by
    induction spawned with
    | nil => exact fun _ h => h
    | cons s spawned ih =>
      intro clocks h
      refine ih _ ?_
      rw [SortedMap.getD, SortedMap.get?_put]
      split
      · rename_i hs
        exact hs ▸ h.join
      · exact h
  show (SortedMap.getD (SortedMap.put _ a.process clock) r ∅).KnowsFrom low q
  rw [SortedMap.getD, SortedMap.get?_put]
  split
  · rename_i hr
    exact hown hr
  · exact hinherited last.clocks h

/-! ## One frame of the scan -/

/-- What the scan of `e` changes at the frame at `l`: nothing, or, at a race with a step that is not
known to come before `e`, the clock, and the sets of the state before that step if it is below
`limit`. -/
inductive Glance (precision : Precision) (t : SearchTree ProgramState Step) (e : Step) (limit l : Nat)
    (scan : Exploration.RaceScan) (x : Exploration Step χ) :
    Exploration.RaceScan → Exploration Step χ → Prop where
  | pass {scan' : Exploration.RaceScan} {x' : Exploration Step χ} : scan'.clock = scan.clock →
    (∀ s, x'.table.get s = x.table.get s) → Glance precision t e limit l scan x scan' x'
  | race {f below : Frame Step} {c : Step} {origin : SearchTree.Node ProgramState Step}
    {x' : Exploration Step χ} : Sighted precision t x.stack e l f c below origin →
    scan.isOrdered c.process l = false →
    (∀ s, x'.table.get s = x.table.get s ∨ l < limit ∧ s = origin.stateId) →
    Glance precision t e limit l scan x (scan.order c.process l f) x'

/-- The frame below one of those from `low` to `limit` stands for the node of the state. -/
def SearchStack.StandsFor (stack : SearchStack Step) (low limit : Nat) (s : StateId) : Prop :=
  ∃ i f, low ≤ i + 1 ∧ i + 1 < limit ∧ stack.frame? i = some f ∧ s = ⟨f.node.index⟩

theorem SearchStack.Rests.standsFor {s s' : SearchStack Step} {low limit size : Nat} {id : StateId}
    (h : s.Rests size s') (hlimit : limit ≤ size) (hle : size ≤ s.size)
    (hid : s'.StandsFor low limit id) : s.StandsFor low limit id := by
  obtain ⟨i, f, hlow, hi, hf, rfl⟩ := hid
  obtain ⟨locks, hf'⟩ := h.exists_frame (by omega) hle hf
  exact ⟨i, _, hlow, hi, hf', rfl⟩

namespace Ends

open Exploration

variable [ChoiceSource χ] [LawfulChoiceSource χ] {limit low : Nat} {scan : RaceScan}

/-- No other state gets other sets. -/
theorem requireOne_get {E : Exploration Step χ → Prop} {target : StateId}
    {options : ActionSet Step} :
    Ends (Exploration.requireOne target options : ExploreM Step χ Empty _) x
      (fun _ x' => ∀ s, x'.table.get s = x.table.get s ∨ s = target) E := by
  have hother : ∀ (table : DecorationTable Step) f s,
      (table.update target f).get s = table.get s ∨ s = target := by
    intro table f s
    rw [DecorationTable.get_update]
    split
    · rename_i hs
      exact .inr hs.symm
    · exact .inl rfl
  unfold Exploration.requireOne
  refine .bind (.modify (.bind (.get ?_)))
  split
  · exact .pure (hother _ _)
  · refine .bind (.choose (fun _ => .pure (hother _ _)) fun b _ choices => ?_)
    refine .bind (.modify (.modify fun s => ?_))
    rcases hother (x.table.update target id) (·.require b) s with hs | hs
    · exact (hother x.table id s).imp_left hs.trans
    · exact .inr hs

theorem reverseRace_glance {f : Frame Step} {l : Nat} {s : SearchStack Step}
    (hstack : x.stack = s) (hordered : scan.isOrdered c.process l = false)
    (hsighted : ∀ below origin, x.stack.frame? (l - 1) = some below →
      t.node? below.node = some origin → Sighted precision t x.stack e l f c below origin) :
    Yields (Exploration.reverseRace (p.context precision t settings) s limit l f c e scan) x
      fun scan' x' => Glance precision t e limit l scan x scan' x' := by
  subst hstack
  unfold Exploration.reverseRace
  refine .bind (.ask (reversingRun_system x.stack l c e) ?_)
  split
  · exact .pure (.pass rfl fun _ => rfl)
  rename_i below hbelow
  refine .bind (.lookUp fun origin horigin => .bind (.enabledAt (.bind (.get ?_))))
  have hsighted := hsighted below origin hbelow horigin
  obtain ⟨options, hoptions⟩ := exists_ok_of_empty (initials (p.system precision)
    ((p.enabledSet origin.state).difference (x.table.get origin.stateId).asleep)
    (reversingSteps precision c (chainedActions t x.stack (l + 1)) e))
  refine .bind (.ask hoptions ?_)
  split
  · exact .bind (.modify (.pure (.pass rfl fun _ => rfl)))
  · split
    · rename_i hlimit
      exact .bind (requireOne_get.imp fun _ x' hx' =>
        .pure (.race hsighted hordered fun s => (hx' s).imp_right fun hs => ⟨hlimit, hs⟩))
    · exact .pure (.race hsighted hordered fun _ => .inl rfl)

theorem scanFrame_glance {l : Nat} :
    Yields (Exploration.scanFrame (p.context precision t settings) x.stack e limit l scan) x
      fun scan' x' => Glance precision t e limit l scan x scan' x' := by
  have hpass : Glance precision t e limit l scan x scan x := .pass rfl fun _ => rfl
  unfold Exploration.scanFrame
  split
  · exact .pure hpass
  rename_i f hf
  split
  · exact .pure hpass
  rename_i c hc
  simp only [Step.process_eq]
  split
  · exact .pure hpass
  split
  · exact .pure (.pass rfl fun _ => rfl)
  rename_i hordered
  -- the step is not known to come before `e`; now the race has to be looked at
  refine .bind (.ask (b := Step.dependent precision c e) rfl ?_)
  split
  · exact .pure hpass
  rename_i hdepends
  have hdepends : Step.Depends precision c e := by simpa using hdepends
  split
  · exact .pure hpass
  rename_i source hsource
  refine .bind (.lookUp fun before hbefore => ?_)
  refine .bind (.ask (b := Step.reversible before.state c e) rfl ?_)
  split
  · rename_i hreversible
    rw [← SearchTree.state_eq hbefore] at hreversible
    refine .bind (.modify ((reverseRace_glance (by rfl) (Bool.eq_false_iff.2 hordered)
      fun below origin hb ho => ?_).imp fun scan' x' hx' => ?_))
    · exact ⟨hf, hc, hdepends, ⟨source, hsource, hreversible⟩, ho, hb⟩
    · cases hx' with
      | pass hclock htable => exact .pass hclock htable
      -- counting the race has left the stack alone
      | race hs ho htable => exact .race ⟨hs.1, hs.2, hs.3, hs.4, hs.5, hs.6⟩ ho htable
  · exact .bind (.modify (.pure (.pass rfl fun _ => rfl)))

/-- What the scan preserves at each frame, it preserves as a whole. -/
theorem scanBelow_glance {index : Nat} {stack : SearchStack Step}
    {J : RaceScan → Exploration Step χ → Prop} (ht : t.Sound p) (hstands : stack.StandsIn t)
    (hstack : x.stack = stack) (h : J scan x)
    (hstep : ∀ l scan y scan' y', y.stack = stack → J scan y →
      Glance precision t e limit (l + 1) scan y scan' y' → J scan' y') :
    Succeeds (Exploration.scanBelow (p.context precision t settings) stack e limit index scan) x
      fun scan' x' => x'.stack = stack ∧ J scan' x' := by
  induction index generalizing scan x with
  | zero => exact .pure ⟨hstack, h⟩
  | succ index ih =>
    subst hstack
    refine .bind ((((scanFrame_answers ht hstands).both scanFrame_steady).both scanFrame_glance).imp
      fun scan' y ⟨⟨_, hsteady⟩, hglance⟩ => ?_)
    exact ih hsteady.stack (hstep index scan x scan' y rfl h hglance)

/-- If the clock knows from `low` on all threads that have made steps below that depend on the new one,
then nothing is required at states that stand below, and the clock goes on to know what it knows. -/
theorem scanBelow_within {index : Nat} (ht : t.Sound p) (hstands : x.stack.StandsIn t)
    (hknown : ∀ j f c, j < low → x.stack.frame? j = some f → f.action = some c →
      Step.Depends precision c e → scan.clock.KnowsFrom low c.process) :
    Succeeds (Exploration.scanBelow (p.context precision t settings) x.stack e limit index scan) x
      fun scan' x' => x'.stack = x.stack ∧
        (∀ q, scan.clock.KnowsFrom low q → scan'.clock.KnowsFrom low q) ∧
        ∀ s, x'.table.get s = x.table.get s ∨ x.stack.StandsFor low limit s := by
  refine scanBelow_glance (J := fun scan' x' =>
    (∀ q, scan.clock.KnowsFrom low q → scan'.clock.KnowsFrom low q) ∧
      ∀ s, x'.table.get s = x.table.get s ∨ x.stack.StandsFor low limit s)
    ht hstands rfl ⟨fun _ h => h, fun _ => .inl rfl⟩ ?_
  rintro l scan₁ y scan' y' hstack ⟨hclock, htable⟩ hglance
  cases hglance with
  | pass hsame hget => exact ⟨fun q hq => hsame ▸ hclock q hq, fun s => hget s ▸ htable s⟩
  | @race f below c origin _ hsighted hordered hget =>
    -- a thread that is known from `low` on is known to come before at lower indices
    have hlow : low ≤ l + 1 := by
      by_contra hlt
      obtain ⟨k, hk, hentry⟩ := hclock _ (hknown _ f c (Nat.lt_of_not_le hlt)
        (hstack ▸ hsighted.frame) hsighted.action hsighted.depends)
      rw [RaceScan.isOrdered, hentry, decide_eq_false_iff_not] at hordered
      omega
    refine ⟨fun q hq => ((hclock q hq).put hlow).join, fun s => ?_⟩
    rcases hget s with hs | ⟨hlimit, hs⟩
    · exact hs ▸ htable s
    · have hbelow := hsighted.belowFrame
      rw [hstack, Nat.add_sub_cancel] at hbelow
      rw [(ht.identity _ _ hsighted.atOrigin).1] at hs
      exact .inr ⟨l, below, hlow, hlimit, hbelow, hs⟩

end Ends

/-! ## Pushes that only look into a node -/

/-- What a push changes that only looks into the node `n`. -/
structure Footprint (low limit : Nat) (n : NodeId) (isNew : Bool) (x x' : Exploration Step χ) :
    Prop where
  sleep : ∀ s, (x'.table.get s).sleep = (x.table.get s).sleep
  explored : ∀ s, (x'.table.get s).explored = (x.table.get s).explored ∨
    isNew = true ∧ ¬x.stack.Holds n ∧ s = ⟨n.index⟩ ∧ (x'.table.get s).explored = ∅
  keeps : ∀ s, ∀ a ∈ (x.table.get s).backtrack.toList, a ∈ (x'.table.get s).backtrack.toList
  backtrack : ∀ s, (x'.table.get s).backtrack = (x.table.get s).backtrack ∨
    x.stack.StandsFor low limit s ∨ isNew = false ∧ s = ⟨n.index⟩ ∧ x.stack.HoldsBelow limit n
  /-- The clocks in the new frame know what those below know. -/
  clocks : isNew = true → ∀ f, x.stack.frame? (x.stack.size - 1) = some f →
    ∃ g, x'.stack.frame? x.stack.size = some g ∧ ∀ r q,
      (SortedMap.getD f.clocks r ∅).KnowsFrom low q → (SortedMap.getD g.clocks r ∅).KnowsFrom low q

/-- After steps have become required, one state gets sets of which only the taken steps are forgotten, or
only the required steps are more. -/
theorem Footprint.of_reset {low limit : Nat} {isNew : Bool} {x₁ : Exploration Step χ}
    {d : Decoration Step} (ht : t.Sound p) (hn : t.node? n = some entry) (hwidens : Widens p t x x₁)
    (hget : ∀ s, x₁.table.get s = x.table.get s ∨ x.stack.StandsFor low limit s)
    (htable : x'.table = x₁.table.reset entry.stateId d)
    (hsleep : d.sleep = (x₁.table.get entry.stateId).sleep)
    (hexplored : d.explored = (x₁.table.get entry.stateId).explored ∨
      isNew = true ∧ ¬x.stack.Holds n ∧ d.explored = ∅)
    (hkeeps : ∀ a ∈ (x.table.get entry.stateId).backtrack.toList, a ∈ d.backtrack.toList)
    (hbacktrack : d.backtrack = (x₁.table.get entry.stateId).backtrack ∨
      isNew = false ∧ x.stack.HoldsBelow limit n)
    (hclocks : isNew = true → ∀ f, x.stack.frame? (x.stack.size - 1) = some f →
      ∃ g, x'.stack.frame? x.stack.size = some g ∧ ∀ r q,
        (SortedMap.getD f.clocks r ∅).KnowsFrom low q → (SortedMap.getD g.clocks r ∅).KnowsFrom low q) :
    Footprint low limit n isNew x x' := by
  have hid := (ht.identity n entry hn).1
  have hscanned : ∀ s, (x₁.table.get s).backtrack = (x.table.get s).backtrack ∨
      x.stack.StandsFor low limit s := fun s => (hget s).imp_left fun hs => by rw [hs]
  refine ⟨fun s => ?_, fun s => ?_, fun s => ?_, fun s => ?_, hclocks⟩ <;>
    rw [htable, DecorationTable.get_reset] <;> split
  case refine_1.isTrue hs => rw [hsleep, hs, hwidens.sleep]
  case refine_1.isFalse => exact hwidens.sleep s
  case refine_2.isTrue hs =>
    subst hs
    exact hexplored.imp (fun h => h.trans (hwidens.explored _)) fun h => ⟨h.1, h.2.1, hid, h.2.2⟩
  case refine_2.isFalse => exact .inl (hwidens.explored s)
  case refine_3.isTrue hs => exact hs ▸ hkeeps
  case refine_3.isFalse => exact hwidens.keeps s
  case refine_4.isTrue hs =>
    subst hs
    rcases hbacktrack with hsame | hrefused
    · exact (hscanned _).imp hsame.trans .inl
    · exact .inr (.inr ⟨hrefused.1, hid, hrefused.2⟩)
  case refine_4.isFalse => exact (hscanned s).imp_right .inl

/-- The clock of the thread of `a` in the top frame knows from `low` on all other threads that have made
steps below that depend on `a`. -/
def SearchStack.KnowsRivals (precision : Precision) (stack : SearchStack Step) (low : Nat) (a : Step) :
    Prop :=
  ∀ top j f c, stack.frame? (stack.size - 1) = some top → j < low → stack.frame? j = some f →
    f.action = some c → c.process ≠ a.process → Step.Depends precision c a →
    (SortedMap.getD top.clocks a.process ∅).KnowsFrom low c.process

/-- Nothing has to be known if no frame is to be spared. -/
theorem SearchStack.knowsRivals_zero {stack : SearchStack Step} :
    stack.KnowsRivals precision 0 a := by
  intro top j f c _ hj
  omega

/-- The scan of `a` starts with a clock that knows all threads whose steps below depend on `a`, its own
one included. -/
theorem SearchStack.KnowsRivals.start {stack : SearchStack Step} {low j : Nat} {last f : Frame Step}
    (h : stack.KnowsRivals precision low a) (hlast : stack.frame? (stack.size - 1) = some last)
    (hlow : low ≤ stack.size) (hj : j < low) (hf : stack.frame? j = some f) (hc : f.action = some c)
    (hdepends : Step.Depends precision c a) :
    (Exploration.RaceScan.start last a.process stack.size).clock.KnowsFrom low c.process := by
  by_cases hown : c.process = a.process
  · rw [hown]
    exact .put_self hlow
  · exact (h last j f c hlast hj hf hc hown hdepends).put hlow

/-- What the clock of a thread knows in the top frame, it knows in a frame that is put on top. -/
theorem Footprint.knowsRivals {low limit : Nat} (h : Footprint low limit n true x x')
    (hrests : x.stack.Rests x.stack.size x'.stack) (hsize : x'.stack.size = x.stack.size + 1)
    (hpos : 0 < x.stack.size) (hlow : low ≤ x.stack.size)
    (hknown : x.stack.KnowsRivals precision low a) : x'.stack.KnowsRivals precision low a := by
  intro top j f c htop hj hf hc hother hdepends
  obtain ⟨last, hlast⟩ := SearchStack.exists_top hpos
  obtain ⟨g, hg, hclocks⟩ := h.clocks rfl last hlast
  rw [hsize, Nat.add_sub_cancel] at htop
  obtain rfl := Option.some.inj (htop.symm.trans hg)
  obtain ⟨locks, hf'⟩ := hrests.exists_frame (Nat.lt_of_lt_of_le hj hlow) (Nat.le_refl _) hf
  exact hclocks _ _ (hknown last j _ c hlast hj hf' hc hother hdepends)

namespace Ends

open Exploration

variable [ChoiceSource χ] [LawfulChoiceSource χ] {limit low : Nat}

theorem push_footprint (ht : t.Sound p) (h : Orderly p t x) (hn : t.node? n = some entry)
    (hparent : entry.parent = some m) (hentered : entry.action = some a) (hsize : 0 < x.stack.size)
    (hlow : low ≤ x.stack.size) (hlooked : ¬(x.stack.size ≤ limit ∧ x.stack.topNode? = some m))
    (hknown : x.stack.KnowsRivals precision low a) :
    Yields (Exploration.push (p.context precision t settings) n limit) x fun isNew x' =>
      Footprint low limit n isNew x x' := by
  obtain ⟨last, hlast⟩ := SearchStack.exists_top hsize
  have htop : x.stack.topNode? = some last.node :=
    SearchStack.topNode?_eq_some_iff.2 ⟨last, hlast, rfl⟩
  obtain ⟨k, -, hedge⟩ := ht.exists_parent_of_action hn hentered
  have hstep := (ht.canRun hedge).hasStep
  unfold Exploration.push
  refine .bind (.lookUp_of_node? hn ?_)
  rw [hentered]
  refine (pushStep ht hn hlast (((scanBelow_within ht h.stands fun _ _ _ => hknown.start hlast hlow).both
    (scanBelow_widens h.genuine hstep rfl)).mono (fun _ _ h => h) nofun) fun _ _ hx => hx.1.1).imp ?_
  rintro isNew x' ⟨scan, x₁, before, ⟨⟨hstack, hclock, hget⟩, hwidens⟩, -, hpushed⟩
  cases hpushed with
  | refused _ _ htable =>
    rcases htable with htable | ⟨hbelow, htable⟩
    · refine ⟨fun s => ?_, fun s => .inl ?_, fun s => ?_, fun s => ?_, nofun⟩ <;> rw [htable]
      · exact hwidens.sleep s
      · exact hwidens.explored s
      · exact hwidens.keeps s
      · exact (hget s).imp (fun hs => by rw [hs]) .inl
    · -- all that can run is required, so what was required before is kept
      refine .of_reset ht hn hwidens hget htable rfl (.inl rfl) (fun b hb => ?_)
        (.inr ⟨rfl, hstack ▸ hbelow⟩) nofun
      exact Program.mem_enabledSet_iff.2 ((h.agrees n entry hn).required b hb)
  | visited habsent _ hinstalled =>
    -- the state keeps its sets, but for what has been taken; the new frame carries all clocks on
    refine .of_reset ht hn hwidens hget hinstalled.table rfl (.inr ⟨rfl, hstack ▸ habsent, rfl⟩)
      (hwidens.keeps entry.stateId) (.inl rfl) fun _ f hf => ?_
    obtain rfl : last = f := Option.some.inj (hlast.symm.trans hf)
    obtain ⟨s, spawned, acquired, released, hrelocks, -, hstack'⟩ := hinstalled.stack
    rw [hstack', SearchStack.frame?_push, hrelocks.size_eq, hstack, if_pos rfl]
    refine ⟨_, rfl, fun r q hq => knowsFrom_nextFrame hq ?_⟩
    rintro rfl
    exact hclock q (hq.put hlow)
  | entered _ hle hchild =>
    -- the node is no child of the current one on a stack that is not above the limit
    obtain rfl : m = last.node := Option.some.inj (hparent.symm.trans hchild)
    exact absurd ⟨hstack ▸ hle, htop⟩ hlooked

end Ends

end Interleaving
