import Interleaving.Proofs.Operations

/-!
# Operations that come to an answer

An operation of an exploration halts on its own only where the tree, the source of choices or the sets
of a state break their promises. If the nodes on the stack stand in the tree (`SearchStack.StandsIn`),
a scan, a push and a pop come to an answer, and only a push for a node whose parent is the current one
counts as a push (`Ends.pushStep_account`).
-/

namespace Interleaving

variable {p : Program} {precision : Precision} {t : SearchTree ProgramState Step}
  {settings : Settings} {χ : Type} {x x' x'' : Exploration Step χ} {n : NodeId}
  {entry : SearchTree.Node ProgramState Step} {a : Step}

/-! ## Stacks of nodes of the tree -/

namespace SearchStack

variable {s s' : SearchStack Step} {size : Nat} {f : Frame Step}

/-- All frames stand for nodes of the tree. -/
def StandsIn (t : SearchTree ProgramState Step) (s : SearchStack Step) : Prop :=
  ∀ i f, s.frame? i = some f → ∃ e, t.node? f.node = some e

namespace StandsIn

theorem empty : (({} : SearchStack Step)).StandsIn t := fun i f hf => by
  simp [frame?] at hf

theorem shrink (h : s.StandsIn t) (hs : Prefix size s s') : s'.StandsIn t :=
  fun i f hf => h i f (hs.frame i f hf)

theorem relocks (h : s.StandsIn t) (hs : s.Relocks s') : s'.StandsIn t := by
  intro i f hf
  obtain ⟨locks, hf'⟩ := hs.exists_frame hf
  exact h i { f with locks } hf'

theorem push (h : s.StandsIn t) (hf : ∃ e, t.node? f.node = some e) : (s.push f).StandsIn t := by
  intro i g hg
  rw [frame?_push] at hg
  split at hg
  · exact Option.some.inj hg ▸ hf
  · exact h i g hg

theorem of_top (h : s.StandsIn t) (htop : s.topNode? = some n) : ∃ e, t.node? n = some e := by
  obtain ⟨i, f, hf, rfl⟩ := holds_top htop
  exact h i f hf

end StandsIn

end SearchStack

/-! ## Accounts -/

namespace Counters

variable {c c' : Counters}

/-- What is counted of frames and of edges taken again; nothing of races, locks, cut-offs and rounds. -/
def account (c : Counters) : Counters :=
  { pushes := c.pushes, virtualPushes := c.virtualPushes, pops := c.pops, cycles := c.cycles
    lazyReplays := c.lazyReplays }

@[simp] theorem pushes_account : c.account.pushes = c.pushes := rfl

@[simp] theorem virtualPushes_account : c.account.virtualPushes = c.virtualPushes := rfl

@[simp] theorem pops_account : c.account.pops = c.pops := rfl

@[simp] theorem cycles_account : c.account.cycles = c.cycles := rfl

@[simp] theorem lazyReplays_account : c.account.lazyReplays = c.lazyReplays := rfl

/-- The counters after a push for a node. It is refused unless the node is new, and counts apart unless
the node is explored as a child of the current one. -/
def afterPush (isNew isReal : Bool) (c : Counters) : Counters :=
  match isNew, isReal with
  | false, _ => { c with cycles := c.cycles + 1 }
  | true, true => { c with pushes := c.pushes + 1 }
  | true, false => { c with virtualPushes := c.virtualPushes + 1 }

theorem pushes_afterPush (isNew isReal : Bool) :
    (c.afterPush isNew isReal).pushes = c.pushes + if isNew = true ∧ isReal = true then 1 else 0 := by
  cases isNew <;> cases isReal <;> rfl

/-- The counters after a frame has been taken away. -/
def afterPop (c : Counters) : Counters := { c with pops := c.pops + 1 }

/-- The counters after an edge of an earlier round has been taken. -/
def afterReplay (c : Counters) : Counters := { c with lazyReplays := c.lazyReplays + 1 }

end Counters

/-! ## Scans and pushes -/

/-- The stack is the same, and the account of frames. -/
structure Steady (x x' : Exploration Step χ) : Prop where
  stack : x'.stack = x.stack
  account : x'.counters.account = x.counters.account

namespace Steady

theorem refl (x : Exploration Step χ) : Steady x x := ⟨rfl, rfl⟩

theorem trans (h : Steady x x') (h' : Steady x' x'') : Steady x x'' :=
  ⟨h'.stack.trans h.stack, h'.account.trans h.account⟩

theorem pushes (h : Steady x x') : x'.counters.pushes = x.counters.pushes := by
  simpa using congrArg Counters.pushes h.account

end Steady

namespace Ends

open Exploration

variable [ChoiceSource χ] {limit index : Nat}

theorem requireOne_steady {E : Exploration Step χ → Prop} {s : StateId} {options : ActionSet Step} :
    Ends (Exploration.requireOne s options : ExploreM Step χ Empty _) x (fun _ x' => Steady x x') E := by
  unfold Exploration.requireOne
  refine .bind (.modify (.bind (.get ?_)))
  split
  · exact .pure ⟨rfl, rfl⟩
  · refine .bind (.choose_any fun r choices => ?_)
    cases r with
    | none => exact .pure ⟨rfl, rfl⟩
    | some b => exact .bind (.modify (.modify ⟨rfl, rfl⟩))

/-- A race that is reversed is recorded in the scan, or the scan goes on as it is. -/
theorem reverseRace_steady {stack : SearchStack Step} {f : Frame Step} {c e : Step}
    {scan : RaceScan} :
    Yields (Exploration.reverseRace (p.context precision t settings) stack limit index f c e scan) x
      fun scan' x' => Steady x x' ∧ (scan' = scan ∨ scan' = scan.order c.process index f) := by
  unfold Exploration.reverseRace
  refine .bind (.ask (reversingRun_system stack index c e) ?_)
  split
  · exact .pure ⟨.refl x, .inl rfl⟩
  · refine .bind (.lookUp fun origin _ => .bind (.enabledAt (.bind (.get ?_))))
    obtain ⟨options, hoptions⟩ := exists_ok_of_empty (initials (p.system precision)
      ((p.enabledSet origin.state).difference (x.table.get origin.stateId).asleep)
      (reversingSteps precision c (chainedActions t stack (index + 1)) e))
    refine .bind (.ask hoptions ?_)
    split
    · exact .bind (.modify (.pure ⟨⟨rfl, rfl⟩, .inl rfl⟩))
    · split
      · exact .bind (requireOne_steady.imp fun _ _ hx => .pure ⟨hx, .inr rfl⟩)
      · exact .pure ⟨.refl x, .inr rfl⟩

/-- At one frame, the scan goes on as it is, leaves out a process, or records that the step there, on
which the new one depends, comes before it. -/
theorem scanFrame_scans {stack : SearchStack Step} {e : Step} {scan : RaceScan} :
    Yields (Exploration.scanFrame (p.context precision t settings) stack e limit index scan) x
      fun scan' x' => Steady x x' ∧ (scan' = scan ∨ (∃ q, scan' = scan.drop q) ∨
        ∃ f c, stack.frame? index = some f ∧ f.action = some c ∧ Step.Depends precision c e ∧
          scan' = scan.order c.process index f) := by
  unfold Exploration.scanFrame
  split
  · exact .pure ⟨.refl x, .inl rfl⟩
  rename_i f hf
  split
  · exact .pure ⟨.refl x, .inl rfl⟩
  rename_i c hc
  dsimp only
  split
  · exact .pure ⟨.refl x, .inl rfl⟩
  split
  · exact .pure ⟨.refl x, .inr (.inl ⟨_, rfl⟩)⟩
  -- only a dependent step can be recorded
  refine .bind (.ask (b := Step.dependent precision c e) rfl ?_)
  split
  · exact .pure ⟨.refl x, .inl rfl⟩
  rename_i hdepends
  split
  · exact .pure ⟨.refl x, .inl rfl⟩
  refine .bind (.lookUp fun before _ => .bind (.ask (b := Step.reversible before.state c e) rfl ?_))
  split
  · refine .bind (.modify (reverseRace_steady.imp fun scan' x' ⟨hx', hscan⟩ => ?_))
    refine ⟨⟨hx'.stack, hx'.account⟩, hscan.imp_right fun hscan => .inr ⟨f, c, hf, hc, ?_, hscan⟩⟩
    simpa using hdepends
  · exact .bind (.modify (.pure ⟨⟨rfl, rfl⟩, .inl rfl⟩))

/-- What the scan keeps at each frame, it keeps as a whole. -/
theorem scanBelow_scans {stack : SearchStack Step} {e : Step} {scan : RaceScan} {J : RaceScan → Prop}
    (h : J scan) (hdrop : ∀ scan q, J scan → J (scan.drop q))
    (horder : ∀ l f c scan, stack.frame? (l + 1) = some f → f.action = some c →
      Step.Depends precision c e → J scan → J (scan.order c.process (l + 1) f)) :
    Yields (Exploration.scanBelow (p.context precision t settings) stack e limit index scan) x
      fun scan' x' => J scan' ∧ Steady x x' := by
  induction index generalizing scan x with
  | zero => exact .pure ⟨h, .refl x⟩
  | succ index ih =>
    refine .bind (scanFrame_scans.imp fun scan₁ x₁ ⟨hx₁, hscan⟩ => ?_)
    have hJ : J scan₁ := by
      obtain rfl | ⟨q, rfl⟩ | ⟨f, c, hf, hc, hdepends, rfl⟩ := hscan
      · exact h
      · exact hdrop scan q h
      · exact horder index f c scan hf hc hdepends h
    exact (ih hJ).imp fun _ _ ⟨hJ', hx'⟩ => ⟨hJ', hx₁.trans hx'⟩

theorem scanFrame_steady {stack : SearchStack Step} {e : Step} {scan : RaceScan} :
    Yields (Exploration.scanFrame (p.context precision t settings) stack e limit index scan) x
      fun _ x' => Steady x x' := scanFrame_scans.imp fun _ _ h => h.1

theorem scanBelow_steady {stack : SearchStack Step} {e : Step} {scan : RaceScan} :
    Yields (Exploration.scanBelow (p.context precision t settings) stack e limit index scan) x
      fun _ x' => Steady x x' :=
  (scanBelow_scans (J := fun _ => True) trivial (fun _ _ _ => trivial)
    fun _ _ _ _ _ _ _ _ => trivial).imp fun _ _ h => h.2

theorem reverseRace_answers {stack : SearchStack Step} {f : Frame Step} {c e : Step}
    {scan : RaceScan} (hstands : stack.StandsIn t) :
    Succeeds (Exploration.reverseRace (p.context precision t settings) stack limit index f c e scan) x
      fun _ _ => True := by
  unfold Exploration.reverseRace
  refine .bind (.ask (reversingRun_system stack index c e) ?_)
  split
  · exact .pure trivial
  · rename_i below hbelow
    obtain ⟨origin, horigin⟩ := hstands _ below hbelow
    refine .bind (.lookUp_of_node? horigin (.bind (.enabledAt (.bind (.get ?_)))))
    obtain ⟨options, hoptions⟩ := exists_ok_of_empty (initials (p.system precision)
      ((p.enabledSet origin.state).difference (x.table.get origin.stateId).asleep)
      (reversingSteps precision c (chainedActions t stack (index + 1)) e))
    refine .bind (.ask hoptions ?_)
    split
    · exact .bind (.modify (.pure trivial))
    · split
      · exact .bind (requireOne_steady.imp fun _ _ _ => .pure trivial)
      · exact .pure trivial

theorem scanFrame_answers {stack : SearchStack Step} {e : Step} {scan : RaceScan} (ht : t.Sound p)
    (hstands : stack.StandsIn t) :
    Succeeds (Exploration.scanFrame (p.context precision t settings) stack e limit index scan) x
      fun _ _ => True := by
  unfold Exploration.scanFrame
  split
  · exact .pure trivial
  rename_i f hf
  split
  · exact .pure trivial
  rename_i c hc
  dsimp only
  split
  · exact .pure trivial
  split
  · exact .pure trivial
  refine .bind (.ask (b := Step.dependent precision c e) rfl ?_)
  split
  · exact .pure trivial
  split
  · exact .pure trivial
  rename_i source hsource
  -- the one place where the scan could halt: the parent is a node of the tree
  obtain ⟨d, hd, hparent⟩ := SearchTree.parent_eq_some_iff.1 hsource
  obtain ⟨before, -, hbefore, -⟩ := ht.edge f.node d source hd hparent
  refine .bind (.lookUp_of_node? hbefore ?_)
  refine .bind (.ask (b := Step.reversible before.state c e) rfl ?_)
  split
  · exact .bind (.modify (reverseRace_answers hstands))
  · exact .bind (.modify (.pure trivial))

theorem scanBelow_answers {stack : SearchStack Step} {e : Step} {scan : RaceScan} (ht : t.Sound p)
    (hstands : stack.StandsIn t) :
    Succeeds (Exploration.scanBelow (p.context precision t settings) stack e limit index scan) x
      fun _ _ => True := by
  induction index generalizing scan x with
  | zero => exact .pure trivial
  | succ index ih => exact .bind ((scanFrame_answers ht hstands).imp fun _ _ _ => ih)

theorem freshDecoration_steady {E : Exploration Step χ → Prop} {sleep : ActionSet Step} :
    Ends (Exploration.freshDecoration (p.context precision t settings) entry a sleep) x
      (fun _ x' => Steady x x') E := by
  obtain ⟨S, hS, -⟩ := @inheritedSleep_system p precision a t settings sleep
  unfold Exploration.freshDecoration
  refine .bind (.ask hS (.bind (.enabledAt ?_)))
  dsimp only
  split
  · exact .bind (.choose_any fun _ _ => .pure ⟨rfl, rfl⟩)
  · exact .bind (.pure (.pure (.refl x)))

/-- The parts of a push for a node reached by a step: the scan, and the end once the sets of the state
are chosen. Neither the scan nor the choice changes the stack. -/
theorem pushStep_parts {last : Frame Step} {R : RaceScan → Prop}
    {Q : Bool → Exploration Step χ → Prop} {E : Exploration Step χ → Prop}
    (hlast : x.stack.frame? (x.stack.size - 1) = some last)
    (hscan : Ends (Exploration.scanBelow (p.context precision t settings) x.stack a limit
      (x.stack.size - 1) (.start last a.process x.stack.size)) x
        (fun scan x₁ => R scan ∧ Steady x x₁) E)
    (hbefore : ∀ x₁, Steady x x₁ →
      Ends (Exploration.lookUp (p.context precision t settings) last.node) x₁
        (fun before x₂ => t.node? last.node = some before ∧ x₂ = x₁) E)
    (hrefuse : ∀ x₂ i, Steady x x₂ →
      Ends (Exploration.refuseCycle (p.context precision t settings) entry i limit) x₂ Q E)
    (hinstall : ∀ x₂ scan before d, Steady x x₂ → R scan → t.node? last.node = some before →
      Ends (do
        Exploration.installFrame (p.context precision t settings) n entry last before a scan.clock d
          (limit < x.stack.size || entry.parent != some last.node)
        Pure.pure true) x₂ Q E) :
    Ends (Exploration.pushStep (p.context precision t settings) n entry a limit) x Q E := by
  have hlast' : x.stack.top? = some last := SearchStack.top?_eq.trans hlast
  unfold Exploration.pushStep
  refine .bind (.get ?_)
  dsimp only
  rw [hlast']
  refine .bind (hscan.imp fun scan x₁ ⟨hscanned, hx₁⟩ => ?_)
  refine .bind ((hbefore x₁ hx₁).imp ?_)
  rintro before _ ⟨hbefore, rfl⟩
  split
  · exact .bind (.get (.bind (.pure (finishPush (fun i _ => hrefuse _ i hx₁)
      fun _ => hinstall _ scan before _ hx₁ hscanned hbefore))))
  · refine .bind (.get (.bind (freshDecoration_steady.imp fun d x₂ hx₂ => ?_)))
    exact finishPush (fun i _ => hrefuse x₂ i (hx₁.trans hx₂))
      fun _ => hinstall x₂ scan before d (hx₁.trans hx₂) hscanned hbefore

/-- A push for a node reached by a step comes to an answer. It counts as one if the node was not on the
stack and is explored as a child of the current one. -/
theorem pushStep_account (ht : t.Sound p) (hstands : x.stack.StandsIn t) (hsize : 0 < x.stack.size) :
    Succeeds (Exploration.pushStep (p.context precision t settings) n entry a limit) x
      fun isNew x' => x'.counters.account = x.counters.account.afterPush isNew
        (decide (x.stack.size ≤ limit ∧ x.stack.topNode? = entry.parent)) := by
  obtain ⟨last, hlast⟩ := SearchStack.exists_top hsize
  obtain ⟨before, hbefore⟩ := hstands _ last hlast
  have htop : x.stack.topNode? = some last.node :=
    SearchStack.topNode?_eq_some_iff.2 ⟨last, hlast, rfl⟩
  -- what is looked into is what lies above the limit, or not below the current node
  have hvirtual : (decide (limit < x.stack.size) || entry.parent != some last.node) =
      !decide (x.stack.size ≤ limit ∧ x.stack.topNode? = entry.parent) := by
    rw [htop, Bool.eq_iff_iff]
    simp only [Bool.or_eq_true, decide_eq_true_eq, bne_iff_ne, ne_eq, Bool.not_eq_true',
      decide_eq_false_iff_not, not_and_or, not_le]
    exact or_congr_right (not_congr eq_comm)
  refine pushStep_parts (R := fun _ => True) hlast
    (((scanBelow_answers ht hstands).both scanBelow_steady).imp fun _ _ h => h)
    (fun x₁ _ => .lookUp_of_node? hbefore ⟨hbefore, rfl⟩) (fun x₂ position hx₂ => ?_)
    fun x₂ scan before d hx₂ _ _ => ?_
  · rw [← hx₂.account]
    unfold Exploration.refuseCycle
    split
    · exact .bind (.enabledAt (.bind (.modify (.bind (.modify (.pure rfl))))))
    · exact .bind (.modify (.pure rfl))
  · rw [hvirtual, ← hx₂.account]
    unfold Exploration.installFrame
    refine .bind (.bind (.get (.bind (.modify (.bind (.modify (.bind (.modify ?_))))))))
    cases decide (x.stack.size ≤ limit ∧ x.stack.topNode? = entry.parent) <;>
      exact .modify (.pure rfl)

theorem pushStep_pushes (ht : t.Sound p) (hstands : x.stack.StandsIn t) (hsize : 0 < x.stack.size) :
    Succeeds (Exploration.pushStep (p.context precision t settings) n entry a limit) x
      fun isNew x' => x'.counters.pushes = x.counters.pushes +
        if isNew = true ∧ x.stack.size ≤ limit ∧ x.stack.topNode? = entry.parent then 1 else 0 := by
  refine (pushStep_account ht hstands hsize).imp fun isNew x' hx' => ?_
  have hpushes := congrArg Counters.pushes hx'
  simpa only [Counters.pushes_afterPush, Counters.pushes_account, decide_eq_true_eq] using hpushes

/-! ## Pops -/

omit [ChoiceSource χ] in
/-- A pop takes a frame away, if there is one. -/
theorem popFrame_account (hstands : x.stack.StandsIn t) :
    Succeeds (Exploration.popFrame (p.context precision t settings)) x fun _ x' =>
      x'.counters.account =
        if x.stack.size = 0 then x.counters.account else x.counters.account.afterPop := by
  unfold Exploration.popFrame
  refine .bind (.get ?_)
  dsimp only
  split
  · rename_i hnone
    rw [if_pos (SearchStack.topNode?_eq_none_iff.1 (Option.map_eq_none_iff.2 hnone))]
    exact .pure rfl
  · rename_i top htop
    have hsize : x.stack.size ≠ 0 := SearchStack.size_ne_zero (congrArg (Option.map Frame.node) htop)
    rw [if_neg hsize]
    split
    · rename_i below lock locks hbelow _
      obtain ⟨e, he⟩ := hstands _ below hbelow
      split
      · refine .bind (.bind (.lookUp_of_node? he (.bind (.enabledAt (.bind (.get ?_))))))
        exact .bind (.modify (.modify (.bind (.modify (.modify rfl)))))
      · exact .bind (.modify (.modify rfl))
    · exact .bind (.modify (.modify rfl))

omit [ChoiceSource χ] in
theorem popFrame_pushes (hstands : x.stack.StandsIn t) :
    Succeeds (Exploration.popFrame (p.context precision t settings)) x
      fun _ x' => x'.counters.pushes = x.counters.pushes := by
  refine (popFrame_account hstands).imp fun _ x' hx' => ?_
  have hpushes := congrArg Counters.pushes hx'
  split at hpushes <;> exact hpushes

end Ends

end Interleaving
