import Interleaving.Proofs.Climbs
import Interleaving.Proofs.Turns

/-!
# What a round counts

The counters of an exploration are its accounts. A frame is pushed for the root, for each step performed
and for each edge of an earlier round; a frame that has been pushed is on the stack until it is popped;
and no node is refused (`Balanced`). So the accounts of each round can be checked against what it has
done (`Engine.round_accounts`).
-/

namespace Interleaving

variable {p : Program} {precision : Precision} {t t' : SearchTree ProgramState Step}
  {settings : Settings} {χ : Type} {x x' y : Exploration Step χ} {n m c : NodeId}
  {entry : SearchTree.Node ProgramState Step} {a : Step} {before : Counters} {entered : Nat}

theorem SearchTree.Retains.depth_eq (h : t.Retains t') (hn : ∃ e, t.node? n = some e) :
    t'.depth n = t.depth n := by
  obtain ⟨e, he⟩ := hn
  obtain ⟨e', he', -, -, hstate⟩ := h n e he
  rw [depth, depth, state_eq he, state_eq he', hstate]

/-! ## Accounts that balance -/

namespace Counters

/-- The counters of a round that has begun with the counters `before`: the given number of nodes has been
entered apart from those reached by edges of earlier rounds, and `height` frames are on the stack. -/
structure Balance (before : Counters) (entered height : Nat) (c : Counters) : Prop where
  entered : ∃ replays, c.lazyReplays = before.lazyReplays + replays ∧
    c.pushes = before.pushes + entered + replays
  /-- Each frame is on the stack until it is popped. -/
  frames : c.pushes + before.pops = before.pushes + c.pops + height
  /-- No node has been refused. -/
  cycles : c.cycles = before.cycles

namespace Balance

variable {before c : Counters} {entered height : Nat}

theorem refl (c : Counters) : c.Balance 0 0 c := ⟨⟨0, rfl, rfl⟩, rfl, rfl⟩

theorem push (h : before.Balance entered height c) :
    before.Balance (entered + 1) (height + 1) (c.afterPush true true) := by
  obtain ⟨⟨replays, hreplays, hpushes⟩, hframes, hcycles⟩ := h
  refine ⟨⟨replays, hreplays, ?_⟩, ?_, hcycles⟩ <;> dsimp only [afterPush] <;> omega

/-- The node pushed is reached by an edge of an earlier round. -/
theorem replay (h : before.Balance entered height c) :
    before.Balance entered (height + 1) (c.afterReplay.afterPush true true) := by
  obtain ⟨⟨replays, hreplays, hpushes⟩, hframes, hcycles⟩ := h
  refine ⟨⟨replays + 1, ?_, ?_⟩, ?_, hcycles⟩ <;> dsimp only [afterReplay, afterPush] <;> omega

theorem pop (h : before.Balance entered (height + 1) c) :
    before.Balance entered height c.afterPop := by
  obtain ⟨⟨replays, hreplays, hpushes⟩, hframes, hcycles⟩ := h
  refine ⟨⟨replays, hreplays, hpushes⟩, ?_, hcycles⟩
  dsimp only [afterPop]
  omega

end Balance

end Counters

/-- The accounts balance, and no node is refused. -/
structure Balanced (t : SearchTree ProgramState Step) (before : Counters) (entered : Nat)
    (x : Exploration Step χ) : Prop where
  climbs : x.stack.Climbs t
  balance : before.plain.Balance entered x.stack.size x.counters.plain

namespace Balanced

/-- A round starts with the root. -/
theorem start (ht : t.Sound p) (hempty : x.stack.size = 0)
    (hstack : x'.stack = x.stack.push (.root SearchTree.root))
    (haccount : x'.counters.account = x.counters.account.afterPush true true) :
    Balanced t x.counters 1 x' := by
  have hplain : x'.counters.plain = x.counters.plain.afterPush true true := by
    rw [Counters.plain, haccount]
    rfl
  constructor
  · intro i f hf
    rw [hstack, SearchStack.frame?_push, hempty] at hf
    split at hf
    · rename_i hi
      rw [← Option.some.inj hf, hi]
      exact ht.depth_root
    · have := SearchStack.frame?_lt hf
      omega
  · rw [hplain, hstack, SearchStack.size_push, hempty]
    exact (Counters.Balance.refl _).push

variable (h : Balanced t before entered x)
include h

/-- What is counted apart does not matter. -/
theorem of_plain (hclimbs : x'.stack.Climbs t) (hsize : x'.stack.size = x.stack.size)
    (hplain : x'.counters.plain = x.counters.plain) : Balanced t before entered x' :=
  ⟨hclimbs, by rw [hplain, hsize]; exact h.balance⟩

theorem keep (hstack : x'.stack = x.stack) (haccount : x'.counters.account = x.counters.account) :
    Balanced t before entered x' :=
  h.of_plain (hstack ▸ h.climbs) (congrArg SearchStack.size hstack) (Counters.plain_eq haccount)

/-- A node is entered. -/
theorem enter (hclimbs : x'.stack.Climbs t) (hsize : x'.stack.size = x.stack.size + 1)
    (haccount : x'.counters.account = x.counters.account.afterPush true true) :
    Balanced t before (entered + 1) x' := by
  have hplain : x'.counters.plain = x.counters.plain.afterPush true true := by
    rw [Counters.plain, haccount]
    rfl
  exact ⟨hclimbs, by rw [hplain, hsize]; exact h.balance.push⟩

/-- A node is entered by an edge of an earlier round. -/
theorem replay (hclimbs : x'.stack.Climbs t) (hsize : x'.stack.size = x.stack.size + 1)
    (haccount : x'.counters.account = x.counters.account.afterReplay.afterPush true true) :
    Balanced t before entered x' := by
  have hplain : x'.counters.plain = x.counters.plain.afterReplay.afterPush true true := by
    rw [Counters.plain, haccount]
    rfl
  exact ⟨hclimbs, by rw [hplain, hsize]; exact h.balance.replay⟩

/-- The current node is given up. -/
theorem pop (hsize : x.stack.size ≠ 0) (hstack : x'.stack = x.stack.pop)
    (haccount : x'.counters.account = x.counters.account.afterPop) : Balanced t before entered x' := by
  have hplain : x'.counters.plain = x.counters.plain.afterPop := by
    rw [Counters.plain, haccount]
    rfl
  have hheight : x.stack.size = x'.stack.size + 1 := by
    rw [hstack, SearchStack.size_pop]
    omega
  exact ⟨hstack ▸ h.climbs.pop, by rw [hplain]; exact (hheight ▸ h.balance).pop⟩

/-- The tree may change, if its nodes keep their states. -/
theorem retree (hstands : x.stack.StandsIn t) (hretains : t.Retains t') :
    Balanced t' before entered x := by
  refine ⟨fun i f hf => ?_, h.balance⟩
  rw [hretains.depth_eq (hstands i f hf)]
  exact h.climbs i f hf

end Balanced

/-! ## Operations -/

namespace Ledger

open Exploration

variable {pushed : List NodeId} [ChoiceSource χ] [LawfulChoiceSource χ]
variable (ht : t.Sound p) (hfaithful : t.Faithful) (horderly : Orderly p t x) (h : Ledger t pushed x)
  (hbalanced : Balanced t before entered x)
include ht hfaithful horderly h hbalanced

omit hfaithful h in
/-- A child of the current node is added. -/
theorem add_balanced (htop : x.stack.topNode? = some m) (hedge : t.Edge m a c) :
    Succeeds (Exploration.add (p.context precision t settings) c) x fun _ x' =>
      Balanced t before (entered + 1) x' :=
  (Ends.addChild_climbs ht horderly hbalanced.climbs htop hedge).imp
    fun _ _ ⟨hclimbs, hsize, haccount⟩ => hbalanced.enter hclimbs hsize haccount

omit hfaithful h in
/-- An edge of an earlier round is taken again. -/
theorem replayEdge_balanced (htop : x.stack.topNode? = some n) (hn : t.node? n = some entry)
    (hedge : (c, a) ∈ replayableEdges (p.context precision t settings) x.table entry) :
    Succeeds (do
      Exploration.recordTaken entry.stateId (p.enabledSet entry.state) a
      Exploration.count fun c => { c with lazyReplays := c.lazyReplays + 1 }
      Exploration.add (p.context precision t settings) c) x fun _ x' => Balanced t before entered x' := by
  refine horderly.replayEdge ht htop hn hedge fun y htrail hstack haccount _ _ hedge => ?_
  have hclimbs : y.stack.Climbs t := hstack ▸ hbalanced.climbs
  refine (Ends.addChild_climbs ht (Move.orderly_trail ht horderly htrail) hclimbs (hstack ▸ htop)
    hedge).imp fun _ x' ⟨hclimbs', hsize, haccount'⟩ => ?_
  rw [haccount] at haccount'
  exact hbalanced.replay hclimbs' (by rw [hsize, hstack]) haccount'

/-- The walk below the node that covers the current one. -/
theorem virtualExploration_balanced (htop : x.stack.topNode? = some n) (hn : t.node? n = some entry)
    (hcovering : entry.covering = some c) :
    Yields (virtualExploration (p.context precision t settings) c) x fun _ x' =>
      Balanced t before entered x' := by
  have hlive := h.live n (h.of_top htop)
  exact (Ends.virtualExploration_climbs ht hfaithful horderly hbalanced.climbs htop hlive hn
    hcovering).imp fun _ x' ⟨hclimbs, hplain, hsize⟩ => hbalanced.of_plain hclimbs hsize hplain

/-- The question for the end of a round. -/
theorem isEmpty_balanced (hclosed : t.Closed) (hbare : t.Bare) :
    Succeeds (Exploration.isEmpty (p.context precision t settings)) x fun _ x' =>
      Balanced t before entered x' := by
  refine (h.isEmpty_preserves (J := fun y => Balanced t before entered y) ht horderly hclosed hbare
    hbalanced (fun y y' hy hstack _ haccount => hy.keep hstack haccount) ?_ ?_ ?_).imp
    fun _ _ hx' => hx'.1.2
  · exact fun n e c htop hn hcovering =>
      h.virtualExploration_balanced ht hfaithful horderly hbalanced htop hn hcovering
  · exact fun y n e c a hy horderly' htop hn hedge =>
      (replayEdge_balanced ht horderly' hy htop hn hedge).yields
  · intro y n hy horderly' htop
    have hsize := SearchStack.size_ne_zero htop
    refine ((Ends.popFrame_account horderly'.stands).both Ends.popFrame).yields.imp
      fun _ y' ⟨haccount, hpopped⟩ => ?_
    rw [if_neg hsize] at haccount
    exact hy.pop hsize hpopped.stack haccount

end Ledger

/-! ## Rounds -/

namespace Engine

variable {settings : EngineSettings} {s₀ : Search ProgramState Step Seeded} {tally : Tally}
  {e e' start : Engine} {progress progress' : Progress}

/-- The accounts of a round that has begun with the given counters, when the engine has performed the
steps that follow after `executed`. -/
def Accounts (before : Counters) (executed : Array Step) (e : Engine) : Prop :=
  ∃ steps, e.executed = executed ++ steps ∧
    Balanced e.tree before (1 + steps.size) e.search.exploration

/-- The turns of a round keep its accounts. -/
theorem turnsKeep_accounts {executed : Array Step} :
    TurnsKeep p settings s₀ (Accounts before executed) where
  isEmpty := by
    rintro e tally b x h ⟨steps, hexecuted, hbalanced⟩ hempty
    rw [h.context_eq] at hempty
    exact ⟨steps, hexecuted, (h.ledger.isEmpty_balanced h.orderly.sound h.faithful h.orderly.orderly
      hbalanced h.orderly.closed h.bare).of_ok hempty⟩
  retree := by
    rintro e tally t h ⟨steps, hexecuted, hbalanced⟩ hretains
    exact ⟨steps, hexecuted, hbalanced.retree h.orderly.orderly.stands hretains⟩
  answer := by
    rintro e x ⟨steps, hexecuted, hbalanced⟩ hstack hcounters
    exact ⟨steps, hexecuted, hbalanced.keep hstack (congrArg Counters.account hcounters)⟩
  add := by
    rintro e tally n a c y isNew h ⟨steps, hexecuted, hbalanced⟩ htop hedge hadd
    rw [h.context_eq] at hadd
    refine ⟨steps.push a, ?_, ?_⟩
    · show e.executed.push a = _
      rw [hexecuted, Array.append_push]
    · rw [Array.size_push]
      exact (Ledger.add_balanced h.orderly.sound h.orderly.orderly hbalanced htop hedge).of_ok hadd

/-- The accounts balance when the root has been added. -/
theorem IsReady.accounts {isNew : Bool} {x : Exploration Step Seeded} (h : start.IsReady p settings)
    (hadd : Exploration.add start.context SearchTree.root start.search.exploration.clear = .ok isNew x) :
    (start.withExploration x).Accounts start.search.exploration.counters start.executed := by
  obtain ⟨root, hroot, -⟩ := h.orderly.sound.root
  rw [h.context_eq] at hadd
  obtain ⟨-, hstack, -, haccount⟩ := (Ends.addRoot_ends (E := fun _ => True) h.orderly.sound rfl
    hroot).of_ok hadd
  refine ⟨#[], Array.append_empty.symm, ?_⟩
  exact Balanced.start (x := start.search.exploration.clear) h.orderly.sound rfl hstack haccount

/-- Another turn of the round follows, and the accounts balance. -/
theorem UnderWay.accounts (hunderWay : start.UnderWay progress e) (h : start.IsReady p settings) :
    e.IsUnderWay p settings start.search progress ∧
      e.Accounts start.search.exploration.counters start.executed :=
  hunderWay.keeps h turnsKeep_accounts fun _ _ => h.accounts

/-- At the end of a round the accounts balance. The stack is empty then, unless the round is cut short. -/
theorem IsReady.runRound_accounts {report : RoundReport} (h : e.IsReady p settings)
    (hround : Engine.runRound e = .ok report e') :
    e'.Accounts e.search.exploration.counters e.executed ∧
      (report.truncated = false → e'.search.exploration.stack.size = 0) := by
  obtain ⟨progress, last, progress', hunderWay, hend, rfl⟩ := exists_underWay hround
  obtain ⟨⟨tally, htallied, -⟩, haccounts⟩ := hunderWay.accounts h
  refine ⟨turnsKeep_accounts.roundTurn htallied haccounts hend, fun hwhole => ?_⟩
  have harrive := (of_roundTurn hend).resolve_right fun ⟨_, _, hgoesOn, _⟩ => by cases hgoesOn
  cases arrived.of_ok harrive with
  | ended hempty => exact (htallied.isEmpty hempty).2.1.1 rfl
  | cut => cases hwhole

theorem History.cycles_eq {e₀ : Engine} {k : Nat} (h : History e₀ k e) (h₀ : e₀.IsReady p settings) :
    e.search.exploration.counters.cycles = e₀.search.exploration.counters.cycles := by
  induction h with
  | start => rfl
  | round hhistory hround ih =>
    obtain ⟨⟨steps, -, hbalanced⟩, -⟩ := (hhistory.isReady h₀).runRound_accounts hround
    exact hbalanced.balance.cycles.trans ih
  | halt hhistory hround => exact ((hhistory.isReady h₀).runRound.of_error hround).elim
  | setPrecision _ ih => exact ih
  | prune _ _ ih => exact ih

/-- A round ends with a report, after any history of rounds, of changes of the variables tracked, and of
prunings. The frames pushed in it are one for the root, one for each step performed and one for each edge
of an earlier round that has been taken again; those that have not been popped are on the stack at the
end, which is empty unless the round is cut short. No node has ever been refused, and none is in a walk
below the node that covers the current one, by which no frame is pushed or popped. -/
theorem round_accounts (p : Program) (settings : EngineSettings) (drawnSeed : UInt64) {k : Nat}
    (h : History (create p settings drawnSeed) k e) :
    (∃ report e' steps replays, runRound e = .ok report e' ∧ e'.executed = e.executed ++ steps ∧
      let before := e.search.exploration.counters
      let after := e'.search.exploration.counters
      after.lazyReplays = before.lazyReplays + replays ∧
      after.pushes = before.pushes + (1 + steps.size + replays) ∧
      after.pushes + before.pops = before.pushes + after.pops + e'.search.exploration.stack.size ∧
      (report.truncated = false → e'.search.exploration.stack.size = 0) ∧ after.cycles = 0) ∧
    ∀ progress e₁, e.UnderWay progress e₁ → e₁.search.exploration.counters.cycles = 0 ∧
      ∀ n entry c, e₁.search.exploration.stack.topNode? = some n → e₁.tree.node? n = some entry →
        entry.covering = some c →
        Succeeds (explore (Exploration.virtualExploration · c)) e₁ fun _ e₂ =>
          e₂.search.exploration.counters.cycles = 0 ∧
          e₂.search.exploration.counters.pushes = e₁.search.exploration.counters.pushes ∧
          e₂.search.exploration.counters.pops = e₁.search.exploration.counters.pops := by
  have hready := h.isReady isReady_create
  have hcycles : e.search.exploration.counters.cycles = 0 := h.cycles_eq isReady_create
  constructor
  · obtain ⟨report, e', hround, -⟩ := hready.runRound.exists_ok
    obtain ⟨⟨steps, hexecuted, hbalanced⟩, hempty⟩ := hready.runRound_accounts hround
    obtain ⟨⟨replays, hreplays, hpushes⟩, hframes, hsame⟩ := hbalanced.balance
    refine ⟨report, e', steps, replays, hround, hexecuted, hreplays, ?_, hframes, hempty,
      hsame.trans hcycles⟩
    exact hpushes.trans (Nat.add_assoc _ _ _)
  · intro progress e₁ hunderWay
    obtain ⟨⟨tally, htallied, -⟩, steps, -, hbalanced⟩ := hunderWay.accounts hready
    have hcycles₁ : e₁.search.exploration.counters.cycles = 0 := hbalanced.balance.cycles.trans hcycles
    refine ⟨hcycles₁, fun n entry c htop hn hcovering => Ends.explore_ends ?_⟩
    have ho := htallied.orderly
    have hlive := htallied.ledger.live n (htallied.ledger.of_top htop)
    rw [htallied.context_eq]
    refine ((htallied.ledger.virtualExploration_enters ho.sound ho.orderly ho.closed htallied.bare htop
      hn hcovering).both (Ends.virtualExploration_climbs ho.sound htallied.faithful ho.orderly
        hbalanced.climbs htop hlive hn hcovering)).imp fun _ x ⟨_, _, hplain, _⟩ => ?_
    obtain ⟨hpushes, hpops, hsame⟩ := Counters.frames_of_plain hplain
    exact ⟨hsame.trans hcycles₁, hpushes, hpops⟩

/-- A round with covered nodes comes first, and a pruning after it. In the round that follows, four steps
are performed, five edges of the first round are taken again, and a walk looks into a node; ten frames are
pushed for that. -/
theorem round_accounts_overwriters : ∃ e report e' steps replays,
    History (create overwriters { covering := true } 0) 1 e ∧ runRound e = .ok report e' ∧
      e'.executed = e.executed ++ steps ∧ steps.size = 4 ∧ replays = 5 ∧
      let before := e.search.exploration.counters
      let after := e'.search.exploration.counters
      after.pushes = before.pushes + (1 + steps.size + replays) ∧
      after.pushes + before.pops = before.pushes + after.pops ∧
      after.virtualPushes = before.virtualPushes + 1 ∧ after.cycles = 0 := by
  let first : Engine := (create overwriters { covering := true } 0).setPrecision (some ∅)
  have heval : endedWith (fun _ e => e.tree.ids.contains ⟨3⟩ &&
      endedWith (fun report e' => !report.truncated &&
        e'.executed.size == e.executed.size + 4 &&
        e'.search.exploration.counters.lazyReplays == e.search.exploration.counters.lazyReplays + 5 &&
        e'.search.exploration.counters.virtualPushes ==
          e.search.exploration.counters.virtualPushes + 1)
        (runRound ((e.prune ⟨3⟩).setPrecision none)))
      (runRound first) = true := by decide +kernel
  obtain ⟨_, e, hround, heval⟩ := exists_of_endedWith heval
  obtain ⟨hmem, heval⟩ := Bool.and_eq_true_iff.1 heval
  obtain ⟨report, e', hround', heval⟩ := exists_of_endedWith heval
  simp only [Bool.and_eq_true, Bool.not_eq_true', beq_iff_eq] at heval
  obtain ⟨⟨⟨hwhole, hsize⟩, hreplays⟩, hvirtual⟩ := heval
  have hhistory : History (create overwriters { covering := true } 0) 1
      ((e.prune ⟨3⟩).setPrecision none) :=
    .setPrecision (.prune (.round (.setPrecision .start) hround) (List.contains_iff_mem.1 hmem))
  obtain ⟨⟨report', e'', steps, replays, hround'', hexecuted, hreplays', hpushes, hframes, hempty,
    hcycles⟩, -⟩ := round_accounts overwriters _ 0 hhistory
  rw [hround', EStateM.Result.ok.injEq] at hround''
  obtain ⟨rfl, rfl⟩ := hround''
  have hsteps : steps.size = 4 := by
    rw [hexecuted, Array.size_append] at hsize
    exact Nat.add_left_cancel hsize
  rw [hempty hwhole, Nat.add_zero] at hframes
  exact ⟨_, report, e', steps, replays, hhistory, hround', hexecuted, hsteps,
    Nat.add_left_cancel (hreplays'.symm.trans hreplays), hpushes, hframes, hvirtual, hcycles⟩

end Engine

end Interleaving
