import Interleaving.Proofs.Excursions
import Interleaving.Proofs.Termination

/-!
# Turns of a round

A turn looks for the node at which the next step is asked for (`Engine.arrive`), and then expands it
(`Engine.roundTurn_eq`). What either part has come to is said once, in terms of what the exploration has
answered (`Engine.Arrived`, `Engine.Expanded`). What the turns of a round preserve holds at each moment
at which another turn follows (`Engine.UnderWay.preserves`); and the last of them ends the round
(`Engine.exists_underWay`).
-/

namespace Interleaving

variable {p : Program} {settings : EngineSettings} {n : NodeId}

/-- An operation ends, if it does not halt, with its own answer. -/
theorem Ends.self {ε σ β : Type} {m : EStateM ε σ β} {s : σ} :
    Yields m s fun b s' => m s = .ok b s' := any.and_ok.imp fun _ _ h => h.2

namespace Engine

variable {e e' start : Engine} {progress progress' : Progress}

/-! ## What a turn comes to -/

/-- A round starts with the addition of the root. -/
theorem of_startRound (h : startRound e = .ok () e') : ∃ isNew x,
    Exploration.add e.context SearchTree.root e.search.exploration.clear = .ok isNew x ∧
      e' = e.withExploration x := by
  have hstart : Yields startRound e fun _ e' => ∃ isNew x,
      Exploration.add e.context SearchTree.root e.search.exploration.clear = .ok isNew x ∧
        e' = e.withExploration x := by
    unfold startRound
    refine .bind (.modify (.bind (.explore (Ends.self.imp fun isNew x hadd => ?_) fun _ => trivial)))
    exact .pure ⟨isNew, x, hadd, rfl⟩
  exact hstart.of_ok h

/-- The first part of a turn: it comes to the node at which the next step is asked for, or is over
without that. -/
def arrive (progress : Progress) : EngineM (NodeId ⊕ Bool × Progress) := do
  if ← explore Exploration.isEmpty then pure (.inr (false, progress))
  else if (← get).settings.maxExpansions ≤ progress.expansions then
    pure (.inr (false, { progress with truncated := true }))
  else
    let n ← explore Exploration.remove
    let entry ← onSearch (Search.lookUp n)
    match (← get).coveringFor n entry with
    | some covering =>
      updateTree (·.setCovering n (some covering))
      pure (.inr (true, { progress with covered := progress.covered + 1 }))
    | none => pure (.inl n)

/-- A turn expands the node to which its first part has come. -/
theorem roundTurn_eq (progress : Progress) : roundTurn progress = (do
    match ← arrive progress with
    | .inl n => return (true, ← expand n { progress with expansions := progress.expansions + 1 })
    | .inr r => pure r) := by
  unfold roundTurn arrive
  simp only [bind_assoc]
  refine bind_congr fun empty => ?_
  cases empty with
  | true => rfl
  | false =>
    simp only [Bool.false_eq_true, if_false, bind_assoc]
    refine bind_congr fun e => ?_
    split
    · rfl
    · simp only [bind_assoc]
      refine bind_congr fun n => bind_congr fun entry => bind_congr fun e => ?_
      cases e.coveringFor n entry with
      | none => rfl
      | some c => rfl

/-- A turn is over with its first part, or expands the node to which that has come. -/
theorem of_roundTurn {goesOn : Bool} (h : roundTurn progress e = .ok (goesOn, progress') e') :
    arrive progress e = .ok (.inr (goesOn, progress')) e' ∨
      ∃ n e₁, goesOn = true ∧ arrive progress e = .ok (.inl n) e₁ ∧
        expand n { progress with expansions := progress.expansions + 1 } e₁ = .ok progress' e' := by
  rw [roundTurn_eq] at h
  obtain ⟨r, e₁, harrive, h⟩ := bind_eq_ok_iff.1 h
  cases r with
  | inl n =>
    obtain ⟨progress₁, e₂, hexpand, h⟩ := bind_eq_ok_iff.1 h
    cases h
    exact .inr ⟨n, e₁, rfl, harrive, hexpand⟩
  | inr r =>
    cases h
    exact .inl harrive

/-- What the first part of a turn has come to. -/
inductive Arrived (e : Engine) (progress : Progress) : NodeId ⊕ Bool × Progress → Engine → Prop where
  /-- Nothing is left. -/
  | ended {x : Exploration Step Seeded} :
    Exploration.isEmpty e.context e.search.exploration = .ok true x →
    Arrived e progress (.inr (false, progress)) (e.withExploration x)
  /-- The bound on expansions is reached. -/
  | cut {x : Exploration Step Seeded} :
    Exploration.isEmpty e.context e.search.exploration = .ok false x →
    e.settings.maxExpansions ≤ progress.expansions →
    Arrived e progress (.inr (false, { progress with truncated := true })) (e.withExploration x)
  /-- The current node gets covered. -/
  | cover {x y : Exploration Step Seeded} {n c : NodeId} {entry : SearchTree.Node ProgramState Step} :
    Exploration.isEmpty e.context e.search.exploration = .ok false x →
    Exploration.remove e.context x = .ok n y → e.tree.node? n = some entry →
    (e.withExploration y).coveringFor n entry = some c →
    Arrived e progress (.inr (true, { progress with covered := progress.covered + 1 }))
      ((e.withExploration y).withTree (e.tree.setCovering n (some c)))
  /-- The current node is to be expanded. -/
  | asks {x y : Exploration Step Seeded} {n : NodeId} {entry : SearchTree.Node ProgramState Step} :
    Exploration.isEmpty e.context e.search.exploration = .ok false x →
    Exploration.remove e.context x = .ok n y → e.tree.node? n = some entry →
    (e.withExploration y).coveringFor n entry = none →
    Arrived e progress (.inl n) (e.withExploration y)

theorem arrived : Yields (arrive progress) e (Arrived e progress) := by
  unfold arrive
  refine .bind (.explore (Ends.self.imp fun empty x hempty => ?_) fun _ => trivial)
  split
  · rename_i htrue
    exact .pure (.ended (htrue ▸ hempty))
  rename_i hfalse
  rw [Bool.eq_false_iff.2 hfalse] at hempty
  refine .bind (.get ?_)
  split
  · rename_i hlimit
    exact .pure (.cut hempty hlimit)
  refine .bind (.explore (Ends.self.imp fun n y hremove => ?_) fun _ => trivial)
  refine .bind (.lookUpEntry (fun entry hn => .bind (.get ?_)) trivial)
  split
  · rename_i c hcovering
    exact .bind (.updateTree (.pure (.cover hempty hremove hn hcovering)))
  · rename_i hnone
    exact .pure (.asks hempty hremove hn hnone)

/-- What an expansion of the node `n` has come to. -/
inductive Expanded (e : Engine) (n : NodeId) (progress : Progress) : Progress → Engine → Prop where
  /-- There is nothing to offer. -/
  | finish {entry : SearchTree.Node ProgramState Step} {x : Exploration Step Seeded}
    {progress' : Progress} : e.tree.node? n = some entry →
    Exploration.nextAction e.context entry.stateId e.search.exploration = .ok none x →
    progress'.newNodes = progress.newNodes →
    Expanded e n progress progress' ((e.withExploration x).withTree (e.tree.setExpanded n true))
  /-- A step is performed that leads to a child in the tree `t`, which is the tree from before or the
  one with a new child. -/
  | perform {entry : SearchTree.Node ProgramState Step} {a : Step} {c : NodeId}
    {t : SearchTree ProgramState Step} {x y : Exploration Step Seeded} {isNew : Bool}
    {progress' : Progress} : e.tree.node? n = some entry →
    Exploration.nextAction e.context entry.stateId e.search.exploration = .ok (some a) x →
    (e.tree.childWithAction n a = some c ∧ t = e.tree ∧ progress'.newNodes = progress.newNodes ∨
      e.tree.childWithAction n a = none ∧ (c, t) = e.tree.addChild n a (entry.state.after a) ∧
        progress'.newNodes = progress.newNodes + 1) →
    Exploration.add (e.withTree (t.setExpanded n true)).context c x = .ok isNew y →
    Expanded e n progress progress'
      { (e.withTree (t.setExpanded n true)).withExploration y with executed := e.executed.push a }

theorem expanded : Yields (expand n progress) e (Expanded e n progress) := by
  unfold expand
  refine .bind (.lookUpEntry (fun entry hn => ?_) trivial)
  refine .bind (.explore (Ends.self.imp fun answer x hnext => ?_) fun _ => trivial)
  cases answer with
  | none =>
    refine .bind (.updateTree (.bind (.get ?_)))
    split <;> exact .pure (.finish hn hnext rfl)
  | some a =>
    refine .bind (.childFor (fun c hc => ?_) fun hnone => ?_)
    · refine .bind (.updateTree (.bind (.modify (.bind (.explore ?_ fun _ => trivial)))))
      exact Ends.self.imp fun isNew y hadd => .pure (.perform hn hnext (.inl ⟨hc, rfl, rfl⟩) hadd)
    · refine .bind (.updateTree (.bind (.modify (.bind (.explore ?_ fun _ => trivial)))))
      exact Ends.self.imp fun isNew y hadd =>
        .pure (.perform hn hnext (.inr ⟨hnone, rfl, rfl⟩) hadd)

/-! ## Turns of a round under way -/

variable {s₀ : Search ProgramState Step Seeded} {tally : Tally}

namespace Tallied

variable {x y : Exploration Step Seeded} {b : Bool} (h : e.Tallied p settings s₀ tally)
include h

/-- What the question for the end of a round leads to. -/
theorem isEmpty (hempty : Exploration.isEmpty e.context e.search.exploration = .ok b x) :
    (∃ tally', (e.withExploration x).Tallied p settings s₀ tally') ∧ (b = true ↔ x.stack.size = 0) ∧
      x.IsSettled p e.precision e.tree e.search.settings := by
  rw [h.context_eq] at hempty
  obtain ⟨⟨l, htrail, hledger⟩, hsize, hsettled⟩ := (h.ledger.isEmpty_enters h.orderly.sound
    h.orderly.orderly h.orderly.closed h.bare).of_ok hempty
  exact ⟨⟨_, h.withExploration htrail hledger⟩, hsize, hsettled⟩

/-- The current node is taken after that. -/
theorem remove (hempty : Exploration.isEmpty e.context e.search.exploration = .ok false x)
    (hremove : Exploration.remove e.context x = .ok n y) : y = x ∧ x.stack.topNode? = some n := by
  obtain ⟨⟨tally', h₁⟩, hsize, hsettled⟩ := h.isEmpty hempty
  obtain ⟨m, htop⟩ : ∃ m, x.stack.topNode? = some m := by
    cases htop : x.stack.topNode? with
    | none => exact absurd (hsize.2 (SearchStack.topNode?_eq_none_iff.1 htop)) Bool.false_ne_true
    | some m => exact ⟨m, rfl⟩
  have hstands : x.stack.StandsIn e.tree := h₁.orderly.orderly.stands
  rw [h.context_eq] at hremove
  obtain ⟨rfl, rfl⟩ :=
    (Ends.remove_settled (E := fun _ => True) (fun _ => hstands.of_top) hsettled htop).of_ok hremove
  exact ⟨rfl, htop⟩

/-- Where the first part of a turn comes to a node, that is the current one, and nothing is left to do
before a step is offered there. -/
theorem arrive {r : NodeId ⊕ Bool × Progress} (harrive : Engine.arrive progress e = .ok r e') :
    ∃ tally', e'.Tallied p settings s₀ tally' ∧
      ∀ n, r = .inl n → e'.search.exploration.stack.topNode? = some n ∧
        e'.search.exploration.IsSettled p e'.precision e'.tree e'.search.settings := by
  cases arrived.of_ok harrive with
  | ended hempty =>
    obtain ⟨⟨tally', h₁⟩, -⟩ := h.isEmpty hempty
    exact ⟨tally', h₁, nofun⟩
  | cut hempty =>
    obtain ⟨⟨tally', h₁⟩, -⟩ := h.isEmpty hempty
    exact ⟨tally', h₁, nofun⟩
  | cover hempty hremove hn hcovering =>
    obtain ⟨⟨tally', h₁⟩, -⟩ := h.isEmpty hempty
    obtain ⟨rfl, -⟩ := h.remove hempty hremove
    exact ⟨_, h₁.cover hn hcovering, nofun⟩
  | asks hempty hremove =>
    obtain ⟨⟨tally', h₁⟩, -, hsettled⟩ := h.isEmpty hempty
    obtain ⟨rfl, htop⟩ := h.remove hempty hremove
    refine ⟨tally', h₁, fun m hm => ?_⟩
    obtain rfl := Sum.inl.inj hm
    exact ⟨htop, hsettled⟩

end Tallied

/-- A round that has started in `s₀` is under way, and its numbers agree with what it has entered. -/
def IsUnderWay (p : Program) (settings : EngineSettings) (s₀ : Search ProgramState Step Seeded)
    (progress : Progress) (e : Engine) : Prop :=
  ∃ tally, e.Tallied p settings s₀ tally ∧
    Counts settings s₀.tree.size tally e.tree.size progress

theorem IsReady.isUnderWay (h : start.IsReady p settings) (hstart : Engine.startRound start = .ok () e) :
    e.IsUnderWay p settings start.search {} := by
  obtain ⟨htree, htallied⟩ := h.startRound.of_ok hstart
  refine ⟨_, htallied, rfl, Nat.le_refl _, ?_, Nat.zero_le _, nofun⟩
  exact Nat.le_of_eq (congrArg SearchTree.size htree)

theorem IsUnderWay.roundTurn {r : Bool × Progress} (h : e.IsUnderWay p settings s₀ progress)
    (hturn : Engine.roundTurn progress e = .ok r e') : e'.IsUnderWay p settings s₀ r.2 := by
  obtain ⟨tally, htallied, hcounts⟩ := h
  obtain ⟨tally', htallied', hcounts', -⟩ := (htallied.roundTurn hcounts).of_ok hturn
  exact ⟨tally', htallied', hcounts'⟩

/-! ## Moments of a round -/

/-- After some turns the round that begins in `start` has come to `e`, with the given progress, and
another turn follows. -/
def UnderWay (start : Engine) (progress : Progress) (e : Engine) : Prop :=
  ∃ turns opened, startRound start = .ok () opened ∧ advance turns {} opened = .ok progress e ∧
    turns < opened.turnLimit

/-- In the round that begins in `start`, the next step is asked for at the node `n`, when the engine
is `e`. -/
def Asks (start : Engine) (n : NodeId) (e : Engine) : Prop :=
  ∃ progress before, start.UnderWay progress before ∧ arrive progress before = .ok (.inl n) e

/-- After some turns the round that begins in `start` asks for a step at a node, and the node and the
engine pass a test. -/
def asksAfter (start : Engine) (turns : Nat) (test : NodeId → Engine → Bool) : Bool :=
  endedWith (fun _ opened => decide (turns < opened.turnLimit) &&
    endedWith (fun progress before => endedWith (fun r e => r.getLeft?.any (test · e))
      (arrive progress before)) (advance turns {} opened)) (startRound start)

theorem exists_asks {turns : Nat} {test : NodeId → Engine → Bool} (h : start.asksAfter turns test) :
    ∃ n e, start.Asks n e ∧ test n e := by
  obtain ⟨_, opened, hstart, h⟩ := exists_of_endedWith h
  rw [Bool.and_eq_true, decide_eq_true_eq] at h
  obtain ⟨hlimit, h⟩ := h
  obtain ⟨progress, before, hturns, h⟩ := exists_of_endedWith h
  obtain ⟨r, e, harrive, h⟩ := exists_of_endedWith h
  obtain ⟨n, hr, htest⟩ := (Option.any_eq_true _ _).1 h
  rw [Sum.getLeft?_eq_some_iff.1 hr] at harrive
  exact ⟨n, e, ⟨progress, before, ⟨turns, opened, hstart, hturns, hlimit⟩, harrive⟩, htest⟩

/-- The last turn of a round follows after some others. -/
theorem exists_underWay {report : RoundReport} (h : runRound start = .ok report e') :
    ∃ progress e progress', start.UnderWay progress e ∧
      roundTurn progress e = .ok (false, progress') e' ∧ report = e'.report progress' := by
  obtain ⟨_, opened, hstart, h⟩ := bind_eq_ok_iff.1 h
  obtain ⟨_, _, hget, h⟩ := bind_eq_ok_iff.1 h
  cases hget
  obtain ⟨progress', e₁, hround, h⟩ := bind_eq_ok_iff.1 h
  obtain ⟨_, _, hget, h⟩ := bind_eq_ok_iff.1 h
  cases hget
  cases h
  -- the turns are cut off where the first one ends the round
  have hlast : ∀ limit progress e, continueRound limit progress e = .ok progress' e' →
      ∃ turns progress₁ e₁, turns < limit ∧ advance turns progress e = .ok progress₁ e₁ ∧
        roundTurn progress₁ e₁ = .ok (false, progress') e' := by
    intro limit
    induction limit with
    | zero => exact fun _ _ h => by cases h
    | succ limit ih =>
      intro progress e h
      obtain ⟨⟨goesOn, next⟩, e₁, hturn, h⟩ := bind_eq_ok_iff.1 h
      cases goesOn with
      | true =>
        obtain ⟨turns, progress₁, e₂, hlt, hturns, hend⟩ := ih next e₁ h
        refine ⟨turns + 1, progress₁, e₂, Nat.succ_lt_succ hlt, ?_, hend⟩
        exact bind_eq_ok_iff.2 ⟨_, _, hturn, hturns⟩
      | false =>
        cases h
        exact ⟨0, progress, e, Nat.succ_pos _, rfl, hturn⟩
  obtain ⟨turns, progress, e, hlt, hturns, hend⟩ := hlast _ _ _ hround
  exact ⟨progress, e, progress', ⟨turns, opened, hstart, hturns, hlt⟩, hend, rfl⟩

/-- What the start of a round establishes and the turns preserve holds at each moment. -/
theorem UnderWay.preserves {I : Progress → Engine → Prop} (h : start.UnderWay progress e)
    (hstart : ∀ opened, startRound start = .ok () opened → I {} opened)
    (hturn : ∀ progress e progress' e', I progress e →
      roundTurn progress e = .ok (true, progress') e' → I progress' e') : I progress e := by
  obtain ⟨turns, opened, hopened, hturns, -⟩ := h
  have hrun : ∀ turns progress₀ e₀, I progress₀ e₀ → advance turns progress₀ e₀ = .ok progress e →
      I progress e := by
    intro turns
    induction turns with
    | zero =>
      intro progress₀ e₀ h₀ h
      cases h
      exact h₀
    | succ turns ih =>
      intro progress₀ e₀ h₀ h
      obtain ⟨⟨goesOn, next⟩, e₁, hturn', h⟩ := bind_eq_ok_iff.1 h
      cases goesOn with
      | true => exact ih next e₁ (hturn _ _ _ _ h₀ hturn') h
      | false => cases h
  exact hrun turns {} opened (hstart opened hopened) hturns

/-- Each thing that a turn does to the exploration and the tree keeps `I`: the question for the end of the
round, a change of the tree that keeps its nodes, an answer about the next step, and a child of the current
node that is added. -/
structure TurnsKeep (p : Program) (settings : EngineSettings) (s₀ : Search ProgramState Step Seeded)
    (I : Engine → Prop) : Prop where
  isEmpty : ∀ {e tally b x}, e.Tallied p settings s₀ tally → I e →
    Exploration.isEmpty e.context e.search.exploration = .ok b x → I (e.withExploration x)
  retree : ∀ {e tally t}, e.Tallied p settings s₀ tally → I e → e.tree.Retains t → I (e.withTree t)
  answer : ∀ {e x}, I e → x.stack = e.search.exploration.stack →
    x.counters = e.search.exploration.counters → I (e.withExploration x)
  add : ∀ {e tally n a c y isNew}, e.Tallied p settings s₀ tally → I e →
    e.search.exploration.stack.topNode? = some n → e.tree.Edge n a c →
    Exploration.add e.context c e.search.exploration = .ok isNew y →
    I { e.withExploration y with executed := e.executed.push a }

namespace TurnsKeep

variable {I : Engine → Prop} (hkeeps : TurnsKeep p settings s₀ I) (h : e.Tallied p settings s₀ tally)
  (hI : I e)
include hkeeps h hI

/-- The first part of a turn. -/
theorem arrive {r : NodeId ⊕ Bool × Progress} (harrive : Engine.arrive progress e = .ok r e') :
    I e' := by
  cases arrived.of_ok harrive with
  | ended hempty => exact hkeeps.isEmpty h hI hempty
  | cut hempty => exact hkeeps.isEmpty h hI hempty
  | @cover x y n c entry hempty hremove hn hcovering =>
    obtain ⟨rfl, -⟩ := h.remove hempty hremove
    obtain ⟨⟨tally', h₁⟩, -⟩ := h.isEmpty hempty
    obtain ⟨-, -, d, hd, -⟩ := of_coveringFor hcovering
    exact hkeeps.retree h₁ (hkeeps.isEmpty h hI hempty) (SearchTree.Change.cover (p := p) n hd).retains
  | asks hempty hremove =>
    obtain ⟨rfl, -⟩ := h.remove hempty hremove
    exact hkeeps.isEmpty h hI hempty

/-- An expansion of the node to which a turn has come. -/
theorem expand (htop : e.search.exploration.stack.topNode? = some n)
    (hsettled : e.search.exploration.IsSettled p e.precision e.tree e.search.settings)
    (hexpand : Engine.expand n progress e = .ok progress' e') : I e' := by
  have hsound := h.orderly.sound
  -- the answer of the exploration changes neither the stack nor the counters
  have hanswered : ∀ {entry answer x}, e.tree.node? n = some entry →
      Exploration.nextAction e.context entry.stateId e.search.exploration = .ok answer x →
      (e.withExploration x).Tallied p settings s₀ tally ∧ I (e.withExploration x) ∧
        x.stack.topNode? = some n ∧ ∀ a, answer = some a → p.CanRun entry.state a := by
    intro entry answer x hn hnext
    obtain ⟨h₁, hstack, hcounters, -, hoffered⟩ := (h.nextAction htop hn).of_ok hnext
    exact ⟨h₁, hkeeps.answer hI hstack hcounters, hstack ▸ htop, fun a ha => (hoffered a ha).1⟩
  have hmark : ∀ t : SearchTree ProgramState Step, t.Retains (t.setExpanded n true) :=
    fun t => (SearchTree.Change.mark (p := p) n true).retains
  cases expanded.of_ok hexpand with
  | finish hn hnext =>
    obtain ⟨h₁, hI₁, -⟩ := hanswered hn hnext
    exact hkeeps.retree h₁ hI₁ (hmark _)
  | @perform entry a c t x y isNew _ hn hnext hchild hadd =>
    obtain ⟨h₁, hI₁, htop₁, hrun⟩ := hanswered hn hnext
    have hrun := hrun a rfl
    obtain ⟨hsubsumed, -⟩ := hsettled n entry htop hn
    -- the tree in which the step leads to a child
    obtain ⟨h₂, hI₂, hedge⟩ : ((e.withExploration x).withTree t).Tallied p settings s₀ tally ∧
        I ((e.withExploration x).withTree t) ∧ t.Edge n a c := by
      rcases hchild with ⟨hc, rfl, -⟩ | ⟨hnew, heq, -⟩
      · exact ⟨h₁, hI₁, (hsound.edge_of_childWithAction hn hrun.hasStep hc).2⟩
      · obtain ⟨rfl, rfl⟩ := Prod.mk.inj heq
        obtain ⟨d, hd, hlive⟩ := SearchTree.mem_live_iff.1 (h.ledger.live n (h.ledger.of_top htop))
        obtain rfl : d = entry := Option.some.inj (hd.symm.trans hn)
        have huncovered : d.isCovered = false := (Bool.or_eq_false_iff.1 hsubsumed).1
        exact ⟨h₁.addChild hn hlive huncovered hrun hnew,
          hkeeps.retree h₁ hI₁ (SearchTree.Change.grow hn hrun).retains, SearchTree.edge_addChild hn⟩
    have hI₃ := hkeeps.retree h₂ hI₂ (hmark t)
    have hedge₃ : (t.setExpanded n true).Edge n a c := SearchTree.edge_setExpanded.2 hedge
    exact hkeeps.add (e := ((e.withExploration x).withTree t).withTree (t.setExpanded n true))
      (h₂.setExpanded n) hI₃ htop₁ hedge₃ hadd

/-- One turn of a round. -/
theorem roundTurn {goesOn : Bool} (hturn : Engine.roundTurn progress e = .ok (goesOn, progress') e') :
    I e' := by
  rcases of_roundTurn hturn with harrive | ⟨n, e₁, -, harrive, hexpand⟩
  · exact hkeeps.arrive h hI harrive
  · obtain ⟨tally', h₁, hasked⟩ := h.arrive harrive
    obtain ⟨htop, hsettled⟩ := hasked n rfl
    exact hkeeps.expand h₁ (hkeeps.arrive h hI harrive) htop hsettled hexpand

end TurnsKeep

/-- What holds after the root has been added, and is kept by the turns, holds at each moment of a round. -/
theorem UnderWay.keeps {I : Engine → Prop} (hunderWay : start.UnderWay progress e)
    (h : start.IsReady p settings) (hkeeps : TurnsKeep p settings start.search I)
    (hstart : ∀ isNew x, Exploration.add start.context SearchTree.root
      start.search.exploration.clear = .ok isNew x → I (start.withExploration x)) :
    e.IsUnderWay p settings start.search progress ∧ I e := by
  refine hunderWay.preserves
    (I := fun progress e => e.IsUnderWay p settings start.search progress ∧ I e) ?_ ?_
  · intro opened hopened
    obtain ⟨isNew, x, hadd, rfl⟩ := of_startRound hopened
    exact ⟨h.isUnderWay hopened, hstart isNew x hadd⟩
  · rintro progress e progress' e' ⟨hmoment, hI⟩ hturn
    obtain ⟨tally, htallied, -⟩ := id hmoment
    exact ⟨hmoment.roundTurn hturn, hkeeps.roundTurn htallied hI hturn⟩

/-- It holds at the end of the round too. -/
theorem runRound_preserves {I : Progress → Engine → Prop} {report : RoundReport}
    (h : runRound start = .ok report e')
    (hstart : ∀ opened, startRound start = .ok () opened → I {} opened)
    (hturn : ∀ progress e goesOn progress' e', I progress e →
      roundTurn progress e = .ok (goesOn, progress') e' → I progress' e') :
    ∃ progress, I progress e' ∧ report = e'.report progress := by
  obtain ⟨progress, e, progress', hunderWay, hend, hreport⟩ := exists_underWay h
  have hbefore := hunderWay.preserves hstart fun _ _ _ _ hI hturn' => hturn _ _ _ _ _ hI hturn'
  exact ⟨progress', hturn _ _ _ _ _ hbefore hend, hreport⟩

end Engine

end Interleaving
