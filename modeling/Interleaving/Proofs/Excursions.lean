import Interleaving.Proofs.Footprints
import Interleaving.Proofs.Covering
import Interleaving.Proofs.Locks

/-!
# What a walk below a covering node leaves behind

A walk comes to an end whatever covers what, be it in chains, in circles or a node itself, and then the
stack is as it was, apart from locks that have been released (`Search.session_walkReturns`). The sets of
states are as they were apart from two things: of the nodes that the walk has looked into, what has been
taken there is forgotten, and steps may have become required at nodes that were on the stack. Where a
walk leads on to another one, steps may also have become required at nodes that have only been looked
into (`Search.session_walkEffects`).
-/

namespace Interleaving

variable {p : Program} {precision : Precision} {t : SearchTree ProgramState Step}
  {settings : Settings} {χ : Type} {x y y' : Exploration Step χ} {n m c k : NodeId}
  {entry : SearchTree.Node ProgramState Step} {a : Step}

/-- Among the nodes that a walk below `c` looks into is a covered one. -/
def SearchTree.Nests (t : SearchTree ProgramState Step) (c : NodeId) : Prop :=
  ∃ k e, t.LooksInto c k ∧ t.node? k = some e ∧ e.isCovered

/-- What holds at each moment of a walk below `c` that has begun in `x`. -/
structure Wanders (p : Program) (t : SearchTree ProgramState Step) (c : NodeId)
    (x y : Exploration Step χ) : Prop where
  orderly : Orderly p t y
  sheds : x.stack.Sheds x.stack.size y.stack
  visited : ∀ s, y.table.isVisited s = x.table.isVisited s
  above : ∀ i f, x.stack.size ≤ i → y.stack.frame? i = some f → t.LooksInto c f.node
  sleep : ∀ s, (y.table.get s).sleep = (x.table.get s).sleep
  explored : ∀ s, (y.table.get s).explored = (x.table.get s).explored ∨
    (y.table.get s).explored = ∅ ∧ ∃ k, t.LooksInto c k ∧ ¬x.stack.Holds k ∧ s = ⟨k.index⟩
  keeps : ∀ s, ∀ a ∈ (x.table.get s).backtrack.toList, a ∈ (y.table.get s).backtrack.toList
  backtrack : ∀ s, (y.table.get s).backtrack = (x.table.get s).backtrack ∨
    (∃ k, x.stack.Holds k ∧ s = ⟨k.index⟩) ∨ t.Nests c ∧ ∃ k, t.LooksInto c k ∧ s = ⟨k.index⟩

namespace SearchStack

variable {s s' : SearchStack Step} {size i : Nat} {f : Frame Step}

/-- The lowest frames keep their nodes. -/
theorem Sheds.exists_frame (h : Sheds s.size s s') (hi : i < s.size) (hf : s'.frame? i = some f) :
    ∃ g, s.frame? i = some g ∧ g.node = f.node := by
  obtain ⟨g, hg⟩ := exists_frame_of_lt hi
  obtain ⟨f', hf', hsheds⟩ := h i g hi hg
  obtain rfl := Option.some.inj (hf.symm.trans hf')
  exact ⟨g, hg, hsheds.node.symm⟩

theorem Sheds.holds (h : Sheds s.size s s') (hk : s.Holds k) : s'.Holds k := by
  obtain ⟨i, f, hf, rfl⟩ := hk
  obtain ⟨f', hf', hsheds⟩ := h i f (frame?_lt hf) hf
  exact ⟨i, f', hf', hsheds.node⟩

end SearchStack

/-- The frames below a new one are those from before, apart from locks that are gone. -/
theorem Stacked.sheds {s s' : SearchStack Step} (h : Stacked t s n entry s')
    (hn : t.node? n = some entry) : s.Sheds s.size s' := by
  intro i f _ hf
  obtain ⟨f', hf', hsheds, -⟩ := h.exists_frame hn hf
  exact ⟨f', hf', hsheds⟩

/-- A frame of the new stack stands for the same node as before, or it is the new one. -/
theorem Stacked.node_or {s s' : SearchStack Step} {i : Nat} {f : Frame Step}
    (h : Stacked t s n entry s') (hn : t.node? n = some entry) (hf : s'.frame? i = some f) :
    (∃ g, s.frame? i = some g ∧ g.node = f.node) ∨ f.node = n := by
  have hlt := SearchStack.frame?_lt hf
  rw [h.size_eq] at hlt
  rcases Nat.lt_or_ge i s.size with hi | hi
  · exact .inl ((h.sheds hn).exists_frame hi hf)
  · obtain ⟨g, hg, hnode⟩ := SearchStack.topNode?_eq_some_iff.1 h.topNode?_eq
    obtain rfl : i = s'.size - 1 := by
      rw [h.size_eq]
      omega
    exact .inr (Option.some.inj (hf.symm.trans hg) ▸ hnode)

namespace Wanders

theorem refl (h : Orderly p t x) : Wanders p t c x x where
  orderly := h
  sheds := .refl _ _
  visited _ := rfl
  above _ _ hi hf := absurd (SearchStack.frame?_lt hf) (Nat.not_lt_of_le hi)
  sleep _ := rfl
  explored _ := .inl rfl
  keeps _ _ ha := ha
  backtrack _ := .inl rfl

variable (h : Wanders p t c x y)
include h

/-- Frames that have been put on top are taken away. -/
theorem cut (ht : t.Sound p) {stack : SearchStack Step} (hcut : y.stack.Prefix x.stack.size stack) :
    Wanders p t c x { y with stack } :=
  ⟨h.orderly.cut ht (hcut.mono (Nat.zero_le _)), h.sheds.trans (.of_cut hcut), h.visited,
    fun i f hi hf => h.above i f hi (hcut.frame i f hf), h.sleep, h.explored, h.keeps, h.backtrack⟩

theorem keep (hstack : y'.stack = y.stack) (htable : y'.table = y.table) : Wanders p t c x y' := by
  refine ⟨h.orderly.of_eq hstack fun _ => by rw [htable], hstack ▸ h.sheds, ?_, hstack ▸ h.above, ?_,
    ?_, ?_, ?_⟩ <;> rw [htable]
  · exact h.visited
  · exact h.sleep
  · exact h.explored
  · exact h.keeps
  · exact h.backtrack

/-- A node below the start of a walk was on the stack when the first walk began, unless the walk is a
later one. -/
theorem of_holdsBelow {start : Nat} (hcovered : y.stack.IsCoveredBelow t start)
    (hk : y.stack.HoldsBelow start k) :
    x.stack.Holds k ∨ t.Nests c ∧ t.LooksInto c k := by
  obtain ⟨i, f, hi, hf, rfl⟩ := hk
  rcases Nat.lt_or_ge i x.stack.size with hlt | hge
  · obtain ⟨g, hg, hnode⟩ := h.sheds.exists_frame hlt hf
    exact .inl ⟨i, g, hg, hnode⟩
  · -- the frame below the start is above those from before
    obtain ⟨-, g, e, hg, he, hcov⟩ := hcovered
    exact .inr ⟨⟨g.node, e, h.above _ g (by omega) hg, he, hcov⟩, h.above i f hge hf⟩

theorem footprint {start : Nat} {isNew : Bool} (hcovered : y.stack.IsCoveredBelow t start)
    (hk : t.LooksInto c k) (hfoot : Footprint 0 start k isNew y y') :
    (∀ s, (y'.table.get s).explored = (x.table.get s).explored ∨
      (y'.table.get s).explored = ∅ ∧ ∃ k, t.LooksInto c k ∧ ¬x.stack.Holds k ∧ s = ⟨k.index⟩) ∧
    ∀ s, (y'.table.get s).backtrack = (x.table.get s).backtrack ∨
      (∃ k, x.stack.Holds k ∧ s = ⟨k.index⟩) ∨ t.Nests c ∧ ∃ k, t.LooksInto c k ∧ s = ⟨k.index⟩ := by
  refine ⟨fun s => ?_, fun s => ?_⟩
  · rcases hfoot.explored s with hs | ⟨-, habsent, rfl, hs⟩
    · rw [hs]
      exact h.explored s
    · exact .inr ⟨hs, k, hk, fun hholds => habsent (h.sheds.holds hholds), rfl⟩
  · have hbelow : ∀ k, y.stack.HoldsBelow start k → s = ⟨k.index⟩ →
        (∃ k, x.stack.Holds k ∧ s = ⟨k.index⟩) ∨ t.Nests c ∧ ∃ k, t.LooksInto c k ∧ s = ⟨k.index⟩ :=
      fun k hk hs => (h.of_holdsBelow hcovered hk).imp (fun hold => ⟨k, hold, hs⟩)
        fun hnew => ⟨hnew.1, k, hnew.2, hs⟩
    rcases hfoot.backtrack s with hs | ⟨i, f, -, hi, hf, hs⟩ | ⟨-, hs, hk⟩
    · rw [hs]
      exact h.backtrack s
    · exact .inr (hbelow f.node ⟨i, f, Nat.lt_of_succ_lt hi, hf, rfl⟩ hs)
    · exact .inr (hbelow k hk hs)

/-- A frame for a node that the walk looks into is put on top. -/
theorem stacked {s' : SearchStack Step} (hpushed : Stacked t y.stack k entry s')
    (hk : t.node? k = some entry) (hinto : t.LooksInto c k) :
    x.stack.Sheds x.stack.size s' ∧
      ∀ i f, x.stack.size ≤ i → s'.frame? i = some f → t.LooksInto c f.node := by
  refine ⟨fun i f hi hf => ?_, fun i f hi hf => ?_⟩
  · obtain ⟨g, hg, hsheds⟩ := h.sheds i f hi hf
    obtain ⟨g', hg', hsheds', -⟩ := hpushed.exists_frame hk hg
    exact ⟨g', hg', hsheds.trans hsheds'⟩
  · rcases hpushed.node_or hk hf with ⟨g, hg, hnode⟩ | hnode
    · exact hnode ▸ h.above i g hi hg
    · exact hnode ▸ hinto

variable [ChoiceSource χ] [LawfulChoiceSource χ]

/-- A node that a walk looks into is pushed. -/
theorem push {start : Nat} {e : SearchTree.Node ProgramState Step} (ht : t.Sound p)
    (hstart : start ≤ y.stack.size) (hcovered : y.stack.IsCoveredBelow t start)
    (hreached : t.Reaches c m) (hm : t.node? m = some e) (huncovered : e.covering = none)
    (hk : k ∈ e.children) :
    Succeeds (Exploration.push (p.context precision t settings) k start) y fun isNew y' =>
      Wanders p t c x y' ∧ y.stack.Rests y.stack.size y'.stack ∧
        (isNew = true → y'.stack.topNode? = some k) := by
  have hsize : 0 < y.stack.size := Nat.lt_of_lt_of_le hcovered.1 hstart
  obtain ⟨d, hd, hparent⟩ := SearchTree.parent_eq_some_iff.1 (ht.child m e hm k hk)
  obtain ⟨-, b, -, -, hb, -⟩ := ht.edge k d m hd hparent
  -- three accounts of the same push: its moves, its frame, and what it leaves in the sets
  have hfoot : Yields (Exploration.push (p.context precision t settings) k start) y fun isNew y' =>
      Footprint 0 start k isNew y y' :=
    Ends.push_footprint ht h.orderly hd hparent hb hsize (Nat.zero_le _)
      (hcovered.not_topNode? hstart hm huncovered) SearchStack.knowsRivals_zero
  refine (((Ends.push_moves ht h.orderly hd hparent hsize).both
    Ends.push_stacked).both hfoot).imp ?_
  rintro isNew y' ⟨⟨⟨htrail, hvisited, hrests, -, htop, -⟩, hrefused, hstacked⟩, hfoot⟩
  have hinto : t.LooksInto c k := ⟨m, e, hreached, hm, huncovered, hk⟩
  obtain ⟨hexplored, hbacktrack⟩ := h.footprint hcovered hinto hfoot
  have hstack : x.stack.Sheds x.stack.size y'.stack ∧
      ∀ i f, x.stack.size ≤ i → y'.stack.frame? i = some f → t.LooksInto c f.node := by
    cases isNew with
    | false => exact hrefused rfl ▸ ⟨h.sheds, h.above⟩
    | true =>
      obtain ⟨d', hd', hpushed⟩ := hstacked rfl
      exact h.stacked hpushed hd' hinto
  exact ⟨⟨Exploration.Move.orderly_trail ht h.orderly htrail, hstack.1,
    fun s => (hvisited s).trans (h.visited s), hstack.2, fun s => (hfoot.sleep s).trans (h.sleep s),
    hexplored, fun s a ha => hfoot.keeps s a (h.keeps s a ha), hbacktrack⟩, hrests, htop⟩

end Wanders

/-- The operations of a walk keep what it leaves behind. -/
theorem WalkKeeps.wanders [ChoiceSource χ] [LawfulChoiceSource χ] (ht : t.Sound p) :
    WalkKeeps p precision t settings c x.stack.size fun y : Exploration Step χ => Wanders p t c x y where
  keep _ _ hy hstack htable _ := hy.keep hstack htable
  cut _ _ hy hcut := hy.cut ht hcut
  push _ _ _ _ _ hy _ hstart hcovered hreached hm huncovered hk :=
    hy.push ht hstart hcovered hreached hm huncovered hk

/-- A walk below the node that covers the current one comes to an end, with as many frames as before. -/
theorem Orderly.virtualExploration_wanders [ChoiceSource χ] [LawfulChoiceSource χ] (ht : t.Sound p)
    (hclosed : t.Closed) (h : Orderly p t x) (htop : x.stack.topNode? = some n)
    (hn : t.node? n = some entry) (hcovering : entry.covering = some c) :
    Succeeds (Exploration.virtualExploration (p.context precision t settings) c) x fun _ x' =>
      Wanders p t c x x' ∧ x'.stack.size = x.stack.size :=
  (Ends.virtualExploration_ends (.wanders ht) ht hclosed (.refl h) (Nat.le_refl _) htop hn
    hcovering).imp fun _ _ hx' => ⟨hx'.1, hx'.2.size_eq⟩

namespace Search

variable [ChoiceSource χ] [LawfulChoiceSource χ] {s : Search ProgramState Step χ}
  {allowed : Precision → Prop}

/-- At each moment of a session, whatever nodes have been covered by what, the walk below the node that
covers the current one comes to an end. Then the stack has the same frames, with the same nodes, steps
and clocks, and no lock that they did not have; and the same states are marked as visited. -/
theorem session_walkReturns (h : Session p allowed s)
    (htop : s.exploration.stack.topNode? = some n) (hn : s.tree.node? n = some entry)
    (hcovering : entry.covering = some c) :
    Succeeds (explore (p.system precision) (Exploration.virtualExploration · c)) s fun _ s' =>
      s'.tree = s.tree ∧ s'.exploration.stack.size = s.exploration.stack.size ∧
      (∀ i f, s.exploration.stack.frame? i = some f →
        ∃ f', s'.exploration.stack.frame? i = some f' ∧ f.Sheds f') ∧
      ∀ id, s'.exploration.table.isVisited id = s.exploration.table.isVisited id := by
  have ho := h.isOrderly
  refine ends_explore ((ho.orderly.virtualExploration_wanders ho.sound ho.closed htop hn
    hcovering).imp fun _ x' hx' => ⟨rfl, hx'.2, fun i f hf => ?_, hx'.1.visited⟩)
  exact hx'.1.sheds i f (SearchStack.frame?_lt hf) hf

/-- The search after a run has been followed and, when the stack has been emptied, a step has been taken
at the root, whose node is covered by `c`. -/
def retread (p : Program) (choices : χ) (w : List Step) (a : Step) (c : NodeId) :
    Option (Search ProgramState Step χ) := do
  let s ← follow p none choices w
  let s ← enter p none (s.withExploration s.exploration.clear)
  let s ← enter p none (← sprout p s a)
  let _ ← s.tree.node? c
  pure (s.withTree (s.tree.setCovering ⟨s.tree.size - 1⟩ (some c)))

theorem session_retread {choices : χ} {w : List Step} (h : retread p choices w a c = some s) :
    Session p (· = none) s := by
  unfold retread at h
  obtain ⟨s₁, hs₁, h⟩ := Option.bind_eq_some_iff.1 h
  obtain ⟨s₂, hs₂, h⟩ := Option.bind_eq_some_iff.1 h
  obtain ⟨s₃, hs₃, h⟩ := Option.bind_eq_some_iff.1 h
  obtain ⟨s₄, hs₄, h⟩ := Option.bind_eq_some_iff.1 h
  obtain ⟨covering, hcovering, h⟩ := Option.bind_eq_some_iff.1 h
  obtain rfl := Option.some.inj h
  have hsession := (((Session.next (session_follow hs₁) .clear).enter rfl hs₂).sprout hs₃).enter rfl hs₄
  exact .next hsession (.change (.cover _ hcovering))

/-- In `rivalWriters`, the step of the first thread has been followed, and then that of the second one.
Its node 2 is covered by the root. -/
def ancestorCovered : Option (Search ProgramState Step Seeded) :=
  retread rivalWriters (Seeded.ofSeed 0) [⟨⟨0⟩, 0, .write "x" 1⟩] ⟨⟨1⟩, 0, .write "x" 2⟩
    SearchTree.root

/-- The walk below the root looks into node 1 and comes back. -/
theorem session_walkReturns_ancestorCovered : ∃ s s' : Search ProgramState Step Seeded,
    Session rivalWriters (· = none) s ∧
    explore (rivalWriters.system none) (Exploration.virtualExploration · SearchTree.root) s = .ok () s' ∧
    s.exploration.counters.virtualPushes = 0 ∧ s'.exploration.counters.virtualPushes = 1 ∧
    s'.exploration.stack.size = s.exploration.stack.size := by
  have heval : ancestorCovered.any (fun s => s.exploration.stack.topNode? == some ⟨2⟩ &&
      (s.tree.node? ⟨2⟩).any (·.covering == some SearchTree.root) &&
      s.exploration.counters.virtualPushes == 0 &&
      endedWith (fun _ s' => s'.exploration.counters.virtualPushes == 1)
        (explore (rivalWriters.system none) (Exploration.virtualExploration · SearchTree.root) s)) =
      true := by decide +kernel
  obtain ⟨s, hs, heval⟩ := (Option.any_eq_true _ _).1 heval
  simp only [Bool.and_eq_true, beq_iff_eq] at heval
  obtain ⟨⟨⟨htop, hcovered⟩, hbefore⟩, hwalk⟩ := heval
  obtain ⟨entry, hn, hcovering⟩ := (Option.any_eq_true _ _).1 hcovered
  obtain ⟨_, s', hwalk, hafter⟩ := exists_of_endedWith hwalk
  have hsession := session_retread hs
  have hreturns := (session_walkReturns hsession htop hn (beq_iff_eq.1 hcovering)).of_ok hwalk
  exact ⟨s, s', hsession, hwalk, hbefore, beq_iff_eq.1 hafter, hreturns.2.1⟩

/-- At each moment of a session, the walk below the node that covers the current one comes to an end.
What is redundant stays as it is at all states, and nothing that is required is given up. What has been
taken at a state stays as it is too, unless the walk looks into its node, which was not on the stack:
then it is forgotten. Steps become required only at nodes that were on the stack, unless the walk looks
into a covered node, where it starts anew: then also at nodes that it looks into. -/
theorem session_walkEffects (h : Session p allowed s)
    (htop : s.exploration.stack.topNode? = some n) (hn : s.tree.node? n = some entry)
    (hcovering : entry.covering = some c) :
    Succeeds (explore (p.system precision) (Exploration.virtualExploration · c)) s fun _ s' =>
      ∀ id, let before := s.exploration.table.get id
        let after := s'.exploration.table.get id
        after.sleep = before.sleep ∧
        (∀ a ∈ before.backtrack.toList, a ∈ after.backtrack.toList) ∧
        (after.explored = before.explored ∨ after.explored = ∅ ∧
          ∃ k, s.tree.LooksInto c k ∧ ¬s.exploration.stack.Holds k ∧ id = ⟨k.index⟩) ∧
        (after.backtrack = before.backtrack ∨
          (∃ k, s.exploration.stack.Holds k ∧ id = ⟨k.index⟩) ∨
          s.tree.Nests c ∧ ∃ k, s.tree.LooksInto c k ∧ id = ⟨k.index⟩) := by
  have ho := h.isOrderly
  refine ends_explore ((ho.orderly.virtualExploration_wanders ho.sound ho.closed htop hn
    hcovering).imp fun _ x' hx' id => ?_)
  exact ⟨hx'.1.sleep id, hx'.1.keeps id, hx'.1.explored id, hx'.1.backtrack id⟩

/-- What is redundant stays so in the walk below the root. -/
theorem session_walkEffects_ancestorCovered : ∃ s s' : Search ProgramState Step Seeded,
    Session rivalWriters (· = none) s ∧
    explore (rivalWriters.system none) (Exploration.virtualExploration · SearchTree.root) s = .ok () s' ∧
    s'.exploration.counters.cycles = 1 ∧
    ∀ id, (s'.exploration.table.get id).sleep = (s.exploration.table.get id).sleep := by
  have heval : ancestorCovered.any (fun s => s.exploration.stack.topNode? == some ⟨2⟩ &&
      (s.tree.node? ⟨2⟩).any (·.covering == some SearchTree.root) &&
      endedWith (fun _ s' => s'.exploration.counters.cycles == 1)
        (explore (rivalWriters.system none) (Exploration.virtualExploration · SearchTree.root) s)) =
      true := by decide +kernel
  obtain ⟨s, hs, heval⟩ := (Option.any_eq_true _ _).1 heval
  simp only [Bool.and_eq_true, beq_iff_eq] at heval
  obtain ⟨⟨htop, hcovered⟩, hwalk⟩ := heval
  obtain ⟨entry, hn, hcovering⟩ := (Option.any_eq_true _ _).1 hcovered
  obtain ⟨_, s', hwalk, hcycles⟩ := exists_of_endedWith hwalk
  have hsession := session_retread hs
  have heffects := (session_walkEffects hsession htop hn (beq_iff_eq.1 hcovering)).of_ok hwalk
  exact ⟨s, s', hsession, hwalk, beq_iff_eq.1 hcycles, fun id => (heffects id).1⟩

end Search

/-! ## Moments of a round -/

namespace Engine

variable {e e' start : Engine} {progress progress' : Progress} {turns : Nat}

/-- Takes as many turns of a round as given, none of which ends it. -/
def advance : Nat → Progress → EngineM Progress
  | 0, progress => pure progress
  | turns + 1, progress => do
    let (goesOn, progress) ← roundTurn progress
    if goesOn then advance turns progress else throw .diverged

/-- After some turns, the round that begins in `start` has come to `e`, and another turn follows. -/
def ComesTo (start e : Engine) : Prop :=
  ∃ turns opened progress, startRound start = .ok () opened ∧
    advance turns {} opened = .ok progress e ∧ turns < opened.turnLimit

theorem continueRound_advance (h : advance turns progress e = .ok progress' e') (limit : Nat) :
    continueRound (turns + limit) progress e = continueRound limit progress' e' := by
  induction turns generalizing progress e with
  | zero =>
    cases h
    rw [Nat.zero_add]
  | succ turns ih =>
    obtain ⟨⟨goesOn, next⟩, e₁, hturn, h⟩ := bind_eq_ok_iff.1 h
    have hlimit : turns + 1 + limit = turns + limit + 1 := by omega
    rw [hlimit, continueRound, bind_of_ok hturn]
    cases goesOn with
    | true => exact ih h
    | false => cases h

/-- A round goes on with another turn from each moment that it comes to. -/
theorem ComesTo.runRound_eq (h : start.ComesTo e) : ∃ turns progress, runRound start = (do
    let progress ← continueRound (turns + 1) progress
    return (← get).report progress) e := by
  obtain ⟨turns, opened, progress, hstart, hturns, hlimit⟩ := h
  obtain ⟨rest, hrest⟩ := Nat.exists_eq_add_of_lt hlimit
  have hround : continueRound opened.turnLimit {} opened = continueRound (rest + 1) progress e := by
    rw [hrest, Nat.add_assoc]
    exact continueRound_advance hturns (rest + 1)
  refine ⟨rest, progress, ?_⟩
  rw [runRound, bind_of_ok hstart]
  show EStateM.bind (continueRound opened.turnLimit {}) _ opened = EStateM.bind _ _ e
  unfold EStateM.bind
  rw [hround]

/-- After some turns, the round that begins in `start` goes on, and the engine passes a test. -/
def passesAfter (start : Engine) (turns : Nat) (test : Engine → Bool) : Bool :=
  endedWith (fun _ opened => decide (turns < opened.turnLimit) &&
    endedWith (fun _ e => test e) (advance turns {} opened)) (startRound start)

theorem exists_comesTo {test : Engine → Bool} (h : start.passesAfter turns test) :
    ∃ e, start.ComesTo e ∧ test e := by
  obtain ⟨_, opened, hstart, h⟩ := exists_of_endedWith h
  rw [Bool.and_eq_true, decide_eq_true_eq] at h
  obtain ⟨hlimit, h⟩ := h
  obtain ⟨progress, e, hturns, htest⟩ := exists_of_endedWith h
  exact ⟨e, ⟨turns, opened, progress, hstart, hturns, hlimit⟩, htest⟩

/-- In `overwriters`, node 6 gets covered by node 2. Node 3 is a child of that, where the last step of
the first thread has been taken. The walk below node 2 leaves it out from what has been taken there. -/
theorem walk_forgets_overwriters :
    let last : Step := ⟨⟨0⟩, 2, .write "x" 1⟩
    ∃ e e' : Engine, (create overwriters { covering := true } 0).ComesTo e ∧
      e.search.exploration.stack.topNode? = some ⟨6⟩ ∧
      (e.tree.node? ⟨6⟩).bind (·.covering) = some ⟨2⟩ ∧
      explore (Exploration.virtualExploration · ⟨2⟩) e = .ok () e' ∧
      last ∈ (e.search.exploration.table.get ⟨3⟩).explored.toList ∧
      last ∉ (e'.search.exploration.table.get ⟨3⟩).explored.toList := by
  intro last
  have heval : (create overwriters { covering := true } 0).passesAfter 8 (fun e =>
      e.search.exploration.stack.topNode? == some ⟨6⟩ &&
      (e.tree.node? ⟨6⟩).bind (·.covering) == some ⟨2⟩ &&
      decide (last ∈ (e.search.exploration.table.get ⟨3⟩).explored.toList) &&
      endedWith (fun _ e' => !decide (last ∈ (e'.search.exploration.table.get ⟨3⟩).explored.toList))
        (explore (Exploration.virtualExploration · ⟨2⟩) e)) = true := by
    decide +kernel +revert
  obtain ⟨e, hcomes, heval⟩ := exists_comesTo heval
  simp only [Bool.and_eq_true, beq_iff_eq, decide_eq_true_eq] at heval
  obtain ⟨⟨⟨htop, hcovering⟩, htaken⟩, heval⟩ := heval
  obtain ⟨_, e', hwalk, hforgotten⟩ := exists_of_endedWith heval
  simp only [Bool.not_eq_true', decide_eq_false_iff_not] at hforgotten
  exact ⟨e, e', hcomes, htop, hcovering, hwalk, htaken, hforgotten⟩

end Engine

end Interleaving
