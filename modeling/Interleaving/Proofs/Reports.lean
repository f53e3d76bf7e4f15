import Interleaving.Proofs.Coverage
import Interleaving.Proofs.Faithful
import Interleaving.Proofs.Sleeping

/-!
# What an engine reports can be reached

The semantics of a step says what it does in any state, also where it cannot run. So a search tree
holds states that runs reach only if no step is ever required where it cannot run, although many
operations make steps required: the start of a round, new states, edges of earlier rounds, races,
locks, and nodes that are met twice. `Grounded` says this of the nodes on the stack. Whatever is done
with an engine, its tree then stays sound and faithful, and its reports name only terminal states of
the program (`Engine.faithful_history`).
-/

namespace Interleaving

variable {p : Program} {precision : Precision} {t : SearchTree ProgramState Step}
  {settings : Settings} {x x' : Exploration Step Seeded} {n c : NodeId} {a : Step}

/-! ## Required steps can run -/

/-- The lowest frames, as many as given, stand for live nodes where only steps that can run are
required. Frames above may come from a walk below a covering node. -/
structure Grounded (p : Program) (t : SearchTree ProgramState Step) (real : Nat)
    (x : Exploration Step Seeded) : Prop where
  size_le : real ≤ x.stack.size
  genuine : x.stack.IsGenuine p
  live : ∀ i f, i < real → x.stack.frame? i = some f → f.node ∈ t.live
  canRun : ∀ i f, i < real → x.stack.frame? i = some f →
    ∀ a ∈ (x.sets f.node).backtrack.toList, p.CanRun (t.state f.node) a

namespace Grounded

variable {real : Nat}

/-- A round starts with the root. -/
theorem start (ht : t.Sound p) (hsize : x.stack.size = 0)
    (hstack : x'.stack = x.stack.push (.root SearchTree.root))
    (htable : x'.table = (x.table.markVisited ⟨0⟩).reset ⟨0⟩
      { backtrack := p.enabledSet p.initialState }) : Grounded p t x'.stack.size x' := by
  -- there is no other frame
  have hframe : ∀ i f, x'.stack.frame? i = some f → f = .root SearchTree.root := by
    intro i f hf
    have hi := SearchStack.frame?_lt hf
    rw [hstack, SearchStack.size_push, hsize] at hi
    rw [hstack, SearchStack.frame?_push, if_pos (by omega)] at hf
    exact (Option.some.inj hf).symm
  obtain ⟨root, hroot, -, -, -, hpruned⟩ := ht.root
  constructor
  case size_le => exact Nat.le_refl _
  case genuine =>
    intro i f a hf ha
    rw [hframe i f hf] at ha
    cases ha
  case live =>
    intro i f _ hf
    rw [hframe i f hf]
    exact SearchTree.mem_live_iff.2 ⟨root, hroot, hpruned⟩
  case canRun =>
    intro i f _ hf a ha
    rw [hframe i f hf] at ha ⊢
    show p.CanRun (t.state SearchTree.root) a
    rw [ht.state_root]
    have hroot : (⟨0⟩ : StateId) = ⟨(Frame.root (α := Step) SearchTree.root).node.index⟩ := rfl
    rw [Exploration.sets, htable, DecorationTable.get_reset, if_pos hroot] at ha
    exact Program.mem_enabledSet_iff.1 ha

section Keep

variable (h : Grounded p t real x)
include h

/-- Frames above the lowest may go. -/
theorem shrink (hsets : ∀ n, x'.sets n = x.sets n)
    (hstack : SearchStack.Prefix real x.stack x'.stack) : Grounded p t real x' := by
  refine ⟨hstack.size_le, fun i f a hf => h.genuine i f a (hstack.frame i f hf),
    fun i f hi hf => h.live i f hi (hstack.frame i f hf), fun i f hi hf a ha => ?_⟩
  rw [hsets] at ha
  exact h.canRun i f hi (hstack.frame i f hf) a ha

theorem congr (hstack : x'.stack = x.stack) (hsets : ∀ n, x'.sets n = x.sets n) :
    Grounded p t real x' :=
  h.shrink hsets (by rw [hstack]; exact .refl h.size_le)

theorem of_eq (hstack : x'.stack = x.stack) (htable : x'.table = x.table) : Grounded p t real x' :=
  h.congr hstack fun n => by rw [Exploration.sets, htable]; rfl

theorem widen (ht : t.Sound p) (hwidens : Widens p t x x') : Grounded p t real x' := by
  refine ⟨hwidens.stack ▸ h.size_le, hwidens.stack ▸ h.genuine, hwidens.stack ▸ h.live,
    fun i f hi hf a ha => ?_⟩
  rw [hwidens.stack] at hf
  rcases hwidens.adds _ a ha with ha | ⟨j, g, e, -, he, hid, hrun⟩
  · exact h.canRun i f hi hf a ha
  · rw [(ht.identity _ _ he).1] at hid
    rw [← NodeId.eq_of_stateId_eq hid, SearchTree.state_eq he]
    exact hrun

/-- The sets of one state change. -/
theorem reset {s : StateId} {d : Decoration Step} (hstack : x'.stack = x.stack)
    (htable : x'.table = x.table.reset s d)
    (hcanRun : ∀ n : NodeId, s = ⟨n.index⟩ → x.stack.Holds n → ∀ a ∈ d.backtrack.toList,
      p.CanRun (t.state n) a) : Grounded p t real x' := by
  refine ⟨hstack ▸ h.size_le, hstack ▸ h.genuine, hstack ▸ h.live, fun i f hi hf a ha => ?_⟩
  rw [hstack] at hf
  rw [Exploration.sets, htable, DecorationTable.get_reset] at ha
  split at ha
  · rename_i hs
    exact hcanRun f.node hs ⟨i, f, hf, rfl⟩ a ha
  · exact h.canRun i f hi hf a ha

/-- A frame is put on top, and locks are released. -/
theorem push {s : SearchStack Step} {f : Frame Step} (hrelocks : x.stack.Relocks s)
    (haction : ∀ a, f.action = some a → p.HasStep a) (hstack : x'.stack = s.push f)
    (htable : x'.table = x.table) : Grounded p t real x' := by
  have hsize := hrelocks.size_eq
  have hle := h.size_le
  have hbelow : ∀ i g, i < real → x'.stack.frame? i = some g →
      ∃ locks, x.stack.frame? i = some { g with locks } := by
    intro i g hi hg
    rw [hstack, SearchStack.frame?_push, if_neg (by omega)] at hg
    exact hrelocks.exists_frame hg
  refine ⟨?_, fun i g a hg hga => ?_, fun i g hi hg => ?_, fun i g hi hg a ha => ?_⟩
  · rw [hstack, SearchStack.size_push]
    omega
  · rw [hstack, SearchStack.frame?_push] at hg
    split at hg
    · exact haction a (Option.some.inj hg ▸ hga)
    · obtain ⟨locks, hg'⟩ := hrelocks.exists_frame hg
      exact h.genuine i _ a hg' hga
  · obtain ⟨locks, hg'⟩ := hbelow i g hi hg
    exact h.live i { g with locks } hi hg'
  · obtain ⟨locks, hg'⟩ := hbelow i g hi hg
    rw [Exploration.sets, htable] at ha
    exact h.canRun i { g with locks } hi hg' a ha

/-- One more frame counts as real, if it meets the conditions. -/
theorem succ (hsize : x.stack.size = real + 1) (htop : x.stack.topNode? = some n)
    (hlive : n ∈ t.live)
    (hcanRun : ∀ a ∈ (x.sets n).backtrack.toList, p.CanRun (t.state n) a) :
    Grounded p t (real + 1) x := by
  obtain ⟨g, hg, rfl⟩ := SearchStack.topNode?_eq_some_iff.1 htop
  rw [hsize, Nat.add_sub_cancel] at hg
  have hcases : ∀ i f, i < real + 1 → x.stack.frame? i = some f → i < real ∨ f = g := by
    intro i f hi hf
    rcases Nat.lt_or_eq_of_le (Nat.le_of_lt_succ hi) with hi | rfl
    · exact .inl hi
    · exact .inr (Option.some.inj (hf.symm.trans hg))
  refine ⟨Nat.le_of_eq hsize.symm, h.genuine, fun i f hi hf => ?_, fun i f hi hf => ?_⟩
  · rcases hcases i f hi hf with hi | rfl
    · exact h.live i f hi hf
    · exact hlive
  · rcases hcases i f hi hf with hi | rfl
    · exact h.canRun i f hi hf
    · exact hcanRun

/-- The tree may change, if its nodes keep their states and live nodes stay live. -/
theorem retree {t' : SearchTree ProgramState Step}
    (hnode : ∀ n e, t.node? n = some e → ∃ e', t'.node? n = some e' ∧ e'.state = e.state ∧
      e'.pruned = e.pruned) : Grounded p t' real x := by
  refine ⟨h.size_le, h.genuine, fun i f hi hf => ?_, fun i f hi hf a ha => ?_⟩ <;>
    obtain ⟨e, he, hpruned⟩ := SearchTree.mem_live_iff.1 (h.live i f hi hf) <;>
    obtain ⟨e', he', hstate, hpruned'⟩ := hnode _ e he
  · exact SearchTree.mem_live_iff.2 ⟨e', he', hpruned'.trans hpruned⟩
  · rw [SearchTree.state_eq he', hstate, ← SearchTree.state_eq he]
    exact h.canRun i f hi hf a ha

end Keep

section Top

variable (h : Grounded p t x.stack.size x)
include h

/-- The current node is live, and only steps that can run are required there. -/
theorem of_top (htop : x.stack.topNode? = some n) :
    n ∈ t.live ∧ ∀ a ∈ (x.sets n).backtrack.toList, p.CanRun (t.state n) a := by
  obtain ⟨f, hf, rfl⟩ := SearchStack.topNode?_eq_some_iff.1 htop
  have hlt := SearchStack.frame?_lt hf
  exact ⟨h.live _ f hlt hf, h.canRun _ f hlt hf⟩

theorem pop (ht : t.Sound p) (hpopped : Popped p t x x') : Grounded p t x'.stack.size x' := by
  obtain ⟨x₁, hwidens, htable⟩ := hpopped.widens
  have h₁ := h.widen ht hwidens
  have hstack : x'.stack = x₁.stack.pop := by rw [hwidens.stack, hpopped.stack]
  have hle : x'.stack.size ≤ x.stack.size := by
    rw [hpopped.stack, SearchStack.size_pop]
    omega
  have hlower : Grounded p t x'.stack.size x₁ :=
    ⟨Nat.le_trans hle h₁.size_le, h₁.genuine, fun i f hi => h₁.live i f (by omega),
      fun i f hi => h₁.canRun i f (by omega)⟩
  refine hlower.shrink (fun n => by rw [Exploration.sets, htable]; rfl)
    ⟨Nat.le_refl _, fun i f hf => ?_, fun i hi => ?_⟩
  · rw [hstack, SearchStack.frame?_pop] at hf
    split at hf
    · exact hf
    · cases hf
  · rw [hstack, SearchStack.size_pop] at hi
    rw [hstack, SearchStack.frame?_pop, if_pos hi]

theorem take (htakes : Takes p t n a x x') : Grounded p t x'.stack.size x' := by
  rw [htakes.stack]
  refine ⟨htakes.stack ▸ Nat.le_refl _, htakes.stack ▸ h.genuine, htakes.stack ▸ h.live,
    fun i f hi hf b hb => ?_⟩
  rcases htakes.adds hb with hb | ⟨hm, hrun⟩
  · exact h.canRun i f hi (htakes.stack ▸ hf) b hb
  · exact hm ▸ hrun

end Top

end Grounded

/-! ## The operations -/

namespace Ends

variable {real limit start realSize depth : Nat} {roots : List NodeId} {root node covering : NodeId}
  {entry : SearchTree.Node ProgramState Step}

/-- A push keeps what holds of the frames below. If the state is really entered, only steps that can
run are required there. -/
theorem pushStep_grounded (ht : t.Sound p) (h : Grounded p t real x) (hn : t.node? n = some entry)
    (ha : p.HasStep a) :
    Yields (Exploration.pushStep (p.context precision t settings) n entry a limit) x fun _ x' =>
      Grounded p t real x' ∧ (x'.stack.size = x.stack.size ∨
        x'.stack.size = x.stack.size + 1 ∧ x'.stack.topNode? = some n ∧
          (x.stack.size ≤ limit → x.stack.topNode? = entry.parent →
            ∀ b ∈ (x'.sets n).backtrack.toList, p.CanRun (t.state n) b)) := by
  cases hempty : x.stack.top? with
  | none =>
    unfold Exploration.pushStep
    refine .bind (.get ?_)
    dsimp only
    rw [hempty]
    exact .throw trivial
  | some last =>
  have hid := (ht.identity n entry hn).1
  have htop : x.stack.topNode? = some last.node := by rw [SearchStack.topNode?, hempty]; rfl
  refine (pushStep_widens ht hn (SearchStack.top?_eq.symm.trans hempty) h.genuine ha).imp ?_
  rintro isNew x' ⟨scan, x₁, before, hwidens, -, hpushed⟩
  have h₁ := h.widen ht hwidens
  have hsize₁ : x₁.stack.size = x.stack.size := by rw [hwidens.stack]
  -- a new frame goes on top once the state has its sets
  have hinstall : ∀ d clock, Installed x₁ n entry last before a clock d x' → ¬x₁.stack.Holds n →
      Grounded p t real x' := by
    intro d clock hinstalled hholds
    obtain ⟨s, spawned, acquired, released, hrelocks, -, hstack⟩ := hinstalled.stack
    have h₂ : Grounded p t real { x' with stack := x₁.stack } := by
      refine h₁.reset rfl hinstalled.table fun m hm hmem => absurd ?_ hholds
      rwa [NodeId.eq_of_stateId_eq (hid.symm.trans hm)]
    refine h₂.push hrelocks (fun b hb => ?_) hstack rfl
    rwa [← Option.some.inj (show some a = some b from hb)]
  cases hpushed with
  | refused _ hstack htable =>
    refine ⟨?_, .inl (by rw [hstack, hsize₁])⟩
    rcases htable with htable | ⟨-, htable⟩
    · exact h₁.of_eq hstack htable
    · refine h₁.reset hstack htable fun m hm _ b hb => ?_
      rw [← NodeId.eq_of_stateId_eq (hid.symm.trans hm), SearchTree.state_eq hn]
      exact Program.mem_enabledSet_iff.1 hb
  | visited hholds hlimit hinstalled =>
    refine ⟨hinstall _ _ hinstalled hholds,
      .inr ⟨hsize₁ ▸ hinstalled.size_eq, hinstalled.topNode?_eq, fun hle hparent => ?_⟩⟩
    rcases hlimit with hlimit | hlimit
    · omega
    · exact absurd (hparent.symm.trans htop) hlimit
  | entered hholds _ _ hfresh hinstalled =>
    refine ⟨hinstall _ _ hinstalled hholds,
      .inr ⟨hsize₁ ▸ hinstalled.size_eq, hinstalled.topNode?_eq, fun _ _ b hb => ?_⟩⟩
    rw [hinstalled.sets_self hid] at hb
    rw [SearchTree.state_eq hn]
    exact hfresh.canRun b hb

theorem push_grounded (ht : t.Sound p) (h : Grounded p t real x) :
    Yields (Exploration.push (p.context precision t settings) n limit) x fun _ x' =>
      Grounded p t real x' ∧ x.stack.size ≤ x'.stack.size := by
  unfold Exploration.push
  refine .bind (.lookUp fun entry (hn : t.node? n = some entry) => ?_)
  split
  · refine .bind (.enabledAt (.bind (.modify (.bind (.modify (.bind (.modify (.pure ⟨?_, ?_⟩))))))))
    · have hreset : Grounded p t real { x with
          table := x.table.reset entry.stateId { backtrack := p.enabledSet entry.state } } := by
        refine h.reset rfl rfl fun m hm _ b hb => ?_
        rw [← NodeId.eq_of_stateId_eq ((ht.identity n entry hn).1.symm.trans hm),
          SearchTree.state_eq hn]
        exact Program.mem_enabledSet_iff.1 hb
      exact hreset.push (.refl _) (fun a ha => by cases ha) rfl rfl
    · show x.stack.size ≤ (x.stack.push _).size
      rw [SearchStack.size_push]
      omega
  · rename_i a ha
    obtain ⟨m, -, hedge⟩ := ht.exists_parent_of_action hn ha
    refine (pushStep_grounded ht h hn (ht.canRun hedge).hasStep).imp fun _ x' hx' => ⟨hx'.1, ?_⟩
    rcases hx'.2 with hsize | ⟨hsize, -⟩ <;> omega

theorem enterVirtual_grounded (ht : t.Sound p) (h : Grounded p t real x) :
    Yields (Exploration.enterVirtual (p.context precision t settings) realSize start root node) x
      fun _ x' => Grounded p t real x' ∧ x.stack.size ≤ x'.stack.size := by
  unfold Exploration.enterVirtual
  split
  · exact .pure ⟨h, Nat.le_refl _⟩
  · refine .bind ((push_grounded ht h).imp fun isNew x₁ hx₁ => ?_)
    split
    · refine .bind (.get ?_)
      split
      · exact .bind (.modify (.pure ⟨hx₁.1.of_eq rfl rfl, hx₁.2⟩))
      · exact .pure hx₁
    · exact .pure hx₁

/-- A walk below a covering node puts frames on top only. -/
theorem walkVirtual_grounded (ht : t.Sound p) (h : Grounded p t real x) (hreal : real ≤ start)
    (hstart : start ≤ x.stack.size) :
    Yields (Exploration.walkVirtual (p.context precision t settings) realSize depth roots root start
      node) x fun _ x' => Grounded p t real x' ∧ start ≤ x'.stack.size := by
  induction depth generalizing roots root start node x with
  | zero => exact .throw trivial
  | succ depth ih =>
    unfold Exploration.walkVirtual
    refine .bind (.lookUp fun entry hentry => .bind (.modify ?_))
    have hunwind : SearchStack.Prefix start x.stack (x.stack.unwindTo start entry.parent) :=
      .unwindTo hstart
    have hunwound : Grounded p t real { x with stack := x.stack.unwindTo start entry.parent } :=
      h.shrink (fun _ => rfl) (hunwind.mono hreal)
    refine .bind ((enterVirtual_grounded ht hunwound).imp fun below x₁ hx₁ => ?_)
    have hsize₁ : start ≤ x₁.stack.size := Nat.le_trans hunwind.size_le hx₁.2
    split
    swap
    · exact .pure ⟨hx₁.1, hsize₁⟩
    split
    · split
      swap
      · exact .pure ⟨hx₁.1, hsize₁⟩
      -- a walk of its own, cut off at the end
      refine .bind (.get ?_)
      refine .bind ((ih hx₁.1 (Nat.le_trans hreal hsize₁) (Nat.le_refl _)).imp
        fun _ x₂ hx₂ => .modify ?_)
      have hcut := SearchStack.Prefix.truncate hx₂.2
      exact ⟨hx₂.1.shrink (fun _ => rfl) (hcut.mono (Nat.le_trans hreal hsize₁)),
        Nat.le_trans hsize₁ hcut.size_le⟩
    · exact forM ⟨hx₁.1, hsize₁⟩ fun c _ y hy => ih hy.1 hreal hy.2

theorem virtualExploration_grounded (ht : t.Sound p) (h : Grounded p t x.stack.size x) :
    Yields (Exploration.virtualExploration (p.context precision t settings) covering) x fun _ x' =>
      Grounded p t x'.stack.size x' := by
  unfold Exploration.virtualExploration
  refine .bind (.get (.bind ((walkVirtual_grounded ht h (Nat.le_refl _) (Nat.le_refl _)).imp
    fun _ x₁ hx₁ => .modify ?_)))
  have hcut := SearchStack.Prefix.truncate hx₁.2
  have hsize : (x₁.stack.truncate x.stack.size).size = x.stack.size := by
    rw [SearchStack.size_truncate, Nat.min_eq_left hx₁.2]
  show Grounded p t (x₁.stack.truncate x.stack.size).size _
  rw [hsize]
  exact hx₁.1.shrink (fun _ => rfl) hcut

/-- A live child of the current node is added. -/
theorem add_grounded (ht : t.Sound p) (h : Grounded p t x.stack.size x)
    (htop : x.stack.topNode? = some n) (hlive : c ∈ t.live) :
    Yields (Exploration.add (p.context precision t settings) c) x fun _ x' =>
      Grounded p t x'.stack.size x' := by
  refine addChild ht htop fun entry a hentry hparent haction => ?_
  have hstep := (ht.canRun (SearchTree.edge_iff.2 ⟨entry, hentry, hparent, haction⟩)).hasStep
  have hmark : Grounded p t x.stack.size { x with table := x.table.markVisited entry.stateId } :=
    h.congr rfl fun _ => rfl
  refine (pushStep_grounded ht hmark hentry hstep).imp fun _ x' hx' => ?_
  obtain ⟨h', hsize | ⟨hsize, htop', hcanRun⟩⟩ := hx'
  · exact hsize ▸ h'
  · rw [hsize]
    exact h'.succ hsize htop' hlive (hcanRun (Nat.le_refl _) (htop.trans hparent.symm))

/-- Edges of earlier rounds are taken again. -/
theorem exploreLazily_grounded (ht : t.Sound p) (h : Grounded p t x.stack.size x) :
    Yields (Exploration.exploreLazily (p.context precision t settings)) x fun _ x' =>
      Grounded p t x'.stack.size x' := by
  refine exploreLazily (I := fun x => Grounded p t x.stack.size x) (fun _ _ => trivial)
    (fun x x' h hstack htable => hstack ▸ h.of_eq hstack htable) h
    fun x top entry c a h htop hn hedge => ?_
  obtain ⟨hmem, hedge, -, hawake⟩ := of_mem_replayableEdges ht hn hedge
  have hlive := ht.mem_live_of_child (h.of_top htop).1 hn hmem
  have hrun := ht.canRun hedge
  rw [SearchTree.state_eq hn] at hrun
  refine .bind (recordTaken.imp fun _ x₁ hx₁ => .bind (.modify ?_))
  have htakes : Takes p t top a x x₁ := .of_update ht hn hrun hawake hx₁.1 hx₁.2
  exact add_grounded ht ((h.take htakes).of_eq rfl rfl) (htakes.stack ▸ htop) hlive

theorem isEmpty_grounded (ht : t.Sound p) (h : Grounded p t x.stack.size x) :
    Yields (Exploration.isEmpty (p.context precision t settings)) x fun _ x' =>
      Grounded p t x'.stack.size x' := by
  refine (isEmpty (I := fun x => Grounded p t x.stack.size x) (fun _ _ => trivial) h ?_ ?_ ?_).imp
    fun _ _ hx => hx.1
  · exact fun x _ _ _ h _ _ _ => virtualExploration_grounded ht h
  · exact fun x _ _ h _ _ _ => popFrame.imp fun _ x' hx' => h.pop ht hx'
  · exact fun x h => exploreLazily_grounded ht h

/-- The step to be performed next can run. -/
theorem nextAction_grounded {s : StateId} (ht : t.Sound p) (h : Grounded p t x.stack.size x) :
    Yields (Exploration.nextAction (p.context precision t settings) s) x fun answer x' =>
      Grounded p t x'.stack.size x' ∧ ∀ a, answer = some a → ∃ n entry,
        x'.stack.topNode? = some n ∧ t.node? n = some entry ∧ entry.stateId = s ∧
        p.CanRun entry.state a := by
  refine nextAction.imp fun answer x' hx' => ?_
  obtain ⟨hstack, hx'⟩ := hx'
  cases answer with
  | none => exact ⟨hstack ▸ h.of_eq hstack hx', fun a ha => by cases ha⟩
  | some a =>
    obtain ⟨ha, n, entry, htop, hn, rfl, htable⟩ := hx'
    rw [(ht.identity n entry hn).1] at ha
    obtain ⟨ha, hawake⟩ := Keyed.mem_difference.1 ha
    have hrun := (h.of_top htop).2 a ha
    rw [SearchTree.state_eq hn] at hrun
    have htakes : Takes p t n a x x' := .of_update ht hn hrun hawake hstack htable
    refine ⟨h.take htakes, fun b hb => ?_⟩
    obtain rfl := Option.some.inj hb
    exact ⟨n, entry, by rw [hstack, htop], hn, rfl, hrun⟩

end Ends

/-! ## The engine -/

namespace Engine

/-- The tree of the engine is sound and faithful. -/
structure IsFaithful (p : Program) (e : Engine) : Prop where
  program : e.program = p
  sound : e.tree.Sound p
  faithful : e.tree.Faithful

/-- A round is under way. -/
structure IsExploring (p : Program) (e : Engine) : Prop extends e.IsFaithful p where
  grounded : Grounded p e.tree e.search.exploration.stack.size e.search.exploration

variable {e : Engine} {progress : Progress} {entry : SearchTree.Node ProgramState Step}

theorem IsFaithful.context_eq (h : e.IsFaithful p) :
    e.context = p.context e.precision e.tree e.search.settings := by
  rw [context, h.program]

theorem IsFaithful.withExploration (h : e.IsFaithful p) (x : Exploration Step Seeded) :
    (e.withExploration x).IsFaithful p := ⟨h.program, h.sound, h.faithful⟩

theorem IsExploring.withExploration (h : e.IsExploring p) {x : Exploration Step Seeded}
    (hx : Grounded p e.tree x.stack.size x) : (e.withExploration x).IsExploring p :=
  ⟨h.toIsFaithful.withExploration x, hx⟩

/-- The tree grows, or its nodes are marked. -/
theorem IsExploring.withTree (h : e.IsExploring p) (hsound : t.Sound p) (hfaithful : t.Faithful)
    (hnode : ∀ n d, e.tree.node? n = some d → ∃ d', t.node? n = some d' ∧ d'.state = d.state ∧
      d'.pruned = d.pruned) : (e.withTree t).IsExploring p :=
  ⟨⟨h.program, hsound, hfaithful⟩, h.grounded.retree hnode⟩

theorem IsExploring.mark (h : e.IsExploring p)
    {f : SearchTree.Node ProgramState Step → SearchTree.Node ProgramState Step}
    (hf : ∀ e, ∃ covering expanded, f e = { e with covering, expanded })
    (hfaithful : (e.tree.modify n f).Faithful) :
    (e.withTree (e.tree.modify n f)).IsExploring p := by
  refine h.withTree (h.sound.modify hf) hfaithful fun m d hm => ?_
  rw [SearchTree.node?_modify, hm]
  split
  · obtain ⟨covering, expanded, heq⟩ := hf d
    exact ⟨_, rfl, by rw [heq], by rw [heq]⟩
  · exact ⟨d, rfl, rfl, rfl⟩

theorem IsExploring.setExpanded (h : e.IsExploring p) :
    (e.withTree (e.tree.setExpanded n true)).IsExploring p :=
  h.mark (fun d => ⟨d.covering, true, rfl⟩) h.faithful.setExpanded

/-- A node is covered by one that may cover it. -/
theorem IsExploring.setCovering (h : e.IsExploring p) (hn : e.tree.node? n = some entry)
    (hc : e.coveringFor n entry = some c) :
    (e.withTree (e.tree.setCovering n (some c))).IsExploring p := by
  obtain ⟨-, -, d, hd, hlive, hlt, hstate⟩ := of_coveringFor hc
  refine h.mark (fun d => ⟨some c, d.expanded, rfl⟩) ?_
  exact h.faithful.setCovering hn hd hlive hlt hstate

/-- The live child by the step that was offered is entered. -/
theorem IsExploring.enter (h : e.IsExploring p)
    (htop : e.search.exploration.stack.topNode? = some n) (hlive : c ∈ e.tree.live) :
    Ends (do
      Engine.updateTree (·.setExpanded n true)
      modify fun e => { e with executed := e.executed.push a }
      let _ ← Engine.explore (Exploration.add · c)
      pure progress) e (fun _ e' => e'.IsExploring p) (IsFaithful p) := by
  have h₁ := h.setExpanded (n := n)
  have hlive₁ : c ∈ (e.tree.setExpanded n true).live := SearchTree.mem_live_setExpanded.2 hlive
  obtain rfl := h.program
  refine .bind (.updateTree (.bind (.modify (.bind (.explore ?_ fun y => ?_)))))
  · show Yields (Exploration.add (e.program.context e.precision (e.tree.setExpanded n true)
      e.search.settings) c) e.search.exploration _
    refine (Ends.add_grounded h₁.sound h₁.grounded htop hlive₁).imp fun _ y hy => .pure ?_
    exact ⟨⟨rfl, h₁.sound, h₁.faithful⟩, hy⟩
  · exact ⟨rfl, h₁.sound, h₁.faithful⟩

/-- The step offered at the current node is performed. -/
theorem IsExploring.expand (h : e.IsExploring p) :
    Ends (Engine.expand n progress) e (fun _ e' => e'.IsExploring p) (IsFaithful p) := by
  unfold Engine.expand
  refine .bind (.lookUpEntry (fun entry hn => ?_) h.toIsFaithful)
  refine .bind (.explore ?_ fun x => h.toIsFaithful.withExploration x)
  rw [h.context_eq]
  refine (Ends.nextAction_grounded h.sound h.grounded).imp fun answer x ⟨hx, hanswer⟩ => ?_
  have h₁ := h.withExploration hx
  cases answer with
  | none =>
    refine .bind (.updateTree (.bind (.get ?_)))
    split <;> exact .pure h₁.setExpanded
  | some a =>
    obtain ⟨m, entry', htop, hm, hid, hrun⟩ := hanswer a rfl
    obtain ⟨rfl, rfl⟩ := h.sound.eq_of_stateId_eq hm hn hid
    -- the current node is live, so what is added below it is too
    obtain ⟨d, hd, hpruned⟩ := SearchTree.mem_live_iff.1 (hx.of_top htop).1
    obtain rfl : d = entry' := Option.some.inj (hd.symm.trans hm)
    refine .bind (.childFor (fun c hc => ?_) fun hnew => ?_)
    · obtain ⟨hmem, -⟩ := h.sound.edge_of_childWithAction hn hrun.hasStep hc
      exact h₁.enter htop (h.sound.mem_live_of_child (hx.of_top htop).1 hd hmem)
    · have hextends : e.tree.Extends (e.tree.addChild m a (d.state.after a)).2 :=
        SearchTree.extends_addChild hd
      have h₂ := h₁.withTree (h.sound.addChild hd hrun) (h.faithful.addChild h.sound hd hpruned hnew)
        fun k j hk => by
          obtain ⟨cs, b, hk'⟩ := hextends k j hk
          exact ⟨_, hk', rfl, rfl⟩
      exact h₂.enter htop ((SearchTree.mem_live_addChild hd).2 (.inl rfl))

/-- One turn of a round. -/
theorem IsExploring.roundTurn (h : e.IsExploring p) :
    Ends (Engine.roundTurn progress) e (fun _ e' => e'.IsExploring p) (IsFaithful p) := by
  unfold Engine.roundTurn
  refine .bind (.explore ?_ fun x => h.toIsFaithful.withExploration x)
  rw [h.context_eq]
  refine (Ends.isEmpty_grounded h.sound h.grounded).imp fun b x hx => ?_
  have h₁ := h.withExploration hx
  split
  · exact .pure h₁
  refine .bind (.get ?_)
  split
  · exact .pure h₁
  refine .bind (.explore ?_ fun x => h₁.toIsFaithful.withExploration x)
  rw [h₁.context_eq]
  refine (Ends.remove (Ends.isEmpty_grounded h₁.sound h₁.grounded)).imp fun n x₂ hx₂ => ?_
  have h₂ := h₁.withExploration hx₂.1
  refine .bind (.lookUpEntry (fun entry hn => .bind (.get ?_)) h₂.toIsFaithful)
  split
  · rename_i covering hcovering
    exact .bind (.updateTree (.pure (h₂.setCovering hn hcovering)))
  · exact .bind (h₂.expand.imp fun _ e' he' => .pure he')

theorem IsExploring.continueRound {turns : Nat} (h : e.IsExploring p) :
    Ends (Engine.continueRound turns progress) e (fun _ e' => e'.IsExploring p) (IsFaithful p) :=
  (Ends.continueRound (R := fun _ _ => True) (fun _ h => h.toIsFaithful)
    (fun _ _ h => h.roundTurn.imp fun _ _ he' => ⟨he', fun _ => trivial⟩) h).imp fun _ _ he' => he'.1

theorem IsFaithful.startRound (h : e.IsFaithful p) :
    Ends Engine.startRound e (fun _ e' => e'.IsExploring p) (IsFaithful p) := by
  obtain rfl := h.program
  unfold Engine.startRound
  refine .bind (.modify (.bind (.explore ?_ fun x => ⟨rfl, h.sound, h.faithful⟩)))
  show Yields (Exploration.add (e.program.context e.precision e.tree _) _) _ _
  refine (Ends.addRoot h.sound rfl).imp fun _ x hx => .pure ?_
  exact ⟨⟨rfl, h.sound, h.faithful⟩,
    .start h.sound (x := e.search.exploration.clear) rfl hx.1 hx.2⟩

/-- A round keeps the tree sound and faithful, however it ends, and reports what is in it. -/
theorem IsFaithful.runRound (h : e.IsFaithful p) :
    Ends Engine.runRound e (fun report e' => e'.IsFaithful p ∧
      report.terminalStates = e'.terminalStates) (IsFaithful p) := by
  unfold Engine.runRound
  refine .bind (h.startRound.imp fun _ e₁ h₁ => .bind (.get ?_))
  exact .bind (h₁.continueRound.imp fun _ e₂ h₂ => .bind (.get (.pure ⟨h₂.toIsFaithful, rfl⟩)))

theorem isFaithful_create {settings : EngineSettings} {drawnSeed : UInt64} :
    (create p settings drawnSeed).IsFaithful p :=
  ⟨rfl, SearchTree.sound_singleton p, .singleton _⟩

/-- Whatever is done with an engine, its tree stays sound and faithful. -/
theorem History.isFaithful {e₀ : Engine} {k : Nat} (h : History e₀ k e) (h₀ : e₀.IsFaithful p) :
    e.IsFaithful p := by
  induction h with
  | start => exact h₀
  | round _ hround ih => exact (ih.runRound.of_ok hround).1
  | halt _ hround ih => exact ih.runRound.of_error hround
  | setPrecision _ ih => exact ⟨ih.program, ih.sound, ih.faithful⟩
  | prune _ _ ih => exact ⟨ih.program, ih.sound.prune, ih.faithful.prune ih.sound⟩

/-- What can be relied on after any history of rounds, of changes of the variables tracked, and of
prunings: every live node but the root hangs below a live node, by a step that can run there, and has
the state after that step; the edges below a node have different steps; whatever covers a live node is
live, older, and has the same state; and the next report names only terminal states of the program. -/
theorem faithful_history (p : Program) (settings : EngineSettings) (drawnSeed : UInt64) {k : Nat}
    (h : History (create p settings drawnSeed) k e) :
    (∀ n ∈ e.tree.live, n ≠ SearchTree.root → ∃ m ∈ e.tree.live, ∃ a, n ∈ e.tree.children m ∧
      e.tree.Edge m a n ∧ a ∈ p.enabled (e.tree.state m) ∧
      e.tree.state n = (e.tree.state m).after a) ∧
    (∀ m ∈ e.tree.ids, (e.tree.children m).Pairwise fun n n' =>
      (e.tree.action n).map Action.key ≠ (e.tree.action n').map Action.key) ∧
    (∀ n ∈ e.tree.live, ∀ d c, e.tree.node? n = some d → d.covering = some c →
      c ∈ e.tree.live ∧ c.index < n.index ∧ e.tree.state c = e.tree.state n) ∧
    ∀ report e', runRound e = .ok report e' →
      ∀ s ∈ report.terminalStates, s ∈ p.terminalStates := by
  have hfaithful := h.isFaithful (p := p) isFaithful_create
  refine ⟨fun n hn hroot => ?_, fun m _ => hfaithful.faithful.distinct m, ?_, ?_⟩
  · obtain ⟨d, hd, hpruned⟩ := SearchTree.mem_live_iff.1 hn
    cases hparent : d.parent with
    | none => exact absurd (hfaithful.sound.orphan n d hd hparent) hroot
    | some m =>
      obtain ⟨j, hj, hlive, hmem⟩ := hfaithful.faithful.listed n d m hd hpruned hparent
      obtain ⟨a, hedge⟩ := hfaithful.sound.exists_edge hd hparent
      refine ⟨m, SearchTree.mem_live_iff.2 ⟨j, hj, hlive⟩, a, SearchTree.children_eq hj ▸ hmem, hedge,
        Program.mem_enabled_iff.2 (hfaithful.sound.canRun hedge), hfaithful.sound.state_edge hedge⟩
  · intro n hn d c hd hc
    obtain ⟨d', hd', hpruned⟩ := SearchTree.mem_live_iff.1 hn
    obtain rfl : d' = d := Option.some.inj (hd'.symm.trans hd)
    obtain ⟨j, hj, hlive, hlt, hstate⟩ := hfaithful.faithful.covered n d' c hd hpruned hc
    rw [SearchTree.state_eq hj, SearchTree.state_eq hd]
    exact ⟨SearchTree.mem_live_iff.2 ⟨j, hj, hlive⟩, hlt, hstate⟩
  · intro report e' hround s hs
    obtain ⟨he', hreport⟩ := hfaithful.runRound.of_ok hround
    obtain rfl := he'.program
    exact mem_terminalStates_of_mem he'.sound (hreport ▸ hs)

/-- Two threads write to the same variable, the first of them twice. -/
def overwriters : Program :=
  (Program.empty.thread [.write "x" 2, .write "y" 2, .write "x" 1]).thread [.write "x" 2]

/-- With covering on, a node gets covered in the first round. Nothing is tracked in the second one, and
a node is pruned before it. -/
theorem faithful_history_overwriters : ∃ e report e',
    History (create overwriters { covering := true } 0) 1 e ∧ runRound e = .ok report e' ∧
      (∃ n ∈ e.tree.live, ∃ d c, e.tree.node? n = some d ∧ d.covering = some c ∧
        c ∈ e.tree.live ∧ c.index < n.index ∧ e.tree.state c = e.tree.state n) ∧
      ∀ s ∈ report.terminalStates, s ∈ overwriters.terminalStates := by
  have heval : endedWith (fun _ e => e.tree.ids.contains ⟨4⟩ &&
      (e.prune ⟨4⟩).tree.live.contains ⟨6⟩ &&
      ((e.prune ⟨4⟩).tree.node? ⟨6⟩).any (fun d => d.covering == some ⟨2⟩) &&
      endedWith (fun _ _ => true) (runRound ((e.prune ⟨4⟩).setPrecision (some ∅))))
      (runRound (create overwriters { covering := true } 0)) = true := by decide +kernel
  obtain ⟨first, e, hround, heval⟩ := exists_of_endedWith heval
  simp only [Bool.and_eq_true, List.contains_iff_mem, Option.any_eq_true, beq_iff_eq] at heval
  obtain ⟨⟨⟨hmem, hlive⟩, d, hd, hc⟩, hlater⟩ := heval
  obtain ⟨report, e', hround', -⟩ := exists_of_endedWith hlater
  have hhistory : History (create overwriters { covering := true } 0) 1
      ((e.prune ⟨4⟩).setPrecision (some ∅)) := .setPrecision (.prune (.round .start hround) hmem)
  obtain ⟨-, -, hcovered, hreport⟩ := faithful_history overwriters { covering := true } 0 hhistory
  exact ⟨_, report, e', hhistory, hround', ⟨⟨6⟩, hlive, d, ⟨2⟩, hd, hc, hcovered _ hlive d _ hd hc⟩,
    hreport report e' hround'⟩

end Engine

end Interleaving
