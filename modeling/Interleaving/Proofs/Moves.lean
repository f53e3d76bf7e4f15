import Interleaving.Proofs.Answers

/-!
# Moves of an exploration

What an exploration does is made up of a few moves (`Exploration.Move`): steps become required, a step
is taken, a frame is put on the stack, frames are taken away. Whatever the order of the moves, the sets
of every node agree with its state and with one another (`Orderly`), and as long as a node is on the
stack its sets only grow (`Exploration.Move.grows`). A push, a pop and a step taken come to an answer
and are made up of such moves.
-/

namespace Interleaving

variable {p : Program} {precision : Precision} {t : SearchTree ProgramState Step}
  {settings : Settings} {χ : Type} {x x' x₁ : Exploration Step χ} {n m : NodeId}
  {entry : SearchTree.Node ProgramState Step} {a b : Step}

/-! ## Logged steps -/

/-- Steps of a relation in a row, with all that they have logged. -/
inductive Trail {σ ι : Type} (R : σ → List ι → σ → Prop) (s : σ) : List ι → σ → Prop where
  | refl : Trail R s [] s
  | tail {l k : List ι} {s' s'' : σ} : Trail R s l s' → R s' k s'' → Trail R s (l ++ k) s''

namespace Trail

variable {σ τ ι : Type} {R : σ → List ι → σ → Prop} {s s' s'' : σ} {l k : List ι}

theorem single (h : R s l s') : Trail R s l s' := by
  simpa using (Trail.refl (R := R)).tail h

theorem trans (h : Trail R s l s') (h' : Trail R s' k s'') : Trail R s (l ++ k) s'' := by
  induction h' with
  | refl => simpa using h
  | tail _ hstep ih => simpa using ih.tail hstep

/-- What each step preserves, steps in a row preserve. -/
theorem preserves {I : σ → Prop} (h : Trail R s l s') (hs : I s)
    (hstep : ∀ s k s', I s → R s k s' → I s') : I s' := by
  induction h with
  | refl => exact hs
  | tail _ hR ih => exact hstep _ _ _ ih hR

theorem map {R' : τ → List ι → τ → Prop} {f : σ → τ} (h : Trail R s l s')
    (hf : ∀ s k s', R s k s' → R' (f s) k (f s')) : Trail R' (f s) l (f s') := by
  induction h with
  | refl => exact .refl
  | tail _ hR ih => exact ih.tail (hf _ _ _ hR)

end Trail

/-! ## Sets that agree with a state -/

theorem ActionSet.IsGenuine.mem_insert_self {S : ActionSet Step} (hS : S.IsGenuine p)
    (ha : p.HasStep a) : a ∈ (S.insert a).toList := by
  by_cases hkey : S.hasKey (Action.key a)
  · exact Keyed.mem_insert.2 (.inl ((hS.hasKey_iff ha).1 hkey))
  · exact Keyed.mem_insert.2 (.inr ⟨rfl, Bool.eq_false_iff.2 hkey⟩)

namespace Decoration

variable {s : ProgramState} {d d' d'' : Decoration Step}

/-- Only steps that can run are required or redundant, and a step that has been taken is both. -/
structure Agrees (p : Program) (s : ProgramState) (d : Decoration Step) : Prop where
  required : ∀ a ∈ d.backtrack.toList, p.CanRun s a
  redundant : ∀ a ∈ d.sleep.toList, p.CanRun s a
  taken : ∀ a ∈ d.explored.toList, a ∈ d.backtrack.toList ∧ a ∈ d.sleep.toList

/-- The three sets have grown, if anything. -/
structure Grows (d d' : Decoration Step) : Prop where
  required : ∀ a ∈ d.backtrack.toList, a ∈ d'.backtrack.toList
  redundant : ∀ a ∈ d.sleep.toList, a ∈ d'.sleep.toList
  taken : ∀ a ∈ d.explored.toList, a ∈ d'.explored.toList

namespace Grows

theorem refl (d : Decoration Step) : d.Grows d := ⟨fun _ h => h, fun _ h => h, fun _ h => h⟩

theorem trans (h : d.Grows d') (h' : d'.Grows d'') : d.Grows d'' :=
  ⟨fun a ha => h'.required a (h.required a ha), fun a ha => h'.redundant a (h.redundant a ha),
    fun a ha => h'.taken a (h.taken a ha)⟩

theorem takeAmong (d : Decoration Step) (enabled : ActionSet Step) (a : Step) :
    d.Grows (d.takeAmong enabled a) where
  required _ hb := Keyed.mem_insert.2 (.inl (Keyed.mem_insertAll_of_mem hb))
  redundant _ hb := Keyed.mem_insert.2 (.inl hb)
  taken _ hb := Keyed.mem_insert.2 (.inl hb)

end Grows

namespace Agrees

theorem empty : ({} : Decoration Step).Agrees p s where
  required a ha := by cases ha
  redundant a ha := by cases ha
  taken a ha := by cases ha

variable (h : d.Agrees p s)
include h

/-- Taking a step that can run. -/
theorem takeAmong (ha : p.CanRun s a) : (d.takeAmong (p.enabledSet s) a).Agrees p s := by
  have hgrows := Grows.takeAmong d (p.enabledSet s) a
  -- the other steps of the thread become required too, but only those that can run
  have hunion : ∀ b ∈ (d.backtrack.union ((p.enabledSet s).ofProcess a.process)).toList,
      p.CanRun s b := by
    intro b hb
    rcases Keyed.mem_of_mem_insertAll hb with hb | hb
    · exact h.required b hb
    · exact Program.mem_enabledSet_iff.1 (Keyed.mem_filter.1 hb).1
  constructor
  case required =>
    intro b hb
    rcases Keyed.mem_insert.1 hb with hb | ⟨rfl, -⟩
    · exact hunion b hb
    · exact ha
  case redundant =>
    intro b hb
    rcases Keyed.mem_insert.1 hb with hb | ⟨rfl, -⟩
    · exact h.redundant b hb
    · exact ha
  case taken =>
    intro b hb
    rcases Keyed.mem_insert.1 hb with hb | ⟨rfl, -⟩
    · exact ⟨hgrows.required b (h.taken b hb).1, hgrows.redundant b (h.taken b hb).2⟩
    · have hrequired : ActionSet.IsGenuine p
          (d.backtrack.union ((p.enabledSet s).ofProcess b.process)) :=
        fun c hc => (hunion c hc).hasStep
      have hredundant : d.sleep.IsGenuine p := fun c hc => (h.redundant c hc).hasStep
      exact ⟨hrequired.mem_insert_self ha.hasStep, hredundant.mem_insert_self ha.hasStep⟩

/-- Steps that can run may become required. -/
theorem require (hgrows : ∀ a ∈ d.backtrack.toList, a ∈ d'.backtrack.toList)
    (hadds : ∀ a ∈ d'.backtrack.toList, a ∈ d.backtrack.toList ∨ p.CanRun s a)
    (hsleep : d'.sleep = d.sleep) (hexplored : d'.explored = d.explored) : d'.Agrees p s where
  required a ha := (hadds a ha).elim (h.required a) id
  redundant a ha := h.redundant a (hsleep ▸ ha)
  taken a ha := by
    rw [hexplored] at ha
    rw [hsleep]
    exact ⟨hgrows a (h.taken a ha).1, (h.taken a ha).2⟩

/-- The sets of a state that is only looked into. -/
theorem forget : ({ d with explored := ∅ } : Decoration Step).Agrees p s where
  required := h.required
  redundant := h.redundant
  taken a ha := by cases ha

end Agrees

end Decoration

/-- The sets of a state that is entered by a step agree with it. -/
theorem Fresh.agrees {before : SearchTree.Node ProgramState Step} {sleep : ActionSet Step}
    {d : Decoration Step} (h : Fresh p precision entry a sleep d)
    (hstate : entry.state = before.state.after a)
    (hsleep : ∀ b ∈ sleep.toList, p.CanRun before.state b) : d.Agrees p entry.state where
  required := h.canRun
  redundant b hb := by
    obtain ⟨hb, hdepends⟩ := (h.mem_sleep b).1 hb
    have hindependent := Step.independent_iff.1 hdepends
    rw [hstate]
    exact (hindependent.symm.canRun_after_iff before.state).2 (hsleep b hb)
  taken b hb := by
    rw [h.explored] at hb
    cases hb

/-! ## Moves -/

/-- The sets of all nodes agree with their states, and the stack is made of nodes of the tree and steps
of the program. -/
structure Orderly (p : Program) (t : SearchTree ProgramState Step) (x : Exploration Step χ) :
    Prop where
  agrees : ∀ n e, t.node? n = some e → (x.table.get e.stateId).Agrees p e.state
  stands : x.stack.StandsIn t
  genuine : x.stack.IsGenuine p
  /-- Nothing is known of states that are still to come. -/
  unseen : ∀ i, t.size ≤ i → x.table.get ⟨i⟩ = {}

/-- A move of an exploration, with the nodes whose frames are put on the stack to be explored. A frame
that is only looked into is not logged. -/
inductive Exploration.Move (p : Program) (t : SearchTree ProgramState Step) :
    Exploration Step χ → List NodeId → Exploration Step χ → Prop where
  /-- A state is marked, a choice is made, or something else is counted. -/
  | keep {x x' : Exploration Step χ} : x'.stack = x.stack → (∀ s, x'.table.get s = x.table.get s) →
    x'.counters.pushes = x.counters.pushes → Move p t x [] x'
  /-- Steps become required at nodes on the stack. -/
  | require {x x' : Exploration Step χ} : Widens p t x x' →
    x'.counters.pushes = x.counters.pushes → Move p t x [] x'
  /-- A step that is not redundant is taken at the current node. -/
  | take {x x' : Exploration Step χ} {n : NodeId} {e : SearchTree.Node ProgramState Step} {a : Step} :
    x.stack.topNode? = some n → t.node? n = some e → p.CanRun e.state a →
    (x.table.sleep e.stateId).hasKey (Action.key a) = false → x'.stack = x.stack →
    x'.table = x.table.update e.stateId (·.takeAmong (p.enabledSet e.state) a) →
    x'.counters.pushes = x.counters.pushes → Move p t x [] x'
  /-- Frames are taken away from the top. -/
  | cut {x x' : Exploration Step χ} : x.stack.Prefix 0 x'.stack → x'.table = x.table →
    x'.counters.pushes = x.counters.pushes → Move p t x [] x'
  /-- The frame of the root is put on the empty stack. -/
  | start {x x' : Exploration Step χ} : x.stack.size = 0 →
    x'.stack = x.stack.push (.root SearchTree.root) →
    x'.table = x.table.reset ⟨0⟩ { backtrack := p.enabledSet p.initialState } →
    x'.counters.pushes = x.counters.pushes + 1 → Move p t x [SearchTree.root] x'
  /-- A child of the current node is entered. -/
  | enter {x x' : Exploration Step χ} {precision : Precision} {n : NodeId}
    {e before : SearchTree.Node ProgramState Step} {last : Frame Step} {a : Step} {clock : Clock}
    {d : Decoration Step} : ¬x.stack.Holds n → t.node? n = some e → e.action = some a →
    e.parent = some last.node → x.stack.topNode? = some last.node → t.node? last.node = some before →
    Fresh p precision e a (x.table.sleep before.stateId) d →
    Installed x n e last before a clock d x' → x'.counters.pushes = x.counters.pushes + 1 →
    Move p t x [n] x'
  /-- A node is looked into. -/
  | look {x x' : Exploration Step χ} {n : NodeId} {e before : SearchTree.Node ProgramState Step}
    {last : Frame Step} {a : Step} {clock : Clock} : ¬x.stack.Holds n → t.node? n = some e →
    e.action = some a →
    Installed x n e last before a clock (Exploration.storedDecoration x.table e.stateId) x' →
    x'.counters.pushes = x.counters.pushes → Move p t x [] x'

namespace Orderly

theorem of_eq (h : Orderly p t x) (hstack : x'.stack = x.stack)
    (htable : ∀ s, x'.table.get s = x.table.get s) : Orderly p t x' := by
  refine ⟨fun n e hn => htable _ ▸ h.agrees n e hn, hstack ▸ h.stands, hstack ▸ h.genuine, ?_⟩
  exact fun i hi => (htable _).trans (h.unseen i hi)

/-- One state gets other sets. -/
theorem reset {d : Decoration Step} (ht : t.Sound p) (h : Orderly p t x)
    (hn : t.node? n = some entry) (hd : d.Agrees p entry.state) (hstack : x'.stack = x.stack)
    (htable : x'.table = x.table.reset entry.stateId d) : Orderly p t x' := by
  refine ⟨fun m e hm => ?_, hstack ▸ h.stands, hstack ▸ h.genuine, fun i hi => ?_⟩
  · rw [htable, DecorationTable.get_reset]
    split
    · rename_i hid
      obtain ⟨rfl, rfl⟩ := ht.eq_of_stateId_eq hn hm hid
      exact hd
    · exact h.agrees m e hm
  · rw [htable, DecorationTable.get_reset, if_neg]
    · exact h.unseen i hi
    · rw [(ht.identity n entry hn).1, StateId.mk.injEq]
      have := SearchTree.index_lt_size hn
      omega

/-- A frame is put on top, and locks are released. -/
theorem push {s : SearchStack Step} {f : Frame Step} (h : Orderly p t x)
    (hrelocks : x.stack.Relocks s) (hf : ∃ e, t.node? f.node = some e)
    (haction : ∀ a, f.action = some a → p.HasStep a) (hstack : x'.stack = s.push f)
    (htable : x'.table = x.table) : Orderly p t x' := by
  refine ⟨fun n e hn => htable ▸ h.agrees n e hn, ?_, fun i g a hg hga => ?_, htable ▸ h.unseen⟩
  · rw [hstack]
    exact (h.stands.relocks hrelocks).push hf
  · rw [hstack, SearchStack.frame?_push] at hg
    split at hg
    · exact haction a (Option.some.inj hg ▸ hga)
    · obtain ⟨locks, hg'⟩ := hrelocks.exists_frame hg
      exact h.genuine i _ a hg' hga

/-- A state gets its sets, and a frame for it is put on top. -/
theorem install {last : Frame Step} {before : SearchTree.Node ProgramState Step} {clock : Clock}
    {d : Decoration Step} (ht : t.Sound p) (h : Orderly p t x) (hn : t.node? n = some entry)
    (ha : entry.action = some a) (hd : d.Agrees p entry.state)
    (hinstalled : Installed x n entry last before a clock d x') : Orderly p t x' := by
  obtain ⟨s, spawned, acquired, released, hrelocks, -, hstack⟩ := hinstalled.stack
  obtain ⟨m, -, hedge⟩ := ht.exists_parent_of_action hn ha
  have hreset : Orderly p t { x' with stack := x.stack } := h.reset ht hn hd rfl hinstalled.table
  refine hreset.push hrelocks ⟨entry, hn⟩ (fun b hb => ?_) hstack rfl
  rw [← Option.some.inj (show some a = some b from hb)]
  exact (ht.canRun hedge).hasStep

/-- Nothing becomes required of a state without a node. -/
theorem unseen_widen {i : Nat} (ht : t.Sound p) (h : Orderly p t x) (hwidens : Widens p t x x')
    (hi : t.size ≤ i) : x'.table.get ⟨i⟩ = {} := by
  have hold := h.unseen i hi
  have hbacktrack : (x'.table.get ⟨i⟩).backtrack = ∅ := by
    refine Keyed.ext_of_mem fun a => ⟨fun ha => ?_, fun ha => by cases ha⟩
    rcases hwidens.adds _ a ha with ha | ⟨j, f, e, -, he, hid, -⟩
    · rw [hold] at ha
      exact ha
    · rw [(ht.identity _ _ he).1, StateId.mk.injEq] at hid
      have := SearchTree.index_lt_size he
      omega
  have hsleep := hwidens.sleep ⟨i⟩
  have hexplored := hwidens.explored ⟨i⟩
  rw [hold] at hsleep hexplored
  cases hd : x'.table.get ⟨i⟩
  rw [hd] at hbacktrack hsleep hexplored
  simp only at hbacktrack hsleep hexplored
  rw [hbacktrack, hsleep, hexplored]

theorem widen (ht : t.Sound p) (h : Orderly p t x) (hwidens : Widens p t x x') :
    Orderly p t x' := by
  refine ⟨fun n e hn => ?_, hwidens.stack ▸ h.stands, hwidens.stack ▸ h.genuine,
    fun i => h.unseen_widen ht hwidens⟩
  refine (h.agrees n e hn).require (hwidens.keeps _) (fun a ha => ?_) (hwidens.sleep _)
    (hwidens.explored _)
  refine (hwidens.adds _ a ha).imp_right fun ⟨i, f, e', hf, he', hid, hrun⟩ => ?_
  obtain ⟨rfl, rfl⟩ := ht.eq_of_stateId_eq he' hn hid
  exact hrun

/-- Frames are taken away from the top. -/
theorem shrink (h : Orderly p t x) (hcut : x.stack.Prefix 0 x'.stack) (htable : x'.table = x.table) :
    Orderly p t x' := by
  refine ⟨fun n e hn => htable ▸ h.agrees n e hn, h.stands.shrink hcut, fun i f a hf => ?_,
    htable ▸ h.unseen⟩
  exact h.genuine i f a (hcut.frame i f hf)

/-- The root gets its sets and a frame. -/
theorem start (ht : t.Sound p) (h : Orderly p t x)
    (hstack : x'.stack = x.stack.push (.root SearchTree.root))
    (htable : x'.table = x.table.reset ⟨0⟩ { backtrack := p.enabledSet p.initialState }) :
    Orderly p t x' := by
  obtain ⟨root, hroot, -, -, hstate, -⟩ := ht.root
  have hid : root.stateId = ⟨0⟩ := (ht.identity _ _ hroot).1
  have hagrees : ({ backtrack := p.enabledSet p.initialState } : Decoration Step).Agrees p
      root.state := by
    refine ⟨fun a ha => ?_, ?_, ?_⟩
    · rw [hstate]
      exact Program.mem_enabledSet_iff.1 ha
    · exact fun a ha => by cases ha
    · exact fun a ha => by cases ha
  have hreset : Orderly p t { x' with stack := x.stack } :=
    h.reset ht hroot hagrees rfl (hid ▸ htable)
  exact hreset.push (.refl _) ⟨root, hroot⟩ (fun a ha => by cases ha) hstack rfl

end Orderly

namespace Exploration.Move

variable {l : List NodeId}

/-- Moves keep the sets in order. -/
theorem orderly (ht : t.Sound p) (h : Orderly p t x) (hmove : Move p t x l x') : Orderly p t x' := by
  cases hmove with
  | keep hstack htable => exact h.of_eq hstack htable
  | require hwidens => exact h.widen ht hwidens
  | take _ hn hrun _ hstack htable =>
    exact h.reset ht hn ((h.agrees _ _ hn).takeAmong hrun) hstack htable
  | cut hcut htable => exact h.shrink hcut htable
  | start _ hstack htable => exact h.start ht hstack htable
  | enter _ hn ha hparent _ hbefore hfresh hinstalled =>
    obtain ⟨d, a', hd, -, ha', -, hstate⟩ := ht.edge _ _ _ hn hparent
    obtain rfl := Option.some.inj (ha.symm.trans ha')
    obtain rfl := Option.some.inj (hd.symm.trans hbefore)
    exact h.install ht hn ha (hfresh.agrees hstate (h.agrees _ _ hbefore).redundant) hinstalled
  | look _ hn ha hinstalled => exact h.install ht hn ha (h.agrees _ _ hn).forget hinstalled

theorem orderly_trail (ht : t.Sound p) (h : Orderly p t x) (htrail : Trail (Move p t) x l x') :
    Orderly p t x' :=
  htrail.preserves h fun _ _ _ h hmove => hmove.orderly ht h

/-- While a node is on the stack, its sets only grow. -/
theorem grows (ht : t.Sound p) (hmove : Move p t x l x') (hn : t.node? n = some entry)
    (hholds : x.stack.Holds n) :
    (x.table.get entry.stateId).Grows (x'.table.get entry.stateId) := by
  -- a frame is only put on the stack for a node that is not there
  have hother : ∀ {k e d}, t.node? k = some e → ¬x.stack.Holds k →
      x'.table = x.table.reset e.stateId d →
      (x.table.get entry.stateId).Grows (x'.table.get entry.stateId) := by
    intro k e d hk habsent htable
    rw [htable, DecorationTable.get_reset, if_neg]
    · exact .refl _
    · intro hid
      exact habsent ((ht.eq_of_stateId_eq hk hn hid).1 ▸ hholds)
  cases hmove with
  | keep _ htable => exact htable _ ▸ .refl _
  | require hwidens =>
    refine ⟨hwidens.keeps _, fun a ha => ?_, fun a ha => ?_⟩
    · rwa [hwidens.sleep]
    · rwa [hwidens.explored]
  | take _ _ _ _ _ htable =>
    rw [htable, DecorationTable.get_update]
    split
    · rename_i hid
      rw [hid]
      exact .takeAmong _ _ _
    · exact .refl _
  | cut _ htable => exact htable ▸ .refl _
  | start hsize =>
    obtain ⟨i, f, hf, -⟩ := hholds
    have := SearchStack.frame?_lt hf
    omega
  | enter habsent hk _ _ _ _ _ hinstalled => exact hother hk habsent hinstalled.table
  | look habsent hk _ hinstalled => exact hother hk habsent hinstalled.table

/-- What is redundant at a node stays so, unless the node is entered. -/
theorem redundant (ht : t.Sound p) (hmove : Move p t x l x') (hout : n ∉ l)
    (ha : (x.table.sleep ⟨n.index⟩).hasKey (Action.key a)) :
    (x'.table.sleep ⟨n.index⟩).hasKey (Action.key a) := by
  -- the sets of another state may be made anew
  have hother : ∀ {s : StateId} {d}, x'.table = x.table.reset s d → s ≠ ⟨n.index⟩ →
      (x'.table.sleep ⟨n.index⟩).hasKey (Action.key a) := by
    intro s d htable hs
    rwa [DecorationTable.sleep, htable, DecorationTable.get_reset, if_neg hs]
  cases hmove with
  | keep _ htable =>
    rw [DecorationTable.sleep, htable]
    exact ha
  | require hwidens =>
    rw [DecorationTable.sleep, hwidens.sleep]
    exact ha
  | take _ _ _ _ _ htable =>
    rw [DecorationTable.sleep, htable, DecorationTable.get_update]
    split
    · rename_i hs
      exact Keyed.hasKey_insert.2 (.inl (hs ▸ ha))
    · exact ha
  | cut _ htable =>
    rw [htable]
    exact ha
  | start _ _ htable =>
    refine hother htable fun hs => hout ?_
    exact List.mem_singleton.2 (NodeId.eq_of_stateId_eq (n := SearchTree.root) hs.symm)
  | enter _ hk _ _ _ _ _ hinstalled =>
    refine hother hinstalled.table fun hs => hout ?_
    rw [(ht.identity _ _ hk).1] at hs
    exact List.mem_singleton.2 (NodeId.eq_of_stateId_eq hs.symm)
  | look _ hk _ hinstalled =>
    rw [DecorationTable.sleep, hinstalled.table, DecorationTable.get_reset]
    split
    · rename_i hs
      rw [hs]
      exact ha
    · exact ha

/-- What is required at a node stays so, unless the node is entered. -/
theorem required (ht : t.Sound p) (hmove : Move p t x l x') (hout : n ∉ l)
    (ha : a ∈ (x.table.get ⟨n.index⟩).backtrack.toList) :
    a ∈ (x'.table.get ⟨n.index⟩).backtrack.toList := by
  have hother : ∀ {s : StateId} {d}, x'.table = x.table.reset s d → s ≠ ⟨n.index⟩ →
      a ∈ (x'.table.get ⟨n.index⟩).backtrack.toList := by
    intro s d htable hs
    rwa [htable, DecorationTable.get_reset, if_neg hs]
  cases hmove with
  | keep _ htable => exact (htable _).symm ▸ ha
  | require hwidens => exact hwidens.keeps _ a ha
  | take _ _ _ _ _ htable =>
    rw [htable, DecorationTable.get_update]
    split
    · rename_i hs
      exact (Decoration.Grows.takeAmong _ _ _).required a (hs ▸ ha)
    · exact ha
  | cut _ htable => exact htable ▸ ha
  | start _ _ htable =>
    refine hother htable fun hs => hout ?_
    exact List.mem_singleton.2 (NodeId.eq_of_stateId_eq (n := SearchTree.root) hs.symm)
  | enter _ hk _ _ _ _ _ hinstalled =>
    refine hother hinstalled.table fun hs => hout ?_
    rw [(ht.identity _ _ hk).1] at hs
    exact List.mem_singleton.2 (NodeId.eq_of_stateId_eq hs.symm)
  | look _ hk _ hinstalled =>
    rw [hinstalled.table, DecorationTable.get_reset]
    split
    · rename_i hs
      rw [hs]
      exact ha
    · exact ha

theorem required_trail (ht : t.Sound p) (h : Trail (Move p t) x l x') (hout : n ∉ l)
    (ha : a ∈ (x.table.get ⟨n.index⟩).backtrack.toList) :
    a ∈ (x'.table.get ⟨n.index⟩).backtrack.toList := by
  induction h with
  | refl => exact ha
  | tail _ hmove ih =>
    rw [List.mem_append, not_or] at hout
    exact hmove.required ht hout.2 (ih hout.1)

/-- The number of pushes goes up by one for each node that is logged. -/
theorem pushes (hmove : Move p t x l x') : x'.counters.pushes = x.counters.pushes + l.length := by
  cases hmove <;> assumption

end Exploration.Move

theorem Orderly.cut {stack : SearchStack Step} (ht : t.Sound p) (h : Orderly p t x)
    (hcut : x.stack.Prefix 0 stack) : Orderly p t { x with stack } := by
  have hmove : Exploration.Move p t x [] { x with stack } := .cut hcut rfl rfl
  exact hmove.orderly ht h

/-! ## Frames that stay -/

namespace SearchStack

variable {s s' s'' : SearchStack Step} {size size' : Nat} {f : Frame Step}

/-- The lowest frames, as many as given, stay where they are, apart from their locks. -/
structure Rests (size : Nat) (s s' : SearchStack Step) : Prop where
  size_le : size ≤ s'.size
  frame : ∀ i f, i < size → s.frame? i = some f → ∃ locks, s'.frame? i = some { f with locks }

namespace Rests

theorem refl (h : size ≤ s.size) : Rests size s s := ⟨h, fun _ f _ hf => ⟨f.locks, hf⟩⟩

theorem trans (h : Rests size s s') (h' : Rests size' s' s'') (hle : size ≤ size') :
    Rests size s s'' := by
  refine ⟨Nat.le_trans hle h'.size_le, fun i f hi hf => ?_⟩
  obtain ⟨locks, hf'⟩ := h.frame i f hi hf
  obtain ⟨locks', hf''⟩ := h'.frame i { f with locks } (by omega) hf'
  exact ⟨locks', hf''⟩

theorem of_relocks (h : s.Relocks s') : Rests s.size s s' :=
  ⟨Nat.le_of_eq h.size_eq.symm, fun i f _ hf => h.frame i f hf⟩

theorem of_cut (h : s.Prefix size s') : Rests size s s' := by
  refine ⟨h.size_le, fun i f hi hf => ⟨f.locks, ?_⟩⟩
  rw [h.low i hi]
  exact hf

theorem push (h : Rests size s s') : Rests size s (s'.push f) := by
  have hle := h.size_le
  refine ⟨by rw [size_push]; omega, fun i g hi hg => ?_⟩
  obtain ⟨locks, hg'⟩ := h.frame i g hi hg
  refine ⟨locks, ?_⟩
  rw [frame?_push, if_neg (by omega)]
  exact hg'

/-- A frame among them was there before, apart from locks. -/
theorem exists_frame {i : Nat} (h : Rests size s s') (hi : i < size) (hle : size ≤ s.size)
    (hf : s'.frame? i = some f) : ∃ locks, s.frame? i = some { f with locks } := by
  obtain ⟨g, hg⟩ := exists_frame_of_lt (Nat.lt_of_lt_of_le hi hle)
  obtain ⟨locks, hg'⟩ := h.frame i g hi hg
  obtain rfl := Option.some.inj (hf.symm.trans hg')
  exact ⟨g.locks, hg⟩

theorem holdsBelow {limit : Nat} (h : Rests size s s') (hlimit : limit ≤ size) (hle : size ≤ s.size)
    (hm : s'.HoldsBelow limit m) : s.HoldsBelow limit m := by
  obtain ⟨i, f, hi, hf, rfl⟩ := hm
  obtain ⟨locks, hf'⟩ := h.exists_frame (Nat.lt_of_lt_of_le hi hlimit) hle hf
  exact ⟨i, _, hi, hf', rfl⟩

/-- A single frame above them is the top one. -/
theorem holds_or (h : Rests s.size s s') (hsize : s'.size = s.size + 1) (htop : s'.topNode? = some n)
    (hm : s'.Holds m) : m = n ∨ s.Holds m := by
  obtain ⟨i, f, hf, rfl⟩ := hm
  have hlt := frame?_lt hf
  rcases Nat.lt_or_ge i s.size with hi | hi
  · obtain ⟨g, hg⟩ := exists_frame_of_lt hi
    obtain ⟨locks, hg'⟩ := h.frame i g hi hg
    obtain rfl := Option.some.inj (hf.symm.trans hg')
    exact .inr ⟨i, g, hg, rfl⟩
  · obtain ⟨g, hg, rfl⟩ := topNode?_eq_some_iff.1 htop
    obtain rfl : s'.size - 1 = i := by omega
    exact .inl (congrArg Frame.node (Option.some.inj (hf.symm.trans hg)))

/-- If no frame is left above them, the stack is the same apart from locks. -/
theorem relocks (h : Rests s.size s s') (hsize : s'.size = s.size) : s.Relocks s' :=
  ⟨hsize, fun i f hf => h.frame i f (frame?_lt hf) hf⟩

end Rests

end SearchStack

/-- A frame that is put on top leaves those below, apart from locks. -/
theorem Installed.rests {before : SearchTree.Node ProgramState Step} {last : Frame Step} {clock : Clock}
    {d : Decoration Step} (h : Installed x n entry last before a clock d x') :
    x.stack.Rests x.stack.size x'.stack := by
  obtain ⟨s, _, _, _, hrelocks, -, hstack⟩ := h.stack
  rw [hstack]
  exact (SearchStack.Rests.of_relocks hrelocks).push

/-! ## Operations made up of moves -/

namespace Ends

open Exploration

variable {limit : Nat}

/-- The sets of a state keep a step that is taken among those that are required. -/
theorem recordTaken_moves {E : Exploration Step χ → Prop} (h : Orderly p t x)
    (htop : x.stack.topNode? = some n) (hn : t.node? n = some entry) (ha : p.CanRun entry.state a)
    (hawake : (x.table.sleep entry.stateId).hasKey (Action.key a) = false) :
    Ends (Exploration.recordTaken entry.stateId (p.enabledSet entry.state) a :
        ExploreM Step χ Empty Unit) x
      (fun _ x' => Move p t x [] x' ∧ x'.stack = x.stack ∧
        x'.table = x.table.update entry.stateId (·.takeAmong (p.enabledSet entry.state) a) ∧
        x'.counters = x.counters) E := by
  have hagrees := (h.agrees n entry hn).takeAmong ha
  have hsubset : ((x.table.get entry.stateId).takeAmong (p.enabledSet entry.state) a).explored.isSubset
      ((x.table.get entry.stateId).takeAmong (p.enabledSet entry.state) a).backtrack := by
    refine Keyed.isSubset_iff.2 fun k hk => ?_
    obtain ⟨b, hb, rfl⟩ := Keyed.hasKey_iff.1 hk
    exact Keyed.hasKey_of_mem (hagrees.taken b hb).1
  unfold Exploration.recordTaken
  refine .bind (.modify (.bind (.get ?_)))
  dsimp only
  rw [DecorationTable.get_update, if_pos rfl, hsubset]
  exact .pure ⟨.take htop hn ha hawake rfl rfl rfl, rfl, rfl, rfl⟩

theorem popFrame_moves (h : Orderly p t x) :
    Succeeds (Exploration.popFrame (p.context precision t settings)) x fun _ x' =>
      Trail (Move p t) x [] x' ∧ Popped p t x x' := by
  refine ((popFrame_pushes h.stands).both popFrame).imp fun _ x' ⟨hpushes, hpopped⟩ => ⟨?_, hpopped⟩
  obtain ⟨x₁, hwidens, htable⟩ := hpopped.widens
  let y : Exploration Step χ := { x with table := x'.table }
  have hy : Widens p t x y := by
    have hstack : x₁.stack = y.stack := hwidens.stack
    refine ⟨rfl, ?_, ?_, ?_, ?_, ?_⟩ <;> show _ <;> simp only [y, htable]
    · exact hwidens.visited
    · exact hwidens.sleep
    · exact hwidens.explored
    · exact hwidens.keeps
    · exact hwidens.adds
  have hcut : x.stack.Prefix 0 x'.stack := by
    rw [hpopped.stack]
    refine ⟨Nat.zero_le _, fun i f hf => ?_, fun i hi => absurd hi (Nat.not_lt_zero i)⟩
    rw [SearchStack.frame?_pop] at hf
    split at hf
    · exact hf
    · cases hf
  exact (Trail.single (Move.require hy rfl)).tail (Move.cut hcut rfl hpushes)

variable [ChoiceSource χ] [LawfulChoiceSource χ]

/-- A push for a node that is reached by a step: a frame is put on top, if the node is not on the stack,
and the frames below stay. It is logged if the node is explored as a child of the current one. -/
theorem pushStep_moves (ht : t.Sound p) (h : Orderly p t x) (hn : t.node? n = some entry)
    (ha : entry.action = some a) (hsize : 0 < x.stack.size) :
    Succeeds (Exploration.pushStep (p.context precision t settings) n entry a limit) x fun isNew x' =>
      Trail (Move p t) x
        (if isNew = true ∧ x.stack.size ≤ limit ∧ x.stack.topNode? = entry.parent then [n] else []) x' ∧
      x.stack.Rests x.stack.size x'.stack ∧ x'.stack.size = x.stack.size + isNew.toNat ∧
      (isNew = true → x'.stack.topNode? = some n) ∧ (isNew = false → x.stack.Holds n) := by
  obtain ⟨last, hlast⟩ := SearchStack.exists_top hsize
  have htop : x.stack.topNode? = some last.node :=
    SearchStack.topNode?_eq_some_iff.2 ⟨last, hlast, rfl⟩
  obtain ⟨m, -, hedge⟩ := ht.exists_parent_of_action hn ha
  have hstep := (ht.canRun hedge).hasStep
  have hscan : Yields (Exploration.scanBelow (p.context precision t settings) x.stack a limit
      (x.stack.size - 1) (.start last a.process x.stack.size)) x
      fun _ x₁ => Steady x x₁ ∧ Widens p t x x₁ :=
    (scanBelow_steady.and (scanBelow_widens h.genuine hstep rfl)).mono (fun _ _ hx => hx)
      fun _ _ => trivial
  refine ((pushStep_pushes (n := n) ht h.stands hsize).both (pushStep ht hn hlast hscan
    fun scan x₁ hx₁ => hx₁.1.stack)).imp ?_
  rintro isNew x' ⟨hpushes, scan, x₁, before, ⟨hsteady, hwidens⟩, hbefore, hpushed⟩
  have hstack₁ := hsteady.stack
  rw [← hsteady.pushes] at hpushes
  have hrequire : Move p t x [] x₁ := .require hwidens hsteady.pushes
  have h₁ := hrequire.orderly ht h
  cases hpushed with
  | refused hholds hstack htable =>
    rw [if_neg (fun hnew => by cases hnew.1)] at hpushes ⊢
    -- at a node met twice everything becomes required, and the stack stays
    have hlast : Widens p t x₁ { x₁ with table := x'.table } := by
      rcases htable with htable | ⟨-, htable⟩
      · exact .of_eq rfl htable
      · obtain ⟨i, f, hf, rfl⟩ := hholds
        refine .decorate hf hn (fun b hb => ?_) (fun b hb => ?_) rfl htable
        · exact Program.mem_enabledSet_iff.2 ((h₁.agrees _ _ hn).required b hb)
        · exact .inr (Program.mem_enabledSet_iff.1 hb)
    refine ⟨?_, ?_, ?_, nofun, fun _ => hstack₁ ▸ hholds⟩
    · exact ((Trail.single hrequire).tail (.require hlast rfl)).tail
        (.keep hstack (fun _ => rfl) hpushes)
    · rw [hstack, hstack₁]
      exact .refl (Nat.le_refl _)
    · rw [hstack, hstack₁]
      rfl
  | visited habsent hlimit hinstalled =>
    -- a node that is only looked into is not logged
    have hnot : ¬(true = true ∧ x.stack.size ≤ limit ∧ x.stack.topNode? = entry.parent) := by
      rintro ⟨-, hle, hparent⟩
      rw [hstack₁] at hlimit
      rcases hlimit with hlimit | hlimit
      · omega
      · exact hlimit (hparent.symm.trans htop)
    rw [if_neg hnot] at hpushes ⊢
    have hrests := hstack₁ ▸ hinstalled.rests
    exact ⟨(Trail.single hrequire).tail (.look habsent hn ha hinstalled hpushes), hrests,
      hstack₁ ▸ hinstalled.size_eq, fun _ => hinstalled.topNode?_eq, nofun⟩
  | entered habsent hlimit hparent hfresh hinstalled =>
    rw [hstack₁] at hlimit
    rw [if_pos ⟨rfl, hlimit, htop.trans hparent.symm⟩] at hpushes ⊢
    have hrests := hstack₁ ▸ hinstalled.rests
    exact ⟨(Trail.single hrequire).tail (.enter habsent hn ha hparent (hstack₁ ▸ htop) hbefore hfresh
      hinstalled hpushes), hrests, hstack₁ ▸ hinstalled.size_eq, fun _ => hinstalled.topNode?_eq, nofun⟩

end Ends

end Interleaving
