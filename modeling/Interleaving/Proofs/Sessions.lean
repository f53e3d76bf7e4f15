import Interleaving.Proofs.Calls
import Interleaving.Proofs.Rounds

/-!
# Sessions

In a session, a client explores a tree that it lets grow (`Search.Session`): between calls of the
exploration it adds children by steps that can run, marks nodes as expanded, covers nodes by others and
prunes the tree, in any order. All that happens is made up of moves (`Search.Move`), and at each moment
the sets of all nodes are in order.
-/

namespace Interleaving

variable {p : Program} {precision : Precision} {t t' t'' : SearchTree ProgramState Step} {χ : Type}
  {x : Exploration Step χ} {n m : NodeId} {a : Step}

/-! ## Trees that change -/

namespace SearchTree

/-- The nodes of `t` stand in `t'` too, with the same parents, steps and states. -/
def Retains (t t' : SearchTree ProgramState Step) : Prop :=
  ∀ n e, t.node? n = some e → ∃ e', t'.node? n = some e' ∧ e'.parent = e.parent ∧
    e'.action = e.action ∧ e'.state = e.state

namespace Retains

theorem refl (t : SearchTree ProgramState Step) : t.Retains t := fun _ e he => ⟨e, he, rfl, rfl, rfl⟩

theorem of_extends (h : t.Extends t') : t.Retains t' := by
  intro n e he
  obtain ⟨cs, b, he'⟩ := h n e he
  exact ⟨_, he', rfl, rfl, rfl⟩

theorem size_le (h : t.Retains t') : t.size ≤ t'.size := by
  rcases Nat.eq_zero_or_pos t.size with hsize | hsize
  · omega
  · have hlast : t.size - 1 < t.size := Nat.sub_lt hsize Nat.one_pos
    obtain ⟨e', he', -⟩ := h ⟨t.size - 1⟩ _ (Array.getElem?_eq_getElem hlast)
    have hlt := index_lt_size he'
    dsimp only at hlt
    omega

theorem edge_iff {e : Node ProgramState Step} (h : t.Retains t') (hn : t.node? n = some e) :
    t'.Edge m a n ↔ t.Edge m a n := by
  obtain ⟨e', he', hparent, haction, -⟩ := h n e hn
  simp only [SearchTree.edge_iff, hn, he', Option.some.injEq, exists_eq_left', hparent, haction]

theorem edge (h : t.Retains t') (hedge : t.Edge m a n) : t'.Edge m a n := by
  obtain ⟨e, he, -⟩ := SearchTree.edge_iff.1 hedge
  exact (h.edge_iff he).2 hedge

end Retains

/-- `t'` has the nodes of `t` with other marks and children, and covers no more of them. -/
def Strips (t t' : SearchTree ProgramState Step) : Prop :=
  ∃ g : NodeId → Node ProgramState Step → Node ProgramState Step,
    (∀ n, t'.node? n = (t.node? n).map (g n)) ∧ ∀ n e, (g n e).parent = e.parent ∧
      (g n e).action = e.action ∧ (g n e).state = e.state ∧
      ∀ c, (g n e).covering = some c → e.covering = some c

namespace Strips

theorem modify {f : Node ProgramState Step → Node ProgramState Step}
    (hf : ∀ e, (f e).parent = e.parent ∧ (f e).action = e.action ∧ (f e).state = e.state ∧
      ∀ c, (f e).covering = some c → e.covering = some c) : t.Strips (t.modify n f) := by
  refine ⟨fun k e => if n = k then f e else e, fun k => node?_modify_eq_map f, fun k e => ?_⟩
  dsimp only
  split
  · exact hf e
  · exact ⟨rfl, rfl, rfl, fun _ h => h⟩

theorem prune (t : SearchTree ProgramState Step) (n : NodeId) : t.Strips (t.prune n) :=
  ⟨t.cutBack n, fun _ => node?_prune,
    fun _ _ => ⟨rfl, rfl, rfl, fun _ hc => (covering_of_cutBack hc).1⟩⟩

theorem retains (h : t.Strips t') : t.Retains t' := by
  obtain ⟨g, hg, hcore⟩ := h
  intro n e he
  obtain ⟨hparent, haction, hstate, -⟩ := hcore n e
  exact ⟨g n e, node?_of_map hg he, hparent, haction, hstate⟩

end Strips

namespace Closed

theorem singleton (s : ProgramState) : (SearchTree.singleton s : SearchTree _ Step).Closed := by
  intro n e c he hc
  rw [Uncovered.singleton s n e he] at hc
  cases hc

variable (h : t.Closed)
include h

theorem strips (hstrips : t.Strips t') : t'.Closed := by
  have hretains := hstrips.retains
  obtain ⟨g, hg, hcore⟩ := hstrips
  intro n e' c he' hc
  rw [hg, Option.map_eq_some_iff] at he'
  obtain ⟨e, he, rfl⟩ := he'
  obtain ⟨d, hd⟩ := h n e c he ((hcore n e).2.2.2 c hc)
  obtain ⟨d', hd', -⟩ := hretains c d hd
  exact ⟨d', hd'⟩

theorem setExpanded {b : Bool} : (t.setExpanded n b).Closed :=
  h.strips (.modify fun _ => ⟨rfl, rfl, rfl, fun _ h => h⟩)

theorem setCovering {d : Node ProgramState Step} (hm : t.node? m = some d) :
    (t.setCovering n (some m)).Closed := by
  have hstands : ∀ c d, t.node? c = some d → ∃ d', (t.setCovering n (some m)).node? c = some d' := by
    intro c d hd
    rw [SearchTree.setCovering, node?_modify, hd]
    split
    · exact ⟨_, rfl⟩
    · exact ⟨d, rfl⟩
  intro k e' c he' hc
  rw [SearchTree.setCovering, node?_modify] at he'
  split at he'
  · obtain ⟨e, he, rfl⟩ := Option.map_eq_some_iff.1 he'
    obtain rfl := Option.some.inj (show some m = some c from hc)
    exact hstands m d hm
  · obtain ⟨d', hd'⟩ := h k e' c he' hc
    exact hstands c d' hd'

theorem addChild {d : Node ProgramState Step} {s : ProgramState} (hm : t.node? m = some d) :
    (t.addChild m a s).2.Closed := by
  intro k e' c he' hc
  rcases new_or_old_of_addChild hm he' with ⟨rfl, rfl⟩ | ⟨e, he, rfl⟩
  · cases hc
  · rw [covering_adopting] at hc
    obtain ⟨d', hd'⟩ := h k e c he hc
    exact ⟨_, node?_addChild_old hm hd'⟩

end Closed

end SearchTree

/-- The sets of all nodes stay in order when the tree changes. -/
theorem Orderly.retree (ht : t.Sound p) (ht' : t'.Sound p) (hretains : t.Retains t')
    (h : Orderly p t x) : Orderly p t' x := by
  refine ⟨fun n e' he' => ?_, fun i f hf => ?_, h.genuine, fun i hi => ?_⟩
  · cases hn : t.node? n with
    | none =>
      -- nothing is known of a new node
      have hsize : t.size ≤ n.index := Array.getElem?_eq_none_iff.1 hn
      rw [(ht'.identity n e' he').1, h.unseen n.index hsize]
      exact .empty
    | some e =>
      obtain ⟨d, hd, -, -, hstate⟩ := hretains n e hn
      obtain rfl : d = e' := Option.some.inj (hd.symm.trans he')
      rw [(ht'.identity n d hd).1, hstate, ← (ht.identity n e hn).1]
      exact h.agrees n e hn
  · obtain ⟨e, he⟩ := h.stands i f hf
    obtain ⟨e', he', -⟩ := hretains _ e he
    exact ⟨e', he'⟩
  · exact h.unseen i (Nat.le_trans hretains.size_le hi)

namespace SearchTree

/-- How a client may change its tree. -/
inductive Change (p : Program) (t : SearchTree ProgramState Step) :
    SearchTree ProgramState Step → Prop where
  /-- A child is added by a step that can run. -/
  | grow {m : NodeId} {e : Node ProgramState Step} {a : Step} : t.node? m = some e →
    p.CanRun e.state a → Change p t (t.addChild m a (e.state.after a)).2
  | mark (n : NodeId) (expanded : Bool) : Change p t (t.setExpanded n expanded)
  /-- A node is covered by any node of the tree. -/
  | cover {c : NodeId} {e : Node ProgramState Step} (n : NodeId) : t.node? c = some e →
    Change p t (t.setCovering n (some c))
  | prune (n : NodeId) : Change p t (t.prune n)

namespace Change

variable (h : Change p t t')
include h

theorem sound (ht : t.Sound p) : t'.Sound p := by
  cases h with
  | grow hm ha => exact ht.addChild hm ha
  | mark => exact ht.setExpanded
  | cover => exact ht.setCovering
  | prune => exact ht.prune

theorem closed (ht : t.Closed) : t'.Closed := by
  cases h with
  | grow hm => exact ht.addChild hm
  | mark => exact ht.setExpanded
  | cover _ hc => exact ht.setCovering hc
  | prune n => exact ht.strips (.prune t n)

theorem retains : t.Retains t' := by
  cases h with
  | grow hm => exact .of_extends (extends_addChild hm)
  | mark => exact .of_extends extends_setExpanded
  | cover =>
    intro k e he
    rw [setCovering, node?_modify, he]
    split
    · exact ⟨_, rfl, rfl, rfl, rfl⟩
    · exact ⟨e, rfl, rfl, rfl, rfl⟩
  | prune n => exact (Strips.prune t n).retains

end Change

end SearchTree

/-! ## Moves of a search -/

namespace Search

variable {s s' s₁ s₂ : Search ProgramState Step χ} {l : List NodeId}

/-- A move of the exploration, or a change of the tree. -/
inductive Move (p : Program) :
    Search ProgramState Step χ → List NodeId → Search ProgramState Step χ → Prop where
  | explore {s : Search ProgramState Step χ} {l : List NodeId} {x : Exploration Step χ} :
    Exploration.Move p s.tree s.exploration l x → Move p s l (s.withExploration x)
  | change {s : Search ProgramState Step χ} {t : SearchTree ProgramState Step} :
    s.tree.Change p t → Move p s [] (s.withTree t)

/-- What holds at each moment of a session. -/
structure IsOrderly (p : Program) (s : Search ProgramState Step χ) : Prop where
  sound : s.tree.Sound p
  closed : s.tree.Closed
  orderly : Orderly p s.tree s.exploration

theorem Move.isOrderly (hmove : Move p s l s') (h : s.IsOrderly p) : s'.IsOrderly p := by
  cases hmove with
  | explore hmove => exact ⟨h.sound, h.closed, hmove.orderly h.sound h.orderly⟩
  | change hchange =>
    exact ⟨hchange.sound h.sound, hchange.closed h.closed,
      h.orderly.retree h.sound (hchange.sound h.sound) hchange.retains⟩

/-- While a node is on the stack, its sets only grow. -/
theorem Move.grows {e : SearchTree.Node ProgramState Step} (hmove : Move p s l s')
    (h : s.IsOrderly p) (hn : s.tree.node? n = some e) (hholds : s.exploration.stack.Holds n) :
    (s.exploration.table.get e.stateId).Grows (s'.exploration.table.get e.stateId) := by
  cases hmove with
  | explore hmove => exact hmove.grows h.sound hn hholds
  | change => exact .refl _

theorem Move.retains (hmove : Move p s l s') : s.tree.Retains s'.tree := by
  cases hmove with
  | explore => exact .refl _
  | change hchange => exact hchange.retains

/-- The moves between two moments, and the nodes whose frames are put on the stack to be explored. -/
abbrev Path (p : Program) :
    Search ProgramState Step χ → List NodeId → Search ProgramState Step χ → Prop :=
  Trail (Move p)

theorem path_explore {x : Exploration Step χ}
    (h : Trail (Exploration.Move p s.tree) s.exploration l x) : Path p s l (s.withExploration x) :=
  h.map (f := s.withExploration) fun x _ _ hmove => .explore (s := s.withExploration x) hmove

/-- Emptying the stack is made up of moves. -/
theorem path_clear : Path p s [] (s.withExploration s.exploration.clear) := by
  let x : Exploration Step χ := { s.exploration with stack := {} }
  have hcut : Exploration.Move p s.tree s.exploration [] x := by
    refine .cut ⟨Nat.zero_le _, fun i f hf => ?_, fun i hi => absurd hi (Nat.not_lt_zero i)⟩ rfl rfl
    simp [x, SearchStack.frame?] at hf
  exact path_explore ((Trail.single hcut).tail (.keep rfl (fun _ => rfl) rfl))

/-- The number of pushes goes up by one for each node that is logged. -/
theorem Path.pushes (hpath : Path p s l s') :
    s'.exploration.counters.pushes = s.exploration.counters.pushes + l.length := by
  induction hpath with
  | refl => rfl
  | tail _ hmove ih =>
    rw [List.length_append, ← Nat.add_assoc, ← ih]
    cases hmove with
    | explore hmove => exact hmove.pushes
    | change => rfl

theorem Path.settings (hpath : Path p s l s') : s'.settings = s.settings := by
  induction hpath with
  | refl => rfl
  | tail _ hmove ih =>
    rw [← ih]
    cases hmove <;> rfl

theorem Path.isOrderly (hpath : Path p s l s') (h : s.IsOrderly p) : s'.IsOrderly p :=
  hpath.preserves h fun _ _ _ h hmove => hmove.isOrderly h

/-- Moves during which the node `n` stays on the stack, up to the last one. -/
def Keeps (p : Program) (n : NodeId) (s s' : Search ProgramState Step χ) : Prop :=
  ∃ l, Trail (fun s l s' => Move p s l s' ∧ s.exploration.stack.Holds n) s l s'

theorem Keeps.path (h : Keeps p n s s') : ∃ l, Path p s l s' := by
  obtain ⟨l, hl⟩ := h
  exact ⟨l, hl.map fun _ _ _ hmove => hmove.1⟩

theorem Keeps.grows {e : SearchTree.Node ProgramState Step} (h : s.IsOrderly p)
    (hn : s.tree.node? n = some e) (hkeeps : Keeps p n s s') :
    (s.exploration.table.get e.stateId).Grows (s'.exploration.table.get e.stateId) := by
  obtain ⟨l, hl⟩ := hkeeps
  have hid := (h.sound.identity n e hn).1
  -- along the moves the node keeps its place in the table
  refine (hl.preserves (I := fun s₁ => s₁.IsOrderly p ∧ (∃ e₁, s₁.tree.node? n = some e₁) ∧
    (s.exploration.table.get e.stateId).Grows (s₁.exploration.table.get e.stateId))
    ⟨h, ⟨e, hn⟩, .refl _⟩ ?_).2.2
  rintro s₁ k s₂ ⟨h₁, ⟨e₁, hn₁⟩, hgrows⟩ ⟨hmove, hholds⟩
  have hstep := hmove.grows h₁ hn₁ hholds
  obtain ⟨e₂, hn₂, -⟩ := hmove.retains n e₁ hn₁
  rw [(h₁.sound.identity n e₁ hn₁).1, ← hid] at hstep
  exact ⟨hmove.isOrderly h₁, ⟨e₂, hn₂⟩, hgrows.trans hstep⟩

/-! ## Sessions -/

section Session

variable [ChoiceSource χ]

/-- Carries out a call of the exploration with some variables tracked. -/
def ask (p : Program) (precision : Precision) (call : Exploration.Call) :
    SearchM ProgramState Step χ Empty (Option Step) :=
  explore (p.system precision) fun ctx => call.perform ctx

/-- What a client may do, if it tracks variables as allowed. -/
inductive Performs (p : Program) (allowed : Precision → Prop) (s : Search ProgramState Step χ) :
    Search ProgramState Step χ → Prop where
  /-- A call for nodes of the tree, whether it is answered or refused. -/
  | call {s' : Search ProgramState Step χ} {precision : Precision} {call : Exploration.Call} :
    allowed precision → (∀ n ∈ call.nodes, ∃ e, s.tree.node? n = some e) →
    Ends (ask p precision call) s (fun _ s₁ => s₁ = s') (· = s') → Performs p allowed s s'
  /-- The stack is emptied. -/
  | clear : Performs p allowed s (s.withExploration s.exploration.clear)
  | change {t : SearchTree ProgramState Step} : s.tree.Change p t →
    Performs p allowed s (s.withTree t)

/-- The states of a search that a client can bring about. -/
inductive Session (p : Program) (allowed : Precision → Prop) : Search ProgramState Step χ → Prop where
  | start (settings : Settings) (seed : Option UInt64) (choices : χ) :
    Session p allowed (.ofChoices settings seed choices (.singleton p.initialState))
  | next {s s' : Search ProgramState Step χ} : Session p allowed s → Performs p allowed s s' →
    Session p allowed s'

omit [ChoiceSource χ] in
theorem isOrderly_ofChoices (settings : Settings) (seed : Option UInt64) (choices : χ) :
    (ofChoices settings seed choices (.singleton p.initialState)).IsOrderly p := by
  refine ⟨SearchTree.sound_singleton p, .singleton _, fun n e _ => ?_, .empty, ?_, fun i _ => ?_⟩
  · have hget : (Exploration.ofChoices choices : Exploration Step χ).table.get e.stateId = {} := by
      simp [Exploration.ofChoices, DecorationTable.get, DecorationTable.get?]
    show Decoration.Agrees p e.state ((Exploration.ofChoices choices : Exploration Step χ).table.get _)
    rw [hget]
    exact .empty
  · intro i f a hf
    simp [ofChoices, Exploration.ofChoices, SearchStack.frame?] at hf
  · simp [ofChoices, Exploration.ofChoices, DecorationTable.get, DecorationTable.get?]

/-- What a call comes to in the exploration, it comes to in the search. -/
theorem settles_ask {call : Exploration.Call} {Q : Search ProgramState Step χ → Prop}
    (h : Settles (call.perform (p.context precision s.tree s.settings)) s.exploration
      fun x => Q (s.withExploration x)) : Settles (ask p precision call) s Q := by
  obtain ⟨settings, seed, tree, x⟩ := s
  unfold Settles at h ⊢
  unfold ask explore
  dsimp only [Program.context] at h
  dsimp only
  cases hop : call.perform { system := p.system precision, tree, settings } x with
  | ok b x' =>
    rw [hop] at h
    exact h
  | error halt x' =>
    rw [hop] at h
    cases halt <;> exact h

variable [LawfulChoiceSource χ]

/-- A call is made up of moves, whether it is answered or refused. -/
theorem IsOrderly.settles_ask {call : Exploration.Call} (h : s.IsOrderly p)
    (hnodes : ∀ n ∈ call.nodes, ∃ e, s.tree.node? n = some e) :
    Settles (ask p precision call) s fun s' => ∃ l, Path p s l s' := by
  exact Search.settles_ask ((h.orderly.settles h.sound h.closed hnodes).imp fun x' ⟨l, hl⟩ =>
    ⟨l, path_explore hl⟩)

theorem Performs.path {allowed : Precision → Prop} (h : s.IsOrderly p)
    (hperforms : Performs p allowed s s') : ∃ l, Path p s l s' := by
  cases hperforms with
  | call _ hnodes hends => exact (h.settles_ask hnodes).of_ends hends
  | clear => exact ⟨[], path_clear⟩
  | change hchange => exact ⟨[], .single (.change hchange)⟩

theorem Session.isOrderly {allowed : Precision → Prop} (h : Session p allowed s) : s.IsOrderly p := by
  induction h with
  | start settings seed choices => exact isOrderly_ofChoices settings seed choices
  | next _ hperforms ih =>
    obtain ⟨l, hl⟩ := hperforms.path ih
    exact hl.isOrderly ih

end Session

/-- Two threads write to the same variable. -/
def rivalWriters : Program := (Program.empty.thread [.write "x" 1]).thread [.write "x" 2]

section Follow

variable [ChoiceSource χ]

/-- The search in which a new child of the current node has been made by a step, if there is a current
node and the step can run there. -/
def sprout (p : Program) (s : Search ProgramState Step χ) (a : Step) :
    Option (Search ProgramState Step χ) := do
  let m ← s.exploration.stack.topNode?
  let entry ← s.tree.node? m
  guard (a ∈ p.enabled entry.state)
  pure (s.withTree (s.tree.addChild m a (entry.state.after a)).2)

/-- The search after a call, if it was answered. -/
def answered (p : Program) (precision : Precision) (call : Exploration.Call)
    (s : Search ProgramState Step χ) : Option (Search ProgramState Step χ) :=
  match ask p precision call s with
  | .ok _ s' => some s'
  | .error _ _ => none

/-- The search in which the latest node of the tree has been added, if that was not refused. -/
def enter (p : Program) (precision : Precision) (s : Search ProgramState Step χ) :
    Option (Search ProgramState Step χ) :=
  match ask p precision (.add ⟨s.tree.size - 1⟩) s with
  | .ok _ s' => some s'
  | .error _ _ => none

/-- The search after each step of a list has been taken from the root on. -/
def follow (p : Program) (precision : Precision) (choices : χ) (w : List Step) :
    Option (Search ProgramState Step χ) := do
  let opened ← enter p precision (ofChoices {} none choices (.singleton p.initialState))
  w.foldlM (fun s a => do enter p precision (← sprout p s a)) opened

/-- After a run has been followed, a child of the current node by one more step can be added, and the
searches before and after that pass a test. -/
def addsAfter (p : Program) (precision : Precision) (choices : χ) (w : List Step) (a : Step)
    (test : Search ProgramState Step χ → Search ProgramState Step χ → Bool) : Bool :=
  (follow p precision choices w).any fun s₀ => (sprout p s₀ a).any fun s =>
    let n : NodeId := ⟨s.tree.size - 1⟩
    (s.tree.parent n).isSome && s.exploration.stack.topNode? == s.tree.parent n &&
      s.tree.action n == some a && Exploration.chainedActions s.tree s.exploration.stack 1 == w &&
      endedWith (fun _ s' => test s s') (explore (p.system precision) (Exploration.add · n) s)

variable {allowed : Precision → Prop}

theorem Session.sprout (h : Session p allowed s) (hs : Search.sprout p s a = some s') :
    Session p allowed s' := by
  unfold Search.sprout at hs
  obtain ⟨m, -, hs⟩ := Option.bind_eq_some_iff.1 hs
  obtain ⟨entry, hentry, hs⟩ := Option.bind_eq_some_iff.1 hs
  obtain ⟨_, hguard, hs⟩ := Option.bind_eq_some_iff.1 hs
  obtain rfl := Option.some.inj hs
  exact .next h (.change (.grow hentry (Program.mem_enabled_iff.1
    ((Option.guard_eq_some' _).1 hguard))))

variable [LawfulChoiceSource χ]

omit [LawfulChoiceSource χ] in
theorem Session.answered {call : Exploration.Call} (h : Session p allowed s)
    (hallowed : allowed precision) (hnodes : ∀ n ∈ call.nodes, ∃ e, s.tree.node? n = some e)
    (hs : Search.answered p precision call s = some s') : Session p allowed s' := by
  refine .next h (.call hallowed hnodes ?_)
  unfold Search.answered at hs
  unfold Ends
  cases hask : ask p precision call s with
  | ok _ s₁ =>
    rw [hask] at hs
    exact Option.some.inj hs
  | error _ _ =>
    rw [hask] at hs
    cases hs

theorem Session.enter (h : Session p allowed s) (hallowed : allowed precision)
    (hs : Search.enter p precision s = some s') : Session p allowed s' := by
  refine h.answered hallowed (fun n hn => ?_) hs
  obtain ⟨root, hroot, -⟩ := h.isOrderly.sound.root
  have hsize := SearchTree.index_lt_size hroot
  rw [List.mem_singleton.1 hn]
  exact ⟨_, Array.getElem?_eq_getElem (Nat.sub_lt (Nat.zero_lt_of_lt hsize) Nat.one_pos)⟩

/-- The search that has followed a run is a session. -/
theorem session_follow {choices : χ} {w : List Step} (h : follow p precision choices w = some s) :
    Session p (· = precision) s := by
  unfold follow at h
  obtain ⟨opened, hopened, hsteps⟩ := Option.bind_eq_some_iff.1 h
  have hstart : Session p (· = precision) opened := (Session.start {} none choices).enter rfl hopened
  clear h hopened
  induction w generalizing opened with
  | nil => exact Option.some.inj hsteps ▸ hstart
  | cons a w ih =>
    obtain ⟨s₂, hs₂, hsteps⟩ := Option.bind_eq_some_iff.1 hsteps
    obtain ⟨s₁, hs₁, hs₂⟩ := Option.bind_eq_some_iff.1 hs₂
    exact ih s₂ hsteps ((hstart.sprout hs₁).enter rfl hs₂)

theorem exists_of_addsAfter {choices : χ} {w : List Step}
    {test : Search ProgramState Step χ → Search ProgramState Step χ → Bool}
    (h : addsAfter p precision choices w a test) :
    ∃ (s s' : Search ProgramState Step χ) (m n : NodeId) (isNew : Bool),
      Session p (· = precision) s ∧ s.exploration.stack.topNode? = some m ∧ s.tree.Edge m a n ∧
        explore (p.system precision) (Exploration.add · n) s = .ok isNew s' ∧
        Exploration.chainedActions s.tree s.exploration.stack 1 = w ∧ test s s' := by
  obtain ⟨s₀, hs₀, h⟩ := (Option.any_eq_true _ _).1 h
  obtain ⟨s, hs, h⟩ := (Option.any_eq_true _ _).1 h
  simp only [Bool.and_eq_true, beq_iff_eq] at h
  obtain ⟨⟨⟨⟨hchild, htop⟩, haction⟩, hrun⟩, hadd⟩ := h
  obtain ⟨m, hparent⟩ := Option.isSome_iff_exists.1 hchild
  obtain ⟨isNew, s', hadd, htest⟩ := exists_of_endedWith hadd
  exact ⟨s, s', m, _, isNew, (session_follow hs₀).sprout hs, htop.trans hparent, ⟨hparent, haction⟩,
    hadd, hrun, htest⟩

end Follow

end Search

end Interleaving
