import Interleaving.Proofs.Records

/-!
# What a round preserves

What the exploration of a tree preserves, whatever was taken or pruned in earlier rounds and whichever
variables are tracked. `Exploring` says it of the visited nodes: which steps have been taken there, what is
due and what has been passed over, and that the races on every way have been reversed by steps that are
due. A way goes on past a covered node that has been left behind, below the node that covers it
(`SearchTree.LeadsOn`). Each operation preserves that, as long as the races on the ways past a covered node
have been reversed when this is popped (`Exploration.ReversesPast`). So once the stack is empty, the
visited nodes are a reduced tree.
-/

namespace Interleaving

variable {p : Program} {precision : Precision} {t : SearchTree ProgramState Step}
  {settings : Settings} {x x' : Exploration Step Seeded} {taken taken' : NodeId → List Step}
  {pending : Option Step} {stack stack' : SearchStack Step} {n m c k : NodeId} {a b e q : Step}
  {w y : List Step}

/-! ## Ways -/

/-- From `n` the step `a` leads on to `m`: to a child or, if `n` is covered and not on the stack, to a child
of the node that covers it. -/
inductive SearchTree.LeadsOn (t : SearchTree ProgramState Step) (stack : SearchStack Step) (n : NodeId)
    (a : Step) (m : NodeId) : Prop
  | edge : t.Edge n a m → LeadsOn t stack n a m
  | past {c : NodeId} : t.Covers c n → ¬stack.Holds n → t.Edge c a m → LeadsOn t stack n a m

namespace SearchTree.LeadsOn

theorem mono (h : t.LeadsOn stack n a m) (hholds : ∀ k, stack'.Holds k → stack.Holds k) :
    t.LeadsOn stack' n a m := by
  cases h with
  | edge hedge => exact .edge hedge
  | past hcovers hleft hedge => exact .past hcovers (fun hn => hleft (hholds n hn)) hedge

theorem edge_of_uncovered (h : t.LeadsOn stack n a m) (huncovered : t.Uncovered) : t.Edge n a m := by
  cases h with
  | edge hedge => exact hedge
  | past hcovers _ _ => exact absurd hcovers huncovered.not_covers

end SearchTree.LeadsOn

/-- The node `c` covers `n` and has been explored before: what has been passed over there has been passed
over at `n` too, where nothing is taken. -/
structure AnswersFor (t : SearchTree ProgramState Step) (x : Exploration Step Seeded)
    (taken : NodeId → List Step) (c n : NodeId) : Prop where
  visits : x.Visits n
  answers : x.Visits c
  left : ¬x.stack.Holds c
  uncovered : ∀ d, ¬t.Covers d c
  state_eq : t.state c = t.state n
  untaken : taken n = []
  passesOver : ∀ b, x.PassesOver taken c b → x.PassesOver taken n b

theorem AnswersFor.mono (h : AnswersFor t x taken c n) (hvisits : ∀ m, x.Visits m → x'.Visits m)
    (hleft : ¬x'.stack.Holds c) (huntaken : taken' n = [])
    (hpasses : ∀ m, x.Visits m → ∀ b, x'.PassesOver taken' m b ↔ x.PassesOver taken m b) :
    AnswersFor t x' taken' c n where
  visits := hvisits n h.visits
  answers := hvisits c h.answers
  left := hleft
  uncovered := h.uncovered
  state_eq := h.state_eq
  untaken := huntaken
  passesOver b hb := (hpasses n h.visits b).2 (h.passesOver b ((hpasses c h.answers b).1 hb))

/-- The races on the ways that go past the node `n`, which is covered by `c`, have been reversed. -/
def Exploration.ReversesPast (p : Program) (precision : Precision) (t : SearchTree ProgramState Step)
    (x : Exploration Step Seeded) (taken : NodeId → List Step) (c n : NodeId) : Prop :=
  ∀ m q k y u e k', t.Edge m q k → Walk t.Edge k y n → Walk (t.LeadsOn x.stack) c (u ++ [e]) k' →
    x.Visits k' → Race p precision (t.state m) q (y ++ u) e →
    x.Reverses p precision t taken m q (y ++ u) e

/-- The current node is not covered. -/
def Exploration.TopUncovered (t : SearchTree ProgramState Step) (x : Exploration Step Seeded) : Prop :=
  ∀ n c, x.stack.topNode? = some n → ¬t.Covers c n

/-- The state of a round that has taken the steps `taken n` at each node `n`. -/
structure Exploring (p : Program) (precision : Precision) (t : SearchTree ProgramState Step)
    (taken : NodeId → List Step) (pending : Option Step) (x : Exploration Step Seeded) : Prop
    extends Records t taken pending x where
  path : EachFrame (FrameSound p precision) t x.stack
  canRun : ∀ n, x.Visits n → ∀ a ∈ (x.sets n).backtrack.toList, p.CanRun (t.state n) a
  genuine : ∀ n, x.Visits n → (x.sets n).sleep.IsGenuine p
  /-- Where something has not been passed over, something is due. -/
  awake : ∀ n, x.Visits n → (∀ c, ¬t.Covers c n) → ∀ a, p.CanRun (t.state n) a →
    ¬x.PassesOver taken n a → ∃ b, x.Due taken n b
  inherited : ∀ n l₁ a l₂ c b, taken n = l₁ ++ a :: l₂ → t.Edge n a c → x.Visits c →
    (x.PassesOver taken c b ↔ ¬Step.Depends precision b a ∧ (x.PassesOver taken n b ∨ b ∈ l₁))
  /-- What is required at a node left behind has been taken or is redundant, if nothing is covered. -/
  closed : t.Uncovered → ∀ n, x.Visits n → ¬x.stack.Holds n →
    ∀ a ∈ (x.sets n).backtrack.toList, a ∈ (x.sets n).sleep.toList
  reversed : ∀ n q k y e m, t.Edge n q k → Walk (t.LeadsOn x.stack) k (y ++ [e]) m → x.Visits m →
    Race p precision (t.state n) q y e → x.Reverses p precision t taken n q y e
  covered : ∀ c n, t.Covers c n → AnswersFor t x taken c n
  root : ∀ a, ¬x.PassesOver taken SearchTree.root a

/-! ## Lemmas -/

/-- Something becomes required only where it can run, at nodes on the stack. -/
theorem Widens.mem_backtrack (h : Widens p t x x') (ht : t.Sound p)
    (ha : a ∈ (x'.sets n).backtrack.toList) :
    a ∈ (x.sets n).backtrack.toList ∨ x.stack.Holds n ∧ p.CanRun (t.state n) a := by
  rcases h.adds _ a ha with ha | ⟨i, f, e, hf, he, hid, hrun⟩
  · exact .inl ha
  · rw [(ht.identity _ _ he).1] at hid
    obtain rfl : n = f.node := NodeId.eq_of_stateId_eq hid.symm
    exact .inr ⟨⟨i, f, hf, rfl⟩, SearchTree.state_eq he ▸ hrun⟩

theorem Widens.due (h : Widens p t x x') (hdue : x.Due taken n a) : x'.Due taken n a := by
  rcases hdue with hmem | ⟨hholds, ha, hsleep⟩
  · exact .inl hmem
  · refine .inr ⟨h.stack ▸ hholds, h.keeps _ a ha, ?_⟩
    rw [Exploration.sets, h.sleep]
    exact hsleep

namespace Exploring

section Lemmas

variable (h : Exploring p precision t taken pending x)
include h

theorem of_eq (hstack : x'.stack = x.stack) (htable : x'.table = x.table) :
    Exploring p precision t taken pending x' := by
  obtain ⟨stack, table, counters, choices⟩ := x
  obtain ⟨stack', table', counters', choices'⟩ := x'
  obtain rfl : stack' = stack := hstack
  obtain rfl : table' = table := htable
  exact ⟨⟨h.started, h.standing, h.node, h.edge, h.unvisited, h.explored, h.recorded, h.sleep, h.nodup,
    h.last, h.child⟩, h.path, h.canRun, h.genuine, h.awake, h.inherited, h.closed, h.reversed,
    fun c n hcovers => (h.covered c n hcovers).mono (fun _ hm => hm) (h.covered c n hcovers).left
      (h.covered c n hcovers).untaken fun _ _ _ => Iff.rfl, h.root⟩

theorem asleep_iff_mem (hn : x.Visits n) :
    x.Asleep n a ↔ a ∈ (x.sets n).sleep.toList ∧ a ∉ (x.sets n).explored.toList := by
  rw [Exploration.Asleep, Decoration.asleep, Keyed.mem_difference]
  refine and_congr_right fun ha => ?_
  rw [Bool.eq_false_iff, ne_eq, ActionSet.IsGenuine.hasKey_iff (p := p)]
  · exact fun b hb => h.genuine n hn b (h.sleep n hn b (h.explored n hn b hb))
  · exact h.genuine n hn a ha

/-- What has been passed over still counts as redundant. -/
theorem asleep_of_passesOver (hn : x.Visits n) (ha : x.PassesOver taken n a) : x.Asleep n a :=
  (h.asleep_iff_mem hn).2 ⟨ha.1, fun hmem => ha.2 (h.explored n hn a hmem)⟩

/-- Where the explored set is known, that is all. -/
theorem asleep_iff (hn : x.Visits n) (hplace : x.stack.Holds n ∨ t.Uncovered) :
    x.Asleep n a ↔ x.PassesOver taken n a := by
  refine ⟨fun ha => ?_, h.asleep_of_passesOver hn⟩
  obtain ⟨hsleep, hexplored⟩ := (h.asleep_iff_mem hn).1 ha
  exact ⟨hsleep, fun hmem => hexplored (h.recorded n hn hplace a hmem)⟩

theorem awake_iff (hholds : x.stack.Holds n) (ha : p.HasStep a) :
    (x.sets n).asleep.hasKey (Action.key a) = false ↔ ¬x.PassesOver taken n a := by
  have hn := h.standing n hholds
  rw [← h.asleep_iff hn (.inl hholds), Bool.eq_false_iff, ne_eq,
    ActionSet.IsGenuine.hasKey_iff (p := p) _ ha]
  · rfl
  · exact fun b hb => h.genuine n hn b (Keyed.mem_difference.1 hb).1

theorem not_covers_of_edge (hedge : t.Edge n a k) (hk : x.Visits k) : ¬t.Covers c n := by
  intro hcovers
  have ha := (h.edge n a k hedge hk).2
  rw [(h.covered c n hcovers).untaken] at ha
  cases ha

/-- A node from which one goes down to the current one is not covered. -/
theorem not_covers_pop (htop : x.stack.pop.topNode? = some m) : ¬t.Covers c m := by
  have hpos := SearchStack.size_ne_zero htop
  rw [SearchStack.size_pop] at hpos
  obtain ⟨w, hfollows, -⟩ := Or.resolve_left h.path (by omega)
  rcases List.eq_nil_or_concat w with rfl | ⟨w, a, rfl⟩
  · exact absurd (by rw [hfollows.size_eq]; rfl) hpos
  rw [List.concat_eq_append] at hfollows
  obtain ⟨f, hf, rfl⟩ := hfollows.pop.exists_top htop
  obtain ⟨f', g, hf', hg, -, hedge⟩ := hfollows.next w.length a (by simp)
  rw [SearchStack.frame?_pop] at hf
  split at hf
  swap
  · cases hf
  obtain rfl := Option.some.inj (hf.symm.trans hf')
  exact h.not_covers_of_edge hedge (h.standing _ ⟨_, g, hg, rfl⟩)

/-- A way to a visited node goes through visited nodes. -/
theorem visits_of_walk (hwalk : Walk (t.LeadsOn stack) n w m) (hm : x.Visits m) : x.Visits n := by
  refine (hwalk.retrace (E := t.LeadsOn stack) hm fun n a k hleads hk => ⟨hleads, ?_⟩).2
  cases hleads with
  | edge hedge => exact (h.edge n a k hedge hk).1
  | past hcovers _ _ => exact (h.covered _ n hcovers).visits

/-- A way to a node on the stack is a path of the tree, since nodes that cover others have been left
behind. -/
theorem walk_of_holds (ht : t.Sound p) (hwalk : Walk (t.LeadsOn x.stack) n w m)
    (hm : x.stack.Holds m) : Walk t.Edge n w m ∧ x.stack.Holds n := by
  have hparent : ∀ {n a k}, t.Edge n a k → x.stack.Holds k → x.stack.Holds n := by
    rintro n a k hedge ⟨i, f, hf, rfl⟩
    have hi := SearchStack.frame?_lt hf
    obtain ⟨w, hfollows, -⟩ := Or.resolve_left h.path (by omega)
    obtain ⟨u, -, g, hg, hgn⟩ := hfollows.exists_split ht hf (.cons hedge (.nil _))
    exact ⟨_, g, hg, hgn⟩
  refine hwalk.retrace hm fun n a k hleads hk => ?_
  cases hleads with
  | edge hedge => exact ⟨hedge, hparent hedge hk⟩
  | past hcovers _ hedge => exact absurd (hparent hedge hk) (h.covered _ n hcovers).left

/-- The state may change apart from what has been taken, if nodes keep what is redundant there and what is
due, and if the races are reversed on the ways that are there then. -/
theorem carry (hrecords : Records t taken pending x')
    (hpath : EachFrame (FrameSound p precision) t x'.stack) (hvisits : ∀ n, x'.Visits n ↔ x.Visits n)
    (hholds : ∀ n, x'.stack.Holds n → x.stack.Holds n)
    (hsleep : ∀ n, (x'.sets n).sleep = (x.sets n).sleep)
    (hcan : ∀ n, x.Visits n → ∀ a ∈ (x'.sets n).backtrack.toList, p.CanRun (t.state n) a)
    (hclosed : t.Uncovered → ∀ n, x.Visits n → ¬x'.stack.Holds n →
      ∀ a ∈ (x'.sets n).backtrack.toList, a ∈ (x.sets n).sleep.toList)
    (hdue : ∀ n, (∀ c, ¬t.Covers c n) → ∀ a, x.Due taken n a → x'.Due taken n a)
    (hreversed : ∀ n q k y e m, t.Edge n q k → Walk (t.LeadsOn x'.stack) k (y ++ [e]) m →
      x.Visits m → Race p precision (t.state n) q y e → x.Reverses p precision t taken n q y e) :
    Exploring p precision t taken pending x' := by
  have hpasses : ∀ n b, x'.PassesOver taken n b ↔ x.PassesOver taken n b :=
    fun n b => Exploration.passesOver_congr (hsleep n)
  constructor
  case toRecords => exact hrecords
  case path => exact hpath
  case canRun => exact fun n hn => hcan n ((hvisits n).1 hn)
  case genuine =>
    intro n hn
    rw [hsleep]
    exact h.genuine n ((hvisits n).1 hn)
  case awake =>
    intro n hn huncovered a hrun ha
    rw [hpasses] at ha
    obtain ⟨b, hb⟩ := h.awake n ((hvisits n).1 hn) huncovered a hrun ha
    exact ⟨b, hdue n huncovered b hb⟩
  case inherited =>
    intro n l₁ a l₂ c b hsplit hedge hc
    rw [hpasses, hpasses]
    exact h.inherited n l₁ a l₂ c b hsplit hedge ((hvisits c).1 hc)
  case closed =>
    intro huncovered n hn hleft
    rw [hsleep]
    exact hclosed huncovered n ((hvisits n).1 hn) hleft
  case reversed =>
    intro n q k y e m hedge hwalk hm hrace
    have hm := (hvisits m).1 hm
    have huncovered := fun c => h.not_covers_of_edge (c := c) hedge (h.visits_of_walk hwalk hm)
    exact (hreversed n q k y e m hedge hwalk hm hrace).mono (fun b => (hpasses n b).2)
      (hdue n huncovered)
  case covered =>
    intro c n hcovers
    have hanswers := h.covered c n hcovers
    exact hanswers.mono (fun m => (hvisits m).2) (fun hc => hanswers.left (hholds c hc))
      hanswers.untaken fun m _ b => hpasses m b
  case root =>
    intro a
    rw [hpasses]
    exact h.root a

end Lemmas

/-! ## What the operations preserve -/

/-- More steps may become required at states on the stack. -/
theorem widen (ht : t.Sound p) (h : Exploring p precision t taken pending x) (hwidens : Widens p t x x') :
    Exploring p precision t taken pending x' := by
  have hvisits : ∀ n, x'.Visits n ↔ x.Visits n := fun n => by
    rw [Exploration.Visits, hwidens.visited]
    rfl
  have hholds : ∀ n, x'.stack.Holds n → x.stack.Holds n := fun n hn => hwidens.stack ▸ hn
  have hsleep : ∀ n, (x'.sets n).sleep = (x.sets n).sleep := fun n => hwidens.sleep _
  refine h.carry (h.toRecords.carry hvisits hholds (fun _ _ => congrArg _ hwidens.stack) hsleep
    fun n => .inl (hwidens.explored _)) (hwidens.stack ▸ h.path) hvisits hholds hsleep
    (fun n hn a ha => ?_) (fun huncovered n hn hleft a ha => ?_) (fun n _ a => hwidens.due) ?_
  · exact (hwidens.mem_backtrack ht ha).elim (h.canRun n hn a) And.right
  · rw [hwidens.stack] at hleft
    refine h.closed huncovered n hn hleft a ?_
    exact (hwidens.mem_backtrack ht ha).resolve_right fun hadded => hleft hadded.1
  · rw [hwidens.stack]
    exact h.reversed

/-- A step that is not redundant is taken at the current node. -/
theorem take (h : Exploring p precision t taken none x) (htop : x.stack.topNode? = some n)
    (huncovered : ∀ c, ¬t.Covers c n) (htakes : Takes p t n a x x') :
    Exploring p precision t (Function.update taken n (taken n ++ [a])) (some a) x' := by
  have hholds := SearchStack.holds_top htop
  have hnew : a ∉ taken n := fun hmem =>
    htakes.not_mem_sleep (h.sleep n (h.standing n hholds) a hmem)
  constructor
  case toRecords => exact h.toRecords.take htop htakes
  case path => exact htakes.stack ▸ h.path
  case canRun =>
    intro m hm b hb
    rw [htakes.visits] at hm
    rcases htakes.adds hb with hb | ⟨rfl, hrun⟩
    · exact h.canRun m hm b hb
    · exact hrun
  case genuine =>
    intro m hm b hb
    rw [htakes.visits] at hm
    rcases htakes.mem_sleep_iff.1 hb with hb | ⟨-, rfl⟩
    · exact h.genuine m hm b hb
    · exact htakes.canRun.hasStep
  case awake =>
    simp only [htakes.visits, htakes.passesOver_iff]
    intro m hm huncovered b hrun hb
    obtain ⟨r, hr⟩ := h.awake m hm huncovered b hrun hb
    exact ⟨r, htakes.due hr⟩
  case inherited =>
    simp only [htakes.visits, htakes.passesOver_iff]
    -- the children visited are those by earlier steps, before which nothing is new
    intro m l₁ b l₂ c d hsplit hedge hc
    obtain ⟨l₂', hsplit'⟩ := exists_split_of_update_append hnew (h.edge m b c hedge hc).2 hsplit
    exact h.inherited m l₁ b l₂' c d hsplit' hedge hc
  case closed =>
    simp only [htakes.visits, htakes.stack]
    intro hnone m hm hleft b hb
    rcases htakes.adds hb with hb | ⟨rfl, -⟩
    · exact htakes.mem_sleep_iff.2 (.inl (h.closed hnone m hm hleft b hb))
    · exact absurd hholds hleft
  case reversed =>
    simp only [htakes.visits, htakes.stack]
    intro m q k y e k' hedge hwalk hk' hrace
    exact (h.reversed m q k y e k' hedge hwalk hk' hrace).mono (fun b => htakes.passesOver_iff.2)
      fun b => htakes.due
  case covered =>
    intro c m hcovers
    have hanswers := h.covered c m hcovers
    have hne : m ≠ n := by
      rintro rfl
      exact huncovered c hcovers
    refine hanswers.mono (fun k => (htakes.visits k).2) (htakes.stack ▸ hanswers.left) ?_
      fun k _ b => htakes.passesOver_iff
    rw [Function.update_of_ne hne, hanswers.untaken]
  case root => simp only [htakes.passesOver_iff]; exact h.root

section Enter

variable {last : Frame Step} {d : Decoration Step}
  (h : Exploring p precision t taken (some e) x) (henters : Enters p precision t w last e c d x x')
include h henters

/-- Where something has not been passed over at the child, something is due. -/
theorem awake_child (hrun : p.CanRun (t.state c) b) (hb : ¬x'.PassesOver taken c b) :
    ∃ r, x'.Due taken c r := by
  obtain ⟨entry, hentry, -, hfresh⟩ := henters.node
  have hkey : ∀ b, p.HasStep b →
      (d.sleep.hasKey (Action.key b) = false ↔ b ∉ (x'.sets c).sleep.toList) := by
    intro b hb
    rw [henters.sets_self, Bool.eq_false_iff, ne_eq, ActionSet.IsGenuine.hasKey_iff (p := p) _ hb]
    exact fun b hb => h.genuine _ (h.visits_last henters) b ((hfresh.mem_sleep b).1 hb).1
  have huntaken : taken c = [] := h.unvisited c henters.unvisited
  have hb' : b ∉ (x'.sets c).sleep.toList := fun hmem => hb ⟨hmem, by simp [huntaken]⟩
  rw [SearchTree.state_eq hentry] at hrun
  obtain ⟨r, hr, hawake⟩ := hfresh.awake b hrun ((hkey b hrun.hasStep).2 hb')
  refine ⟨r, .inr ⟨henters.holds_iff.2 (.inr rfl), ?_,
    (hkey r (hfresh.canRun r hr).hasStep).1 hawake⟩⟩
  rw [henters.sets_self]
  exact hr

/-- At the child has been passed over what was so below or was taken there before, apart from what depends
on the pending step. -/
theorem inherited_child {l₁ l₂ : List Step} (hsplit : taken last.node = l₁ ++ e :: l₂) :
    x'.PassesOver taken c b ↔
      ¬Step.Depends precision b e ∧ (x.PassesOver taken last.node b ∨ b ∈ l₁) := by
  have hlast := h.visits_last henters
  obtain ⟨l, htaken⟩ := h.exists_taken_last henters
  -- the pending step has been taken only once, so it stands at the end
  obtain rfl : l = l₁ := by
    rcases end_or_inner_of_split (htaken.symm.trans hsplit) with ⟨hl, -, -⟩ | ⟨l₃, -, hl⟩
    · exact hl
    · have hnodup := h.nodup last.node
      rw [htaken, List.nodup_append] at hnodup
      exact absurd rfl (hnodup.2.2 e (by simp [hl]) e (by simp))
  rw [henters.passesOver_iff (h.unvisited c henters.unvisited), and_comm, Exploration.PassesOver, htaken]
  refine and_congr_right fun hindependent => ⟨fun hb => ?_, fun hb => ?_⟩
  · by_cases hmem : b ∈ l
    · exact .inr hmem
    · refine .inl ⟨hb, ?_⟩
      rw [List.mem_append, List.mem_singleton, not_or]
      refine ⟨hmem, ?_⟩
      rintro rfl
      exact hindependent Step.dependent_self
  · rcases hb with ⟨hb, -⟩ | hmem
    · exact hb
    · exact h.sleep _ hlast b (by simp [htaken, hmem])

/-- The races of the pending step are reversed. -/
theorem reversed_child (ht : t.Sound p) (hwalk : Walk t.Edge m (q :: y) last.node)
    (hm : x.stack.Holds m) (hrace : Race p precision (t.state m) q y e) :
    x.Reverses p precision t taken m q y e := by
  rintro ⟨f, hrun, hawake, -, hf⟩
  obtain ⟨origin, horigin, -⟩ := h.node m (h.standing m hm)
  have hid : origin.stateId = ⟨m.index⟩ := (ht.identity _ _ horigin).1
  obtain ⟨u, hu, g, hg, rfl⟩ := henters.follows.exists_split ht henters.top hwalk
  rw [List.take_length] at hu
  rw [SearchTree.state_eq horigin] at hrace hrun
  have hvisible : Visible p precision t x u q y e origin := by
    refine ⟨⟨g, hg, horigin⟩, hrace, f, hrun, ?_, hf⟩
    rw [hid]
    exact (h.awake_iff hm hrun.hasStep).2 hawake
  obtain ⟨r, hr, hkey⟩ := henters.reversed u q y origin hu hvisible
  have hrun' := hr.canRun
  have hawake' := hr.awake
  rw [hid] at hkey hawake'
  refine ⟨r, Exploration.due_of_required hm ?_ ((h.awake_iff hm hrun'.hasStep).1 hawake'), hr.starts⟩
  refine (ActionSet.IsGenuine.hasKey_iff (p := p) ?_ hrun'.hasStep).1 hkey
  exact fun b hb => (h.canRun _ (h.standing _ hm) b hb).hasStep

/-- The races on a way to the child are those of the pending step on the path to it. -/
theorem reversed_of_walk (ht : t.Sound p) {e' : Step} (hedge : t.Edge m q k)
    (hwalk : Walk (t.LeadsOn x.stack) k (y ++ [e']) c) (hrace : Race p precision (t.state m) q y e') :
    x.Visits m ∧ x.Reverses p precision t taken m q y e' := by
  obtain ⟨k', hwalk, hleads⟩ := Walk.snoc_iff.1 hwalk
  have htop : x.stack.Holds last.node := ⟨_, last, henters.top, rfl⟩
  cases hleads with
  | past hcovers _ hedge' =>
    -- a node that covers another one is not the current one
    obtain ⟨rfl, -⟩ := henters.parent_eq hedge'
    exact absurd htop (h.covered _ _ hcovers).left
  | edge hedge' =>
    obtain ⟨rfl, rfl⟩ := henters.parent_eq hedge'
    obtain ⟨hwalk, hk⟩ := h.walk_of_holds ht (.cons (.edge hedge) hwalk) htop
    exact ⟨h.standing m hk, h.reversed_child henters ht hwalk hk hrace⟩

/-- The child of the current node by the pending step is entered. -/
theorem enter (ht : t.Sound p) : Exploring p precision t taken none x' := by
  obtain ⟨entry, hentry, -, hfresh⟩ := henters.node
  have hlast := h.visits_last henters
  have hholds : ∀ m, x.stack.Holds m → x'.stack.Holds m := fun m hm => henters.holds_iff.2 (.inl hm)
  constructor
  case toRecords => exact h.toRecords.enter henters
  case path => exact henters.eachFrame
  case canRun =>
    refine henters.forall_sets (P := fun m d => ∀ b ∈ d.backtrack.toList, p.CanRun (t.state m) b)
      h.canRun fun b hb => ?_
    exact SearchTree.state_eq hentry ▸ hfresh.canRun b hb
  case genuine =>
    refine henters.forall_sets (P := fun m d => d.sleep.IsGenuine p) h.genuine fun b hb => ?_
    exact h.genuine _ hlast b ((hfresh.mem_sleep b).1 hb).1
  case awake =>
    intro m hm huncovered b hrun hb
    rcases (henters.visits m).1 hm with hm | rfl
    · rw [henters.passesOver_iff_of_visits hm] at hb
      obtain ⟨r, hr⟩ := h.awake m hm huncovered b hrun hb
      exact ⟨r, henters.due hm hr⟩
    · exact h.awake_child henters hrun hb
  case inherited =>
    intro m l₁ b l₂ k b' hsplit hedge hk
    rcases (henters.visits k).1 hk with hk | rfl
    · rw [henters.passesOver_iff_of_visits hk,
        henters.passesOver_iff_of_visits (h.edge m b k hedge hk).1]
      exact h.inherited m l₁ b l₂ k b' hsplit hedge hk
    · obtain ⟨rfl, rfl⟩ := henters.parent_eq hedge
      rw [henters.passesOver_iff_of_visits hlast]
      exact h.inherited_child henters hsplit
  case closed =>
    intro hnone m hm hleft b hb
    rw [henters.holds_iff, not_or] at hleft
    have hm := ((henters.visits m).1 hm).resolve_right hleft.2
    rw [henters.sets_of_visits hm] at hb ⊢
    exact h.closed hnone m hm hleft.1 b hb
  case reversed =>
    intro m q k y e' k' hedge hwalk hk' hrace
    have hwalk := hwalk.map (f := id) fun _ _ _ hleads => hleads.mono hholds
    have hreverses : x.Visits m ∧ x.Reverses p precision t taken m q y e' := by
      rcases (henters.visits k').1 hk' with hk' | rfl
      · exact ⟨h.visits_of_walk (.cons (.edge hedge) hwalk) hk',
          h.reversed m q k y e' k' hedge hwalk hk' hrace⟩
      · exact h.reversed_of_walk henters ht hedge hwalk hrace
    exact hreverses.2.mono (fun b => (henters.passesOver_iff_of_visits hreverses.1).2)
      fun b => henters.due hreverses.1
  case covered =>
    intro d m hcovers
    have hanswers := h.covered d m hcovers
    refine hanswers.mono (fun k hk => (henters.visits k).2 (.inl hk)) (fun hd => ?_) hanswers.untaken
      fun k hk b => henters.passesOver_iff_of_visits hk
    exact (henters.holds_iff.1 hd).elim hanswers.left (henters.ne_of_visits hanswers.answers)
  case root =>
    intro b
    rw [henters.passesOver_iff_of_visits h.started]
    exact h.root b

end Enter

/-! ### Pops -/

/-- Popping makes steps required below, not at the current node itself. -/
theorem sets_popped (ht : t.Sound p) (h : Exploring p precision t taken pending x)
    (htop : x.stack.topNode? = some n) (hpopped : Popped p t x x') : x'.sets n = x.sets n := by
  rcases hpopped.below ⟨n.index⟩ with heq | ⟨f, e, hsize, hf, he, hid⟩
  · exact heq
  · exfalso
    obtain ⟨g, hg, hgn⟩ := SearchStack.topNode?_eq_some_iff.1 htop
    obtain ⟨w, hfollows, -⟩ := Or.resolve_left h.path (by omega)
    have hlt := hfollows.index_lt ht (by omega) hf hg
    rw [(ht.identity _ _ he).1] at hid
    rw [NodeId.eq_of_stateId_eq hid, hgn] at hlt
    exact absurd hlt (Nat.lt_irrefl _)

/-- When a node has gone from the stack, a way is one from before, or goes past this node. -/
theorem walk_or_past (ht : t.Sound p) (h : Exploring p precision t taken pending x)
    (hn : x.stack.Holds n) (hgone : ∀ m, x.stack.Holds m → stack.Holds m ∨ m = n)
    (hwalk : Walk (t.LeadsOn stack) k w m) : Walk (t.LeadsOn x.stack) k w m ∨
      ∃ c u v, w = u ++ v ∧ v ≠ [] ∧ t.Covers c n ∧ Walk t.Edge k u n ∧
        Walk (t.LeadsOn x.stack) c v m := by
  induction hwalk with
  | nil => exact .inl (.nil _)
  | @cons k k₁ m a w hleads _ ih =>
    rcases ih with hwalk | ⟨c, u, v, rfl, hne, hcovers, hu, hv⟩
    · cases hleads with
      | edge hedge => exact .inl (.cons (.edge hedge) hwalk)
      | past hcovers hleft hedge =>
        by_cases hself : k = n
        · subst hself
          exact .inr ⟨_, [], a :: w, rfl, by simp, hcovers, .nil k, .cons (.edge hedge) hwalk⟩
        · exact .inl (.cons (.past hcovers (fun hk => (hgone k hk).elim hleft hself) hedge) hwalk)
    · cases hleads with
      | edge hedge => exact .inr ⟨c, a :: u, v, rfl, hne, hcovers, .cons hedge hu, hv⟩
      | past hcovers' _ hedge =>
        -- the way to the node that has gone is a path of the tree
        have hway := (Walk.cons hedge hu).map (E := t.LeadsOn x.stack) (f := id) fun _ _ _ hedge =>
          .edge hedge
        exact absurd (h.walk_of_holds ht hway hn).2 (h.covered _ _ hcovers').left

/-- The current node is left behind when nothing is left to offer there, or when it is covered and the races
on the ways past it have been reversed. -/
theorem pop (ht : t.Sound p) (h : Exploring p precision t taken none x)
    (htop : x.stack.topNode? = some n)
    (hexhausted : (∀ c, ¬t.Covers c n) →
      ∀ a ∈ (x.sets n).backtrack.toList, a ∈ (x.sets n).sleep.toList)
    (hpast : ∀ c, t.Covers c n → x.ReversesPast p precision t taken c n) (hpopped : Popped p t x x') :
    Exploring p precision t taken none x' := by
  obtain ⟨x₁, hwidens, htable⟩ := hpopped.widens
  have hvisits : ∀ m, x'.Visits m ↔ x.Visits m := fun m => by
    rw [Exploration.Visits, hpopped.isVisited_eq]
    rfl
  have hholds : ∀ m, x'.stack.Holds m → x.stack.Holds m := fun m hm => (hpopped.stack ▸ hm).of_pop
  have hsets : ∀ m, x'.sets m = x₁.sets m := fun m => by rw [Exploration.sets, htable]; rfl
  have hsleep : ∀ m, (x'.sets m).sleep = (x.sets m).sleep := fun m => by
    rw [hsets]
    exact hwidens.sleep _
  have hback : ∀ m a, a ∈ (x'.sets m).backtrack.toList →
      a ∈ (x.sets m).backtrack.toList ∨ x.stack.Holds m ∧ p.CanRun (t.state m) a := fun m a ha =>
    hwidens.mem_backtrack ht (hsets m ▸ ha)
  have hgone : ∀ m, x.stack.Holds m → x.stack.pop.Holds m ∨ m = n := fun m hm =>
    hm.pop_or.imp_right fun hm => Option.some.inj (hm.symm.trans htop)
  refine h.carry (h.toRecords.carry hvisits hholds (fun _ hnone => by cases hnone) hsleep
    fun m => .inl ?_) ?_ hvisits hholds hsleep (fun m hm a ha => ?_) (fun hnone m hm hleft a ha => ?_)
    (fun m huncovered a hdue => ?_) ?_
  · rw [hsets]
    exact hwidens.explored _
  · rw [hpopped.stack]
    exact EachFrame.pop h.path
  · exact (hback m a ha).elim (h.canRun m hm a) And.right
  · rw [hpopped.stack] at hleft
    by_cases hheld : x.stack.Holds m
    · obtain rfl := (hgone m hheld).resolve_left hleft
      rw [h.sets_popped ht htop hpopped] at ha
      exact hexhausted (fun c => hnone.not_covers) a ha
    · exact h.closed hnone m hm hheld a ((hback m a ha).resolve_right fun hadded => hheld hadded.1)
  · rcases hdue with hmem | ⟨hheld, ha, hawake⟩
    · exact .inl hmem
    rcases hgone m hheld with hleft | rfl
    · rw [Exploration.Due, hsleep, hsets, hpopped.stack]
      exact .inr ⟨hleft, hwidens.keeps _ a ha, hawake⟩
    · exact absurd (hexhausted huncovered a ha) hawake
  · intro m q k y e k' hedge hwalk hk' hrace
    rw [hpopped.stack] at hwalk
    rcases h.walk_or_past ht (SearchStack.holds_top htop) hgone hwalk with
      hwalk | ⟨c, u, v, hsplit, hne, hcovers, hu, hv⟩
    · exact h.reversed m q k y e k' hedge hwalk hk' hrace
    · obtain ⟨v, b, rfl⟩ := (List.eq_nil_or_concat v).resolve_left hne
      rw [List.concat_eq_append] at hsplit hv
      rw [← List.append_assoc] at hsplit
      obtain ⟨rfl, hlast⟩ := List.append_inj' hsplit rfl
      obtain rfl := (List.cons.inj hlast).1
      exact hpast c hcovers m q k u v e k' hedge hu hv hk' hrace

/-! ### Changes of the tree -/

/-- The tree may change apart from the visited nodes, and a node on the stack may get covered. -/
theorem retree {t' : SearchTree ProgramState Step} (h : Exploring p precision t taken pending x)
    (hnode : ∀ n e, t.node? n = some e → ∃ e', t'.node? n = some e' ∧ e'.pruned = e.pruned)
    (hstate : ∀ n, x.Visits n → t'.state n = t.state n)
    (hedge : ∀ n a c, t.Edge n a c → t'.Edge n a c)
    (hback : ∀ n a c, x.Visits c → t'.Edge n a c → t.Edge n a c)
    (hkeeps : ∀ c n, t.Covers c n → t'.Covers c n)
    (hcovers : ∀ c n, t'.Covers c n → t.Covers c n ∨ x.stack.Holds n ∧ AnswersFor t x taken c n) :
    Exploring p precision t' taken pending x := by
  have huncovered : t'.Uncovered → t.Uncovered := by
    intro hnone n e he
    cases hcovering : e.covering with
    | none => rfl
    | some c => exact absurd (hkeeps c n ⟨e, he, hcovering⟩) hnone.not_covers
  constructor
  case toRecords =>
    exact h.toRecords.retree hnode (fun n a c hc => ⟨hback n a c hc, hedge n a c⟩) huncovered
  case path => exact EachFrame.retree h.path hedge
  case canRun =>
    intro n hn
    rw [hstate n hn]
    exact h.canRun n hn
  case genuine => exact h.genuine
  case awake =>
    intro n hn hnot a hrun
    rw [hstate n hn] at hrun
    exact h.awake n hn (fun c hc => hnot c (hkeeps c n hc)) a hrun
  case inherited =>
    intro n l₁ a l₂ c b hsplit hnc hc
    exact h.inherited n l₁ a l₂ c b hsplit (hback n a c hc hnc) hc
  case closed => exact fun hnone => h.closed (huncovered hnone)
  case reversed =>
    intro n q k y e m hnk hwalk hm hrace
    -- the way is one of the old tree, since it does not go past nodes on the stack
    have hway := hwalk.retrace (E := t.LeadsOn x.stack) hm fun n a c hleads hc => by
      cases hleads with
      | edge hedge => exact ⟨.edge (hback n a c hc hedge), (h.edge n a c (hback n a c hc hedge) hc).1⟩
      | past hcovers' hleft hedge =>
        have hold := (hcovers _ n hcovers').resolve_right fun hnew => hleft hnew.1
        exact ⟨.past hold hleft (hback _ a c hc hedge), (h.covered _ n hold).visits⟩
    have hnk := hback n q k hway.2 hnk
    have hn := (h.edge n q k hnk hway.2).1
    rw [hstate n hn] at hrace
    rw [Exploration.Reverses, hstate n hn]
    exact h.reversed n q k y e m hnk hway.1 hm hrace
  case covered =>
    intro c n hcovers'
    have hanswers : AnswersFor t x taken c n := (hcovers c n hcovers').elim (h.covered c n) And.right
    refine ⟨hanswers.visits, hanswers.answers, hanswers.left, fun d hd => ?_, ?_, hanswers.untaken,
      hanswers.passesOver⟩
    · exact (hcovers d c hd).elim (hanswers.uncovered d) fun hnew => hanswers.left hnew.1
    · rw [hstate n hanswers.visits, hstate c hanswers.answers, hanswers.state_eq]
  case root => exact h.root

/-- The tree may grow, and its nodes may be marked as expanded. -/
theorem extend {t' : SearchTree ProgramState Step} (h : Exploring p precision t taken pending x)
    (hextends : t.Extends t') (hcovers : ∀ c n, t'.Covers c n → t.Covers c n) :
    Exploring p precision t' taken pending x := by
  refine h.retree (fun n e he => ?_) (fun n hn => ?_) (fun _ _ _ => hextends.edge) (fun n a c hc => ?_)
    ?_ fun c n hcn => .inl (hcovers c n hcn)
  · obtain ⟨cs, b, he'⟩ := hextends n e he
    exact ⟨_, he', rfl⟩
  · obtain ⟨e, he, -⟩ := h.node n hn
    exact hextends.state_eq he
  · obtain ⟨e, he, -⟩ := h.node c hc
    exact (hextends.edge_iff he).1
  · rintro c n ⟨e, he, hcovering⟩
    obtain ⟨cs, b, he'⟩ := hextends n e he
    exact ⟨_, he', hcovering⟩

/-- A node on the stack may get covered. -/
theorem cover (h : Exploring p precision t taken pending x) (hn : x.stack.Holds n)
    (hnot : ∀ d, ¬t.Covers d n) (hanswers : AnswersFor t x taken c n) :
    Exploring p precision (t.setCovering n (some c)) taken pending x := by
  have hmarks : ∀ e : SearchTree.Node ProgramState Step, ∃ covering expanded,
      { e with covering := some c } = { e with covering, expanded } :=
    fun e => ⟨some c, e.expanded, rfl⟩
  refine h.retree (fun k e he => ?_) (fun k _ => SearchTree.state_modify hmarks)
    (fun _ _ _ => (SearchTree.edge_modify hmarks).2) (fun _ _ _ _ => (SearchTree.edge_modify hmarks).1)
    ?_ ?_
  · rw [SearchTree.setCovering, SearchTree.node?_modify, he]
    split
    · exact ⟨_, rfl, rfl⟩
    · exact ⟨e, rfl, rfl⟩
  · rintro d k ⟨e, he, hcovering⟩
    refine ⟨e, ?_, hcovering⟩
    rw [SearchTree.setCovering, SearchTree.node?_modify, if_neg, he]
    rintro rfl
    exact hnot d ⟨e, he, hcovering⟩
  · rintro d k ⟨e, he, hcovering⟩
    rw [SearchTree.setCovering, SearchTree.node?_modify] at he
    split at he
    · rename_i hk
      subst hk
      obtain ⟨e, -, rfl⟩ := Option.map_eq_some_iff.1 he
      obtain rfl := Option.some.inj hcovering
      exact .inr ⟨hn, hanswers⟩
    · exact .inl ⟨e, he, hcovering⟩

/-! ### The start of a round -/

/-- At the start of a round, only the root has been visited. -/
structure Opens (p : Program) (x : Exploration Step Seeded) : Prop where
  visits : ∀ m, x.Visits m ↔ m = SearchTree.root
  holds : ∀ m, x.stack.Holds m ↔ m = SearchTree.root
  sets : x.sets SearchTree.root = { backtrack := p.enabledSet p.initialState }

theorem opens_of_push (hsize : x.stack.size = 0) (hnone : ∀ s, x.table.isVisited s = false)
    (hstack : x'.stack = x.stack.push (.root SearchTree.root))
    (htable : x'.table = (x.table.markVisited ⟨0⟩).reset ⟨0⟩
      { backtrack := p.enabledSet p.initialState }) : Opens p x' where
  visits m := by
    rw [Exploration.Visits, htable, DecorationTable.isVisited_reset,
      DecorationTable.isVisited_markVisited, hnone]
    simp only [Bool.false_eq_true, or_false]
    exact ⟨fun h => NodeId.eq_of_stateId_eq h.symm, fun h => h ▸ rfl⟩
  holds m := by
    rw [hstack, SearchStack.holds_push]
    refine or_iff_right ?_
    rintro ⟨i, f, hf, -⟩
    have := SearchStack.frame?_lt hf
    omega
  sets := by
    rw [Exploration.sets, htable, DecorationTable.get_reset]
    exact if_pos rfl

namespace Opens

variable (h : Opens p x)
include h

theorem not_passesOver : ¬x.PassesOver taken SearchTree.root a := by
  rw [Exploration.PassesOver, h.sets]
  exact fun ha => List.not_mem_nil ha.1

/-- Nothing has been taken yet. -/
theorem records (ht : t.Sound p) : Records t (fun _ => []) none x := by
  obtain ⟨root, hroot, hparent, -, hstate, hpruned⟩ := ht.root
  constructor
  case started => exact (h.visits _).2 rfl
  case standing => exact fun m hm => (h.visits m).2 ((h.holds m).1 hm)
  case node =>
    intro m hm
    rw [(h.visits m).1 hm]
    exact ⟨root, hroot, hpruned⟩
  case edge =>
    intro m a c hedge hc
    rw [(h.visits c).1 hc] at hedge
    exact absurd (ht.index_lt hedge) (Nat.not_lt_zero _)
  case explored =>
    intro m hm a ha
    rw [(h.visits m).1 hm, h.sets] at ha
    cases ha
  all_goals simp

theorem exploring (ht : t.Sound p) (hnone : t.Uncovered)
    (hpath : EachFrame (FrameSound p precision) t x.stack) :
    Exploring p precision t (fun _ => []) none x := by
  constructor
  case toRecords => exact h.records ht
  case path => exact hpath
  case canRun =>
    intro m hm a ha
    rw [(h.visits m).1 hm] at ha ⊢
    rw [h.sets] at ha
    rw [ht.state_root]
    exact Program.mem_enabledSet_iff.1 ha
  case genuine =>
    intro m hm a ha
    rw [(h.visits m).1 hm, h.sets] at ha
    cases ha
  case awake =>
    intro m hm _ a hrun _
    rw [(h.visits m).1 hm] at hrun ⊢
    rw [ht.state_root] at hrun
    refine ⟨a, Exploration.due_of_required ((h.holds _).2 rfl) ?_ h.not_passesOver⟩
    rw [h.sets]
    exact Program.mem_enabledSet_iff.2 hrun
  case inherited => simp
  case closed =>
    intro _ m hm hleft
    exact absurd ((h.holds m).2 ((h.visits m).1 hm)) hleft
  case reversed =>
    intro n q k y e m hedge hwalk hm
    obtain ⟨k', -, hleads⟩ := Walk.snoc_iff.1 hwalk
    rw [(h.visits m).1 hm] at hleads
    exact absurd (ht.index_lt (hleads.edge_of_uncovered hnone)) (Nat.not_lt_zero _)
  case covered => exact fun c n hcovers => absurd hcovers hnone.not_covers
  case root => exact fun a => h.not_passesOver

end Opens

theorem start (ht : t.Sound p) (hnone : t.Uncovered) (hsize : x.stack.size = 0)
    (hunvisited : ∀ s, x.table.isVisited s = false)
    (hstack : x'.stack = x.stack.push (.root SearchTree.root))
    (htable : x'.table = (x.table.markVisited ⟨0⟩).reset ⟨0⟩
      { backtrack := p.enabledSet p.initialState }) :
    Exploring p precision t (fun _ => []) none x' :=
  (opens_of_push hsize hunvisited hstack htable).exploring ht hnone
    (hstack ▸ EachFrame.root frameSound_root hsize)

end Exploring

/-! ## The operations -/

namespace Ends

/-- A child of the current node by the pending step is added. -/
theorem add_exploring (ht : t.Sound p) (h : Exploring p precision t taken (some e) x)
    (htop : x.stack.topNode? = some n) (hedge : t.Edge n e c) (hc : ¬x.Visits c)
    (hlive : ∀ entry, t.node? c = some entry → entry.pruned = false) :
    Yields (Exploration.add (p.context precision t settings) c) x fun _ x' =>
      Exploring p precision t taken none x' ∧ x'.stack.topNode? = some c := by
  obtain ⟨w, hfollows, hframes⟩ := h.path.resolve_left (SearchStack.size_ne_zero htop)
  obtain ⟨last, hlast, rfl⟩ := hfollows.exists_top htop
  -- the scan sees the stack and the sets as they were
  let y : Exploration Step Seeded := { x with table := x.table.markVisited ⟨c.index⟩ }
  refine (addStep ht hfollows hlast hedge (scanned (x := y) hfollows ht hframes
    (ht.canRun hedge).hasStep hlast) fun scan x₁ hx₁ => hx₁.widens.stack).imp ?_
  rintro _ x' ⟨scan, x₁, entry, before, d, hscanned, hentry, hbefore, hfresh, hinstalled⟩
  have hid : entry.stateId = ⟨c.index⟩ := (ht.identity _ _ hentry).1
  have hwidens := hscanned.widens
  have hstack : x₁.stack = x.stack := hwidens.stack
  -- the exploration after the scan, apart from the mark of the new node
  let z : Exploration Step Seeded :=
    { x₁ with table := { x₁.table with visited := x.table.visited } }
  have hz : Widens p t x z := by
    refine ⟨hstack, fun s => rfl, ?_, ?_, ?_, ?_⟩
    · exact hwidens.sleep
    · exact hwidens.explored
    · exact hwidens.keeps
    · exact hwidens.adds
  have hasleep : ∀ s, (z.table.get s).asleep = (y.table.get s).asleep := hwidens.asleep
  have henters : Enters p precision t w last e c d z x' := ?_
  · obtain ⟨s, f, -, hpush, hnode, -⟩ := henters.stack
    exact ⟨(h.widen ht hz).enter henters ht, by rw [hpush, SearchStack.topNode?_push, hnode]⟩
  constructor
  case follows => exact hstack.symm ▸ hfollows
  case sound => exact fun i f hf => hframes i f (hstack ▸ hf)
  case top => exact hstack.symm ▸ hlast
  case edge => exact hedge
  case node => exact ⟨entry, hentry, hlive entry hentry, hfresh⟩
  case unvisited => exact hc
  case reversed =>
    intro u q v origin hw hvisible
    have hvisible' : Visible p precision t y u q v e origin :=
      hvisible.congr (x := z) hstack.symm fun s => (hasleep s).symm
    obtain ⟨r, hr, hkey⟩ := hscanned.reversed u q v origin hw hvisible' (Nat.zero_le _)
    exact ⟨r, hr.congr hasleep, hkey⟩
  case stack =>
    obtain ⟨s, spawned, acquired, released, hrelocks, hspawned, hpush⟩ := hinstalled.stack
    refine ⟨s, _, hrelocks, hpush, rfl, rfl, ?_⟩
    have hsound : FrameSound p precision w last := by simpa using hframes _ _ hlast
    rw [hstack, hfollows.size_eq]
    exact hsound.child ht hfollows.performs hlast hedge rfl hentry hbefore hscanned.sound hspawned
  case visits =>
    intro m
    have hmark : x₁.table.isVisited ⟨m.index⟩ = y.table.isVisited ⟨m.index⟩ := hwidens.visited _
    show x'.table.isVisited _ ↔ x.table.isVisited _ ∨ _
    rw [hinstalled.table, DecorationTable.isVisited_reset, hmark]
    show (x.table.markVisited _).isVisited _ ↔ _
    rw [DecorationTable.isVisited_markVisited, or_comm]
    exact or_congr_right ⟨fun heq => NodeId.eq_of_stateId_eq heq.symm, fun heq => by rw [heq]⟩
  case sets_self => exact hinstalled.sets_self hid
  case sets_ne => exact fun m => hinstalled.sets_of_ne hid

/-- An edge of an earlier round is taken. Its child is not covered. -/
theorem replayEdge_exploring {entry : SearchTree.Node ProgramState Step} (ht : t.Sound p)
    (hbare : t.Bare) (h : Exploring p precision t taken none x) (htop : x.stack.topNode? = some n)
    (hn : t.node? n = some entry)
    (hedge : (c, a) ∈ Exploration.replayableEdges (p.context precision t settings) x.table entry) :
    Yields (do
      Exploration.recordTaken entry.stateId (p.enabledSet entry.state) a
      Exploration.count fun c => { c with lazyReplays := c.lazyReplays + 1 }
      Exploration.add (p.context precision t settings) c) x fun _ x' =>
        (∃ taken, Exploring p precision t taken none x') ∧ x'.TopUncovered t := by
  have hid : entry.stateId = ⟨n.index⟩ := (ht.identity _ _ hn).1
  obtain ⟨hmem, hedge, hunvisited, hawake⟩ := of_mem_replayableEdges ht hn hedge
  have hrun : p.CanRun entry.state a := SearchTree.state_eq hn ▸ ht.canRun hedge
  have hvisit := h.standing n (SearchStack.holds_top htop)
  refine .bind (recordTaken.imp fun _ x₁ hx₁ => .bind (count fun counters => ?_))
  have htakes : Takes p t n a x x₁ := by
    exact .of_update ht hn hrun hawake hx₁.1 hx₁.2
  have h₁ := h.take htop (hbare.not_covers hn hmem) htakes
  have h₂ : Exploring p precision t _ (some a) { x₁ with counters } := h₁.of_eq rfl rfl
  have hc : ¬x.Visits c := by
    rw [Exploration.Visits, hunvisited]
    exact Bool.false_ne_true
  refine (add_exploring (n := n) ht h₂ ?_ hedge ?_ ?_).imp fun _ x' hx' => ⟨⟨_, hx'.1⟩, ?_⟩
  · show x₁.stack.topNode? = some n
    rw [htakes.stack, htop]
  · show ¬x₁.Visits c
    rwa [htakes.visits]
  · intro entry' hentry'
    obtain ⟨e, he, hpruned⟩ := h.node n hvisit
    obtain rfl : e = entry := Option.some.inj (he.symm.trans hn)
    obtain ⟨d, hd, hdp⟩ := ht.live n e he hpruned c hmem
    rwa [Option.some.inj (hentry'.symm.trans hd)]
  · intro m d hm hcovers
    obtain rfl := Option.some.inj (hx'.2.symm.trans hm)
    exact hc (h.covered d _ hcovers).visits

/-- The edges of earlier rounds are taken. -/
theorem exploreLazily_exploring (ht : t.Sound p) (hbare : t.Bare)
    (h : ∃ taken, Exploring p precision t taken none x) :
    Yields (Exploration.exploreLazily (p.context precision t settings)) x fun _ x' =>
      ∃ taken, Exploring p precision t taken none x' := by
  refine exploreLazily (fun _ _ => trivial) ?_ h ?_
  · rintro x x' ⟨taken, h⟩ hstack htable
    exact ⟨taken, h.of_eq hstack htable⟩
  · rintro x top entry c a ⟨taken, h⟩ htop hn hedge
    exact (replayEdge_exploring ht hbare h htop hn hedge).imp fun _ _ hx' => hx'.1

/-- A current node that is to be popped has nothing left to offer, or is covered. The next one is not
covered. -/
theorem popFrame_exploring {entry : SearchTree.Node ProgramState Step} (ht : t.Sound p)
    (hpast : ∀ c, t.Covers c n → x.ReversesPast p precision t taken c n)
    (h : Exploring p precision t taken none x) (htop : x.stack.topNode? = some n)
    (hn : t.node? n = some entry)
    (hexhausted : (entry.isSubsumed ||
      (entry.expanded && (x.table.offerable entry.stateId).isEmpty)) = true) :
    Yields (Exploration.popFrame (p.context precision t settings)) x fun _ x' =>
      (∃ taken, Exploring p precision t taken none x') ∧ x'.TopUncovered t := by
  obtain ⟨hid, hfeasible⟩ := ht.identity n entry hn
  have hvisit := h.standing n (SearchStack.holds_top htop)
  refine popFrame.imp fun _ x' hpopped =>
    ⟨⟨taken, h.pop ht htop (fun huncovered a ha => ?_) hpast hpopped⟩,
      fun m c hm => h.not_covers_pop (hpopped.stack ▸ hm)⟩
  have hsubsumed : entry.isSubsumed = false := by
    rw [SearchTree.Node.isSubsumed, SearchTree.not_isCovered hn huncovered, hfeasible]
    rfl
  rw [hsubsumed, Bool.false_or, Bool.and_eq_true, hid] at hexhausted
  have hrun := h.canRun n hvisit a ha
  refine (ActionSet.IsGenuine.hasKey_iff (h.genuine n hvisit) hrun.hasStep).1 ?_
  by_contra hkey
  have hmem : a ∈ (x.table.offerable ⟨n.index⟩).toList :=
    Keyed.mem_difference.2 ⟨ha, Bool.eq_false_iff.2 hkey⟩
  rw [List.isEmpty_iff.1 hexhausted.2] at hmem
  cases hmem

/-- The question for the end of a round. -/
theorem isEmpty_exploring (ht : t.Sound p) (huncovered : t.Uncovered)
    (h : ∃ taken, Exploring p precision t taken none x) :
    Yields (Exploration.isEmpty (p.context precision t settings)) x fun b x' =>
      (∃ taken, Exploring p precision t taken none x') ∧ (b = true → x'.stack.size = 0) := by
  refine (isEmpty (fun _ _ => trivial) h ?_ ?_ ?_).imp fun b x' hx' => ⟨hx'.1, hx'.2.1⟩
  · intro x top entry covering _ _ hn hcovering
    rw [huncovered top entry hn] at hcovering
    cases hcovering
  · rintro x top entry ⟨taken, h⟩ htop hn hexhausted
    exact (popFrame_exploring ht (fun c hc => absurd hc huncovered.not_covers) h htop hn hexhausted).imp
      fun _ _ hx' => hx'.1
  · intro x h
    exact exploreLazily_exploring ht huncovered.bare h

/-- The next step is taken at the current node. -/
theorem nextAction_exploring {s : StateId} (ht : t.Sound p)
    (hfree : x.TopUncovered t) (h : ∃ taken, Exploring p precision t taken none x) :
    Yields (Exploration.nextAction (p.context precision t settings) s) x fun answer x' =>
      match answer with
      | none => ∃ taken, Exploring p precision t taken none x'
      | some a => ∃ taken n entry, Exploring p precision t taken (some a) x' ∧
        x'.stack.topNode? = some n ∧ t.node? n = some entry ∧ entry.stateId = s ∧
        entry.pruned = false ∧ p.CanRun entry.state a ∧ ∀ c, x'.Visits c → ¬t.Edge n a c := by
  obtain ⟨taken, h⟩ := h
  refine nextAction.imp fun answer x' hx' => ?_
  obtain ⟨hstack, hx'⟩ := hx'
  cases answer with
  | none => exact ⟨taken, h.of_eq hstack hx'⟩
  | some a =>
    obtain ⟨ha, n, entry, htop, hn, rfl, htable⟩ := hx'
    have hid := (ht.identity n entry hn).1
    have hvisit := h.standing n (SearchStack.holds_top htop)
    obtain ⟨e, he, hpruned⟩ := h.node n hvisit
    obtain rfl : e = entry := Option.some.inj (he.symm.trans hn)
    rw [hid] at ha
    obtain ⟨ha, hawake⟩ := Keyed.mem_difference.1 ha
    have hrun := h.canRun n hvisit a ha
    rw [SearchTree.state_eq hn] at hrun
    have htakes : Takes p t n a x x' := .of_update ht hn hrun hawake hstack htable
    refine ⟨_, n, e, h.take htop (fun c => hfree n c htop) htakes, by rw [hstack, htop], hn, rfl,
      hpruned, hrun, ?_⟩
    intro c hc hedge
    rw [htakes.visits] at hc
    have hsleep := h.sleep n hvisit a (h.edge n a c hedge hc).2
    have hawake : (x.sets n).sleep.hasKey (Action.key a) = false := hawake
    rw [Keyed.hasKey_of_mem hsleep] at hawake
    cases hawake

end Ends

end Interleaving
