import Interleaving.Proofs.Clocks
import Interleaving.Proofs.Operations

/-!
# Steps taken in a round

A round takes steps at the nodes that it visits, one after the other (`Records`). What was redundant at a
node when it was entered has been passed over there (`Exploration.PassesOver`), and what is required and
not redundant is due as long as the node is on the stack (`Exploration.Due`).

The sets of a node that has been left behind may still change, since walks below covering nodes look
into it: its explored set may be forgotten, and more may become required. So nothing is said of these
sets there, only of the steps taken.
-/

namespace Interleaving

variable {p : Program} {precision : Precision} {t : SearchTree ProgramState Step}
  {x x' : Exploration Step Seeded} {taken taken' : NodeId → List Step} {pending : Option Step}
  {n m c k : NodeId} {a b e q : Step} {y : List Step}

/-! ## What is due -/

namespace Exploration

/-- The step was redundant at the node when that was entered, so it has not been taken. -/
def PassesOver (x : Exploration Step Seeded) (taken : NodeId → List Step) (n : NodeId) (a : Step) :
    Prop :=
  a ∈ (x.sets n).sleep.toList ∧ a ∉ taken n

/-- The step has been taken at the node, or it is required there and not redundant, and the node is on the
stack. -/
def Due (x : Exploration Step Seeded) (taken : NodeId → List Step) (n : NodeId) (a : Step) : Prop :=
  a ∈ taken n ∨
    x.stack.Holds n ∧ a ∈ (x.sets n).backtrack.toList ∧ a ∉ (x.sets n).sleep.toList

/-- If a cause of `e` has not been passed over at the node, and starts the run that reverses the race of `q`
with `e`, then something due there starts this run. -/
def Reverses (p : Program) (precision : Precision) (t : SearchTree ProgramState Step)
    (x : Exploration Step Seeded) (taken : NodeId → List Step) (n : NodeId) (q : Step) (y : List Step)
    (e : Step) : Prop :=
  (∃ f, p.CanRun (t.state n) f ∧ ¬x.PassesOver taken n f ∧ IsCause precision y e f ∧
      Starts (Step.Depends precision) f (reversingSteps precision q y e)) →
    ∃ r, x.Due taken n r ∧ Starts (Step.Depends precision) r (reversingSteps precision q y e)

theorem passesOver_congr (hsleep : (x'.sets n).sleep = (x.sets n).sleep) :
    x'.PassesOver taken n b ↔ x.PassesOver taken n b := by
  rw [PassesOver, hsleep]
  rfl

/-- What is required and has not been passed over is due. -/
theorem due_of_required (hholds : x.stack.Holds n) (ha : a ∈ (x.sets n).backtrack.toList)
    (hawake : ¬x.PassesOver taken n a) : x.Due taken n a := by
  by_cases htaken : a ∈ taken n
  · exact .inl htaken
  · exact .inr ⟨hholds, ha, fun hsleep => hawake ⟨hsleep, htaken⟩⟩

theorem Reverses.mono (h : x.Reverses p precision t taken n q y e)
    (hpasses : ∀ b, x.PassesOver taken n b → x'.PassesOver taken' n b)
    (hdue : ∀ b, x.Due taken n b → x'.Due taken' n b) : x'.Reverses p precision t taken' n q y e := by
  rintro ⟨f, hrun, hawake, hcause, hf⟩
  obtain ⟨r, hr, hstarts⟩ := h ⟨f, hrun, fun hpass => hawake (hpasses f hpass), hcause, hf⟩
  exact ⟨r, hdue r hr, hstarts⟩

end Exploration

/-! ## Records -/

/-- The steps `taken n` have been taken at each node `n`, in this order. If a step is `pending`, it has been
taken at the current node and its child has not been added yet. -/
structure Records (t : SearchTree ProgramState Step) (taken : NodeId → List Step)
    (pending : Option Step) (x : Exploration Step Seeded) : Prop where
  started : x.Visits SearchTree.root
  standing : ∀ n, x.stack.Holds n → x.Visits n
  node : ∀ n, x.Visits n → ∃ e, t.node? n = some e ∧ e.pruned = false
  edge : ∀ n a c, t.Edge n a c → x.Visits c → x.Visits n ∧ a ∈ taken n
  unvisited : ∀ n, ¬x.Visits n → taken n = []
  explored : ∀ n, x.Visits n → ∀ a ∈ (x.sets n).explored.toList, a ∈ taken n
  recorded : ∀ n, x.Visits n → x.stack.Holds n ∨ t.Uncovered → ∀ a ∈ taken n,
    a ∈ (x.sets n).explored.toList
  sleep : ∀ n, x.Visits n → ∀ a ∈ taken n, a ∈ (x.sets n).sleep.toList
  nodup : ∀ n, (taken n).Nodup
  last : ∀ a, pending = some a → ∃ n l, x.stack.topNode? = some n ∧ taken n = l ++ [a]
  child : ∀ n, ∀ a ∈ taken n, (∃ c, x.Visits c ∧ t.Edge n a c) ∨
    pending = some a ∧ x.stack.topNode? = some n

theorem mem_update_append :
    b ∈ Function.update taken n (taken n ++ [a]) m ↔ b ∈ taken m ∨ m = n ∧ b = a := by
  by_cases hm : m = n
  · subst hm
    simp
  · simp [hm]

theorem nodup_update_append (hnew : a ∉ taken n) (hm : (taken m).Nodup) :
    (Function.update taken n (taken n ++ [a]) m).Nodup := by
  by_cases hmn : m = n
  · subst hmn
    rw [Function.update_self, List.nodup_append]
    refine ⟨hm, List.nodup_singleton a, fun b hb c hc hbc => hnew ?_⟩
    rwa [← List.mem_singleton.1 hc, ← hbc]
  · rwa [Function.update_of_ne hmn]

/-- Before a step that had been taken already, there is nothing new. -/
theorem exists_split_of_update_append {l₁ l₂ : List Step} (hnew : a ∉ taken n) (hb : b ∈ taken m)
    (hsplit : Function.update taken n (taken n ++ [a]) m = l₁ ++ b :: l₂) :
    ∃ l₂', taken m = l₁ ++ b :: l₂' := by
  by_cases hm : m = n
  · subst hm
    rw [Function.update_self] at hsplit
    rcases end_or_inner_of_split hsplit with ⟨-, rfl, -⟩ | ⟨l₂', -, htaken⟩
    · exact absurd hb hnew
    · exact ⟨l₂', htaken⟩
  · rw [Function.update_of_ne hm] at hsplit
    exact ⟨l₂, hsplit⟩

namespace Takes

variable (h : Takes p t n a x x')
include h

/-- A step that is taken has not been taken before, as long as all that has been taken is redundant. -/
theorem not_mem_sleep : a ∉ (x.sets n).sleep.toList := by
  intro hmem
  have hawake := h.awake
  rw [Keyed.hasKey_of_mem hmem] at hawake
  cases hawake

theorem passesOver_iff : x'.PassesOver (Function.update taken n (taken n ++ [a])) m b ↔
    x.PassesOver taken m b := by
  simp only [Exploration.PassesOver, h.mem_sleep_iff, mem_update_append, not_or]
  constructor
  · rintro ⟨hb | hself, htaken, hne⟩
    · exact ⟨hb, htaken⟩
    · exact absurd hself hne
  · rintro ⟨hb, htaken⟩
    refine ⟨.inl hb, htaken, ?_⟩
    rintro ⟨rfl, rfl⟩
    exact h.not_mem_sleep hb

theorem due (hdue : x.Due taken m b) : x'.Due (Function.update taken n (taken n ++ [a])) m b := by
  rcases hdue with hb | ⟨hholds, hb, hsleep⟩
  · exact .inl (mem_update_append.2 (.inl hb))
  by_cases hself : m = n ∧ b = a
  · exact .inl (mem_update_append.2 (.inr hself))
  · refine .inr ⟨h.stack ▸ hholds, h.keeps hb, fun hmem => ?_⟩
    exact (h.mem_sleep_iff.1 hmem).elim hsleep hself

end Takes

/-! ## Children entered -/

/-- The child `c` of the current node by the pending step `e` is entered: its sets are `d`, and it is
the current node from then on. -/
structure Enters (p : Program) (precision : Precision) (t : SearchTree ProgramState Step)
    (w : List Step) (last : Frame Step) (e : Step) (c : NodeId) (d : Decoration Step)
    (x x' : Exploration Step Seeded) : Prop where
  follows : Follows t x.stack w
  sound : ∀ i f, x.stack.frame? i = some f → FrameSound p precision (w.take i) f
  top : x.stack.frame? w.length = some last
  edge : t.Edge last.node e c
  node : ∃ entry, t.node? c = some entry ∧ entry.pruned = false ∧
    Fresh p precision entry e (x.sets last.node).sleep d
  unvisited : ¬x.Visits c
  reversed : ∀ u q y origin, w = u ++ q :: y → Visible p precision t x u q y e origin →
    ∃ r, Reversal p precision x origin q y e r ∧
      (x.table.get origin.stateId).backtrack.hasKey (Action.key r)
  stack : ∃ s f, x.stack.Relocks s ∧ x'.stack = s.push f ∧ f.node = c ∧ f.action = some e ∧
    FrameSound p precision (w ++ [e]) f
  visits : ∀ m, x'.Visits m ↔ x.Visits m ∨ m = c
  sets_self : x'.sets c = d
  sets_ne : ∀ m, m ≠ c → x'.sets m = x.sets m

namespace Enters

variable {w : List Step} {last : Frame Step} {d : Decoration Step}
variable (h : Enters p precision t w last e c d x x')
include h

theorem ne_of_visits (hm : x.Visits m) : m ≠ c := by
  rintro rfl
  exact h.unvisited hm

/-- What was known of nodes visited before stays as it was. -/
theorem sets_of_visits (hm : x.Visits m) : x'.sets m = x.sets m := h.sets_ne m (h.ne_of_visits hm)

theorem parent_eq {n : NodeId} (hedge : t.Edge n b c) : n = last.node ∧ b = e := hedge.unique h.edge

theorem topNode?_eq : x.stack.topNode? = some last.node := h.follows.topNode?_eq h.top

theorem holds_iff : x'.stack.Holds m ↔ x.stack.Holds m ∨ m = c := by
  obtain ⟨s, f, hrelocks, hstack, hnode, -⟩ := h.stack
  rw [hstack, SearchStack.holds_push, hrelocks.holds_iff, hnode]

theorem eachFrame : EachFrame (FrameSound p precision) t x'.stack := by
  obtain ⟨s, f, hrelocks, hstack, hnode, haction, hsound⟩ := h.stack
  rw [hstack]
  exact EachFrame.push (fun _ _ _ => FrameSound.of_locks) h.follows h.sound hrelocks h.top haction
    (hnode ▸ h.edge) hsound

/-- What holds of the sets of the nodes visited before, and of those of the child, holds of the sets of
all nodes visited now. -/
theorem forall_sets {P : NodeId → Decoration Step → Prop} (hold : ∀ m, x.Visits m → P m (x.sets m))
    (hnew : P c d) : ∀ m, x'.Visits m → P m (x'.sets m) := by
  intro m hm
  rcases (h.visits m).1 hm with hm | rfl
  · rw [h.sets_of_visits hm]
    exact hold m hm
  · rw [h.sets_self]
    exact hnew

theorem passesOver_iff_of_visits (hm : x.Visits m) :
    x'.PassesOver taken m b ↔ x.PassesOver taken m b :=
  Exploration.passesOver_congr (by rw [h.sets_of_visits hm])

theorem due (hm : x.Visits m) (hdue : x.Due taken m b) : x'.Due taken m b := by
  rw [Exploration.Due, h.sets_of_visits hm]
  exact hdue.imp_right fun ⟨hholds, hb⟩ => ⟨h.holds_iff.2 (.inl hholds), hb⟩

/-- Nothing has been taken at the child, so what is redundant there has been passed over. -/
theorem passesOver_iff (huntaken : taken c = []) : x'.PassesOver taken c b ↔
    b ∈ (x.sets last.node).sleep.toList ∧ ¬Step.Depends precision b e := by
  obtain ⟨entry, -, -, hfresh⟩ := h.node
  rw [Exploration.PassesOver, h.sets_self, hfresh.mem_sleep, huntaken]
  simp

end Enters

/-! ## What the operations preserve -/

namespace Records

/-- What has been taken is known from the visited nodes, the stack, and what is redundant. The explored set
of a node that has been left behind may be forgotten. -/
theorem carry (h : Records t taken pending x) (hvisits : ∀ n, x'.Visits n ↔ x.Visits n)
    (hholds : ∀ n, x'.stack.Holds n → x.stack.Holds n)
    (htop : ∀ a, pending = some a → x'.stack.topNode? = x.stack.topNode?)
    (hsleep : ∀ n, (x'.sets n).sleep = (x.sets n).sleep)
    (hexplored : ∀ n, (x'.sets n).explored = (x.sets n).explored ∨
      (x'.sets n).explored = ∅ ∧ ¬x'.stack.Holds n ∧ ¬t.Uncovered) :
    Records t taken pending x' := by
  constructor
  case started => exact (hvisits _).2 h.started
  case standing => exact fun n hn => (hvisits n).2 (h.standing n (hholds n hn))
  case node => exact fun n hn => h.node n ((hvisits n).1 hn)
  case edge =>
    intro n a c hedge hc
    rw [hvisits]
    exact h.edge n a c hedge ((hvisits c).1 hc)
  case unvisited => exact fun n hn => h.unvisited n fun hn' => hn ((hvisits n).2 hn')
  case explored =>
    intro n hn a ha
    rcases hexplored n with heq | ⟨hempty, -⟩
    · exact h.explored n ((hvisits n).1 hn) a (heq ▸ ha)
    · rw [hempty] at ha
      cases ha
  case recorded =>
    intro n hn hplace a ha
    rcases hexplored n with heq | ⟨-, hleft, hcovered⟩
    · rw [heq]
      exact h.recorded n ((hvisits n).1 hn) (hplace.imp_left (hholds n)) a ha
    · exact (hplace.elim hleft hcovered).elim
  case sleep =>
    intro n hn
    rw [hsleep]
    exact h.sleep n ((hvisits n).1 hn)
  case nodup => exact h.nodup
  case last =>
    intro a ha
    rw [htop a ha]
    exact h.last a ha
  case child =>
    intro n a ha
    rcases h.child n a ha with ⟨c, hc, hedge⟩ | ⟨hpending, htop'⟩
    · exact .inl ⟨c, (hvisits c).2 hc, hedge⟩
    · exact .inr ⟨hpending, by rw [htop a hpending, htop']⟩

/-- A step that is not redundant is taken at the current node. -/
theorem take (h : Records t taken none x) (htop : x.stack.topNode? = some n) (htakes : Takes p t n a x x') :
    Records t (Function.update taken n (taken n ++ [a])) (some a) x' := by
  have hvisit := h.standing n (SearchStack.holds_top htop)
  have hnew : a ∉ taken n := fun hmem => htakes.not_mem_sleep (h.sleep n hvisit a hmem)
  have hexplored : ∀ c ∈ (x.sets n).explored.toList, c ∈ (x.sets n).sleep.toList :=
    fun c hc => h.sleep n hvisit c (h.explored n hvisit c hc)
  constructor
  case started => exact (htakes.visits _).2 h.started
  case standing => simp only [htakes.stack, htakes.visits]; exact h.standing
  case node => simp only [htakes.visits]; exact h.node
  case edge =>
    simp only [htakes.visits, mem_update_append]
    intro m b c hedge hc
    exact (h.edge m b c hedge hc).imp_right .inl
  case unvisited =>
    simp only [htakes.visits]
    intro m hm
    have hmn : m ≠ n := by
      rintro rfl
      exact hm hvisit
    rw [Function.update_of_ne hmn]
    exact h.unvisited m hm
  case explored =>
    simp only [htakes.visits, htakes.mem_explored_iff hexplored, mem_update_append]
    exact fun m hm b hb => hb.imp_left (h.explored m hm b)
  case recorded =>
    simp only [htakes.visits, htakes.mem_explored_iff hexplored, mem_update_append, htakes.stack]
    exact fun m hm hplace b hb => hb.imp_left (h.recorded m hm hplace b)
  case sleep =>
    simp only [htakes.visits, htakes.mem_sleep_iff, mem_update_append]
    exact fun m hm b hb => hb.imp_left (h.sleep m hm b)
  case nodup => exact fun m => nodup_update_append hnew (h.nodup m)
  case last =>
    intro b hb
    obtain rfl := Option.some.inj hb
    exact ⟨n, taken n, htakes.stack ▸ htop, Function.update_self ..⟩
  case child =>
    simp only [htakes.visits, mem_update_append, htakes.stack]
    rintro m b (hb | ⟨rfl, rfl⟩)
    · exact .inl ((h.child m b hb).resolve_right fun hnone => nomatch hnone.1)
    · exact .inr ⟨rfl, htop⟩

section Enter

variable {w : List Step} {last : Frame Step} {d : Decoration Step}
  (h : Records t taken (some e) x) (henters : Enters p precision t w last e c d x x')
include h henters

theorem visits_last : x.Visits last.node := h.standing _ ⟨_, last, henters.top, rfl⟩

/-- The pending step has been taken last. -/
theorem exists_taken_last : ∃ l, taken last.node = l ++ [e] := by
  obtain ⟨n, l, htop, htaken⟩ := h.last e rfl
  rw [henters.topNode?_eq, Option.some.injEq] at htop
  exact ⟨l, htop ▸ htaken⟩

/-- The child of the current node by the pending step is entered. -/
theorem enter : Records t taken none x' := by
  obtain ⟨entry, hentry, hpruned, hfresh⟩ := henters.node
  have huntaken : taken c = [] := h.unvisited c henters.unvisited
  constructor
  case started => exact (henters.visits _).2 (.inl h.started)
  case standing =>
    intro m hm
    rw [henters.visits]
    exact (henters.holds_iff.1 hm).imp_left (h.standing m)
  case node =>
    intro m hm
    rcases (henters.visits m).1 hm with hm | rfl
    · exact h.node m hm
    · exact ⟨entry, hentry, hpruned⟩
  case edge =>
    intro m b k hedge hk
    rw [henters.visits]
    rcases (henters.visits k).1 hk with hk | rfl
    · exact (h.edge m b k hedge hk).imp_left .inl
    · obtain ⟨rfl, rfl⟩ := henters.parent_eq hedge
      obtain ⟨l, htaken⟩ := h.exists_taken_last henters
      exact ⟨.inl (h.visits_last henters), by simp [htaken]⟩
  case unvisited =>
    intro m hm
    rw [henters.visits, not_or] at hm
    exact h.unvisited m hm.1
  case explored =>
    refine henters.forall_sets (P := fun m d => ∀ b ∈ d.explored.toList, b ∈ taken m) h.explored ?_
    rw [hfresh.explored]
    exact fun b hb => nomatch hb
  case recorded =>
    intro m hm hplace b hb
    rcases (henters.visits m).1 hm with hm | rfl
    · rw [henters.sets_of_visits hm]
      refine h.recorded m hm (hplace.imp_left fun hholds => ?_) b hb
      exact (henters.holds_iff.1 hholds).resolve_right (henters.ne_of_visits hm)
    · rw [huntaken] at hb
      cases hb
  case sleep =>
    refine henters.forall_sets (P := fun m d => ∀ b ∈ taken m, b ∈ d.sleep.toList) h.sleep ?_
    simp [huntaken]
  case nodup => exact h.nodup
  case last => exact nofun
  case child =>
    intro m b hb
    left
    rcases h.child m b hb with ⟨k, hk, hedge⟩ | ⟨hbe, htop⟩
    · exact ⟨k, (henters.visits k).2 (.inl hk), hedge⟩
    · rw [henters.topNode?_eq, Option.some.injEq] at htop
      obtain rfl := Option.some.inj hbe
      exact ⟨c, (henters.visits c).2 (.inr rfl), htop ▸ henters.edge⟩

end Enter

/-- The tree may grow, and its nodes may be marked. Covered nodes stay covered. -/
theorem retree {t' : SearchTree ProgramState Step} (h : Records t taken pending x)
    (hnode : ∀ n e, t.node? n = some e → ∃ e', t'.node? n = some e' ∧ e'.pruned = e.pruned)
    (hedge : ∀ n a c, x.Visits c → (t'.Edge n a c ↔ t.Edge n a c))
    (huncovered : t'.Uncovered → t.Uncovered) : Records t' taken pending x := by
  refine ⟨h.started, h.standing, fun n hn => ?_, fun n a c hnc hc => ?_, h.unvisited, h.explored,
    fun n hn hplace => h.recorded n hn (hplace.imp_right huncovered), h.sleep, h.nodup, h.last,
    fun n a ha => ?_⟩
  · obtain ⟨e, he, hpruned⟩ := h.node n hn
    obtain ⟨e', he', heq⟩ := hnode n e he
    exact ⟨e', he', heq.trans hpruned⟩
  · exact h.edge n a c ((hedge n a c hc).1 hnc) hc
  · exact (h.child n a ha).imp_left fun ⟨c, hc, hnc⟩ => ⟨c, hc, (hedge n a c hc).2 hnc⟩

end Records

end Interleaving
