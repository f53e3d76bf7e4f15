import Interleaving.Proofs.Operations

/-!
# The operations of an engine

Rules for the operations of which a round consists: questions to the exploration, changes of the tree,
and the child of a node by a step. What halts on the way leaves the tree as it was last.
-/

namespace Interleaving

namespace Search

variable {χ β : Type} {p : Program} {precision : Precision}

/-- The search with another exploration. -/
def withExploration (s : Search ProgramState Step χ) (x : Exploration Step χ) :
    Search ProgramState Step χ := { s with exploration := x }

/-- The search with another tree. -/
def withTree (s : Search ProgramState Step χ) (t : SearchTree ProgramState Step) :
    Search ProgramState Step χ := { s with tree := t }

/-- An operation of the exploration leaves the rest of the search alone. -/
theorem ends_explore {s : Search ProgramState Step χ}
    {op : Context ProgramState Step Empty → ExploreM Step χ Empty β}
    {Q : β → Search ProgramState Step χ → Prop} {E : Search ProgramState Step χ → Prop}
    (h : Ends (op (p.context precision s.tree s.settings)) s.exploration
      (fun b x => Q b (s.withExploration x)) fun x => E (s.withExploration x)) :
    Ends (explore (p.system precision) op) s Q E := by
  obtain ⟨settings, seed, tree, x⟩ := s
  unfold Ends at h ⊢
  unfold explore
  dsimp only [Program.context] at h
  dsimp only
  cases hop : op { system := p.system precision, tree, settings } x with
  | ok b x' =>
    rw [hop] at h
    exact h
  | error halt x' =>
    rw [hop] at h
    exact h

/-- What an operation of the exploration answers, the search answers. -/
theorem explore_eq_ok {s : Search ProgramState Step χ} {b : β} {x : Exploration Step χ}
    {op : Context ProgramState Step Empty → ExploreM Step χ Empty β}
    (h : op (p.context precision s.tree s.settings) s.exploration = .ok b x) :
    explore (p.system precision) op s = .ok b (s.withExploration x) := by
  obtain ⟨settings, seed, tree, y⟩ := s
  unfold explore
  dsimp only [Program.context] at h
  dsimp only
  rw [h]
  rfl

end Search

namespace Engine

/-- The engine with another exploration. -/
def withExploration (e : Engine) (x : Exploration Step Seeded) : Engine :=
  { e with search := { e.search with exploration := x } }

/-- The engine with another tree. -/
def withTree (e : Engine) (t : SearchTree ProgramState Step) : Engine :=
  { e with search := { e.search with tree := t } }

/-- What the exploration of an engine reads. -/
def context (e : Engine) : Context ProgramState Step Empty :=
  e.program.context e.precision e.tree e.search.settings

section CoveringFor

variable {e : Engine} {n c : NodeId} {entry : SearchTree.Node ProgramState Step}
  (h : e.coveringFor n entry = some c)
include h

/-- Only a leaf that is not covered gets covered: by an older node that may cover it. -/
theorem exists_mayCover : entry.isCovered = false ∧ entry.children = [] ∧
    ∃ d, e.tree.node? c = some d ∧ c.index < n.index ∧ e.mayCover entry d = true := by
  unfold coveringFor at h
  split at h
  swap
  · cases h
  rename_i hleaf
  simp only [Bool.and_eq_true, Bool.not_eq_true', List.isEmpty_iff] at hleaf
  obtain ⟨⟨-, huncovered⟩, hbare⟩ := hleaf
  obtain ⟨i, hi, rfl⟩ := Option.map_eq_some_iff.1 h
  obtain ⟨hfind, hlt⟩ := Option.filter_eq_some_iff.1 hi
  obtain ⟨hsize, hmay, -⟩ := Array.findIdx?_eq_some_iff_getElem.1 hfind
  exact ⟨huncovered, hbare, _, Array.getElem?_eq_getElem hsize, by simpa using hlt, hmay⟩

/-- That one is live and has the same state. -/
theorem of_coveringFor : entry.isCovered = false ∧ entry.children = [] ∧
    ∃ d, e.tree.node? c = some d ∧ d.pruned = false ∧ c.index < n.index ∧ d.state = entry.state := by
  obtain ⟨huncovered, hbare, d, hd, hlt, hmay⟩ := exists_mayCover h
  simp only [mayCover, Bool.and_eq_true, Bool.not_eq_true', beq_iff_eq] at hmay
  obtain ⟨⟨⟨⟨hlive, -⟩, -⟩, hstate⟩, -⟩ := hmay
  exact ⟨huncovered, hbare, d, hd, hlive, hlt, hstate⟩

end CoveringFor

end Engine

namespace Ends

variable {β : Type} {e : Engine} {Q : β → Engine → Prop} {E : Engine → Prop} {n : NodeId}
  {entry : SearchTree.Node ProgramState Step} {a : Step} {progress : Engine.Progress}

theorem onSearch {op : SearchM ProgramState Step Seeded Empty β}
    (h : Ends op e.search (fun b s => Q b { e with search := s }) fun s => E { e with search := s }) :
    Ends (Engine.onSearch op) e Q E := by
  obtain ⟨program, precision, settings, search, executed⟩ := e
  unfold Ends at h ⊢
  unfold Engine.onSearch
  dsimp only at h ⊢
  cases hop : op search <;> rw [hop] at h <;> exact h

/-- An operation of the exploration leaves the rest of the engine alone. -/
theorem explore_ends {op : Context ProgramState Step Empty → ExploreM Step Seeded Empty β}
    (h : Ends (op e.context) e.search.exploration (fun b x => Q b (e.withExploration x))
      fun x => E (e.withExploration x)) : Ends (Engine.explore op) e Q E := by
  unfold Engine.explore
  exact .bind (.get (.onSearch (Search.ends_explore h)))

theorem explore {op : Context ProgramState Step Empty → ExploreM Step Seeded Empty β}
    (h : Yields (op e.context) e.search.exploration fun b x => Q b (e.withExploration x))
    (hE : ∀ x, E (e.withExploration x)) : Ends (Engine.explore op) e Q E :=
  explore_ends (h.mono (fun _ _ h => h) fun x _ => hE x)

theorem updateTree {f : SearchTree ProgramState Step → SearchTree ProgramState Step}
    {Q : Unit → Engine → Prop} (h : Q () (e.withTree (f e.tree))) :
    Ends (Engine.updateTree f) e Q E := h

theorem lookUpEntry {Q : SearchTree.Node ProgramState Step → Engine → Prop}
    (h : ∀ entry, e.tree.node? n = some entry → Q entry e) (hE : E e) :
    Ends (Engine.onSearch (Search.lookUp n)) e Q E := by
  refine .onSearch (.bind (.get ?_))
  split
  · rename_i entry hentry
    exact .pure (h entry hentry)
  · exact .throw hE

theorem lookUpEntry_of_node? {Q : SearchTree.Node ProgramState Step → Engine → Prop}
    (hn : e.tree.node? n = some entry) (h : Q entry e) :
    Ends (Engine.onSearch (Search.lookUp n)) e Q E := by
  refine .onSearch (.bind (.get ?_))
  rw [show e.search.tree.node? n = some entry from hn]
  exact .pure h

/-- The child of a node by a step stands in the tree already, or is added to it. -/
theorem childFor {Q : NodeId × Engine.Progress → Engine → Prop}
    (hold : ∀ c, e.tree.childWithAction n a = some c → Q (c, progress) e)
    (hnew : e.tree.childWithAction n a = none →
      Q (⟨e.tree.size⟩, { progress with newNodes := progress.newNodes + 1 })
        (e.withTree (e.tree.addChild n a (entry.state.after a)).2)) :
    Ends (Engine.childFor n entry a progress) e Q E := by
  unfold Engine.childFor
  refine .bind (.get ?_)
  split
  · rename_i c hc
    exact .pure (hold c hc)
  · rename_i hnone
    exact .bind (.onSearch (.modifyGet (.pure (hnew hnone))))

/-- What each turn preserves, the turns of a round preserve. The last of them does not go on. -/
theorem continueRound {I : Engine → Prop} {R : Engine.Progress → Engine → Prop} {turns : Nat}
    (hhalt : ∀ e, I e → E e)
    (hturn : ∀ e progress, I e → Ends (Engine.roundTurn progress) e
      (fun r e' => I e' ∧ (r.1 = false → R r.2 e')) E) (h : I e) :
    Ends (Engine.continueRound turns progress) e (fun progress' e' => I e' ∧ R progress' e') E := by
  induction turns generalizing e progress with
  | zero => exact .throw (hhalt e h)
  | succ turns ih =>
    refine .bind ((hturn e progress h).imp fun r e' he' => ?_)
    obtain ⟨goesOn, progress'⟩ := r
    dsimp only at he' ⊢
    split
    · exact ih he'.1
    · rename_i hlast
      exact .pure ⟨he'.1, he'.2 (Bool.eq_false_iff.2 hlast)⟩

end Ends

/-! ## The tree as a child is looked up -/

namespace SearchTree

variable {p : Program} {t : SearchTree ProgramState Step} {n c : NodeId} {a : Step}
  {entry : Node ProgramState Step}

/-- The child by a step is one by the same step. -/
theorem Sound.edge_of_childWithAction (ht : t.Sound p) (hn : t.node? n = some entry)
    (ha : p.HasStep a) (h : t.childWithAction n a = some c) :
    c ∈ entry.children ∧ t.Edge n a c := by
  have hmem : c ∈ t.children n := List.mem_of_find?_eq_some h
  have hkey := List.find?_some h
  rw [children, hn] at hmem
  obtain ⟨b, hedge⟩ := ht.exists_edge_of_child hn hmem
  rw [hedge.2] at hkey
  have hba : Action.key b = Action.key a := by simpa using hkey
  rw [← (ht.canRun hedge).hasStep.eq_of_key_eq ha hba]
  exact ⟨hmem, hedge⟩

end SearchTree

end Interleaving
