import Interleaving.Proofs.Operations
import Interleaving.Proofs.Traces

/-!
# What stays redundant

A step taken at a node is redundant there from then on, and stays redundant above it until a step that
depends on it. `Sleeping` says this of all frames of the stack, with or without covered nodes, whatever
has been required meanwhile. So a step that is offered has not been taken at any node below where it
could still come first (`Sleeping.isNewAt`).
-/

namespace Interleaving

variable {p : Program} {precision : Precision} {t : SearchTree ProgramState Step}
  {settings : Settings} {x x' : Exploration Step Seeded} {n c : NodeId} {a b : Step}

/-- What is redundant during the first round: the steps to all children of a node, and above a node
what is redundant there and does not depend on the steps in between. -/
structure Sleeping (p : Program) (precision : Precision) (t : SearchTree ProgramState Step)
    (x : Exploration Step Seeded) : Prop where
  path : x.stack.size = 0 ∨ ∃ w, Follows t x.stack w
  canRun : ∀ n, ∀ a ∈ (x.sets n).backtrack.toList, p.CanRun (t.state n) a
  children : ∀ n a c, t.Edge n a c → a ∈ (x.sets n).sleep.toList
  passes : ∀ i f g a b, x.stack.frame? i = some f → x.stack.frame? (i + 1) = some g →
    g.action = some a → b ∈ (x.sets f.node).sleep.toList → ¬Step.Depends precision b a →
    b ∈ (x.sets g.node).sleep.toList

namespace Sleeping

variable (h : Sleeping p precision t x)
include h

/-- Steps may become required, and locks may be released. -/
theorem congr (hstack : x.stack.Relocks x'.stack) (hsleep : ∀ n, (x'.sets n).sleep = (x.sets n).sleep)
    (hcanRun : ∀ n, ∀ a ∈ (x'.sets n).backtrack.toList, p.CanRun (t.state n) a) :
    Sleeping p precision t x' := by
  constructor
  case path =>
    refine h.path.imp (fun hsize => hstack.size_eq.trans hsize) ?_
    exact fun ⟨w, hfollows⟩ => ⟨w, hfollows.relocks hstack⟩
  case canRun => exact hcanRun
  case children =>
    intro n a c hedge
    rw [hsleep]
    exact h.children n a c hedge
  case passes =>
    intro i f g a b hf hg hga hb hdepends
    obtain ⟨locks, hf'⟩ := hstack.exists_frame hf
    obtain ⟨locks', hg'⟩ := hstack.exists_frame hg
    rw [hsleep] at hb ⊢
    exact h.passes i _ { g with locks := locks' } a b hf' hg' hga hb hdepends

theorem of_eq (hstack : x'.stack = x.stack) (htable : x'.table = x.table) :
    Sleeping p precision t x' := by
  have hsets : ∀ n, x'.sets n = x.sets n := fun n => by rw [Exploration.sets, htable]; rfl
  refine h.congr (hstack ▸ .refl x.stack) (fun n => by rw [hsets]) fun n a ha => ?_
  rw [hsets] at ha
  exact h.canRun n a ha

theorem widen (ht : t.Sound p) (hwidens : Widens p t x x') : Sleeping p precision t x' := by
  refine h.congr (hwidens.stack ▸ .refl x.stack) (fun n => hwidens.sleep _) fun n a ha => ?_
  rcases hwidens.adds _ a ha with ha | ⟨i, f, e, hf, he, hid, hrun⟩
  · exact h.canRun n a ha
  · rw [(ht.identity _ _ he).1] at hid
    rw [← NodeId.eq_of_stateId_eq hid, SearchTree.state_eq he]
    exact hrun

/-- The top frame is taken away. -/
theorem pop (ht : t.Sound p) (hpopped : Popped p t x x') : Sleeping p precision t x' := by
  obtain ⟨x₁, hwidens, htable⟩ := hpopped.widens
  have h₁ := h.widen ht hwidens
  have hsets : ∀ n, x'.sets n = x₁.sets n := fun n => by rw [Exploration.sets, htable]; rfl
  have hstack : x'.stack = x₁.stack.pop := by rw [hwidens.stack, hpopped.stack]
  have hframe : ∀ {i f}, x'.stack.frame? i = some f → x₁.stack.frame? i = some f := by
    intro i f hf
    rw [hstack, SearchStack.frame?_pop] at hf
    split at hf
    · exact hf
    · cases hf
  constructor
  case path =>
    rcases h₁.path with hsize | ⟨w, hfollows⟩
    · exact .inl (by rw [hstack, SearchStack.size_pop, hsize])
    rcases List.eq_nil_or_concat w with rfl | ⟨w, e, rfl⟩
    · exact .inl (by rw [hstack, SearchStack.size_pop, hfollows.size_eq]; rfl)
    rw [List.concat_eq_append] at hfollows
    exact .inr ⟨w, hstack ▸ hfollows.pop⟩
  case canRun => simpa only [hsets] using h₁.canRun
  case children => simpa only [hsets] using h₁.children
  case passes =>
    intro i f g a b hf hg
    rw [hsets, hsets]
    exact h₁.passes i f g a b (hframe hf) (hframe hg)

/-- A step is taken at the current node. -/
theorem take (ht : t.Sound p) (htop : x.stack.topNode? = some n) (htakes : Takes p t n a x x') :
    Sleeping p precision t x' := by
  have hkeeps : ∀ {m b}, b ∈ (x.sets m).sleep.toList → b ∈ (x'.sets m).sleep.toList :=
    fun hb => htakes.mem_sleep_iff.2 (.inl hb)
  constructor
  case path => rw [htakes.stack]; exact h.path
  case canRun =>
    intro m b hb
    rcases htakes.adds hb with hb | ⟨rfl, hrun⟩
    · exact h.canRun m b hb
    · exact hrun
  case children => exact fun m b c hedge => hkeeps (h.children m b c hedge)
  case passes =>
    intro i f g d b hf hg hgd hb hdepends
    rw [htakes.stack] at hf hg
    rcases htakes.mem_sleep_iff.1 hb with hb | ⟨hfn, -⟩
    · exact hkeeps (h.passes i f g d b hf hg hgd hb hdepends)
    · -- the current node is not below another one
      obtain ⟨w, hfollows⟩ := h.path.resolve_left (by have := SearchStack.frame?_lt hf; omega)
      have hlt := hfollows.index_lt ht (Nat.lt_succ_self i) hf hg
      have hle := hfollows.index_le_top ht htop ⟨_, g, hg, rfl⟩
      rw [hfn] at hlt
      omega

/-- What is redundant at a node stays redundant along the stack until a dependent step. -/
theorem mem_sleep_of_walk {u v : List Step} {f g : Frame Step} {j : Nat}
    (hfollows : Follows t x.stack (u ++ v)) (hf : x.stack.frame? u.length = some f)
    (hb : b ∈ (x.sets f.node).sleep.toList) (hfree : ∀ d ∈ v, ¬Step.Depends precision b d)
    (hg : x.stack.frame? (u.length + j) = some g) : b ∈ (x.sets g.node).sleep.toList := by
  induction j generalizing g with
  | zero => rwa [← Option.some.inj (hf.symm.trans hg)]
  | succ j ih =>
    have hlt := hfollows.frame?_lt hg
    rw [List.length_append] at hlt
    have hget : v[j]? = some v[j] := List.getElem?_eq_getElem (by omega)
    have hstep : (u ++ v)[u.length + j]? = some v[j] := by
      rw [List.getElem?_append_right (Nat.le_add_right _ _), Nat.add_sub_cancel_left, hget]
    obtain ⟨k, g', hk, hg', haction, -⟩ := hfollows.next _ _ hstep
    obtain rfl : g = g' := Option.some.inj (hg.symm.trans hg')
    exact h.passes _ k g _ b hk hg haction (ih hk) (hfree _ (List.mem_of_getElem? hget))

/-- A step that is not redundant at the current node is new there. -/
theorem isNewAt (ht : t.Sound p) (htop : x.stack.topNode? = some n)
    (hawake : (x.sets n).sleep.hasKey (Action.key a) = false) : t.IsNewAt precision n a := by
  intro k v c hedge hwalk
  by_contra hfree
  push Not at hfree
  obtain ⟨f, hf, rfl⟩ := SearchStack.topNode?_eq_some_iff.1 htop
  have hlt := SearchStack.frame?_lt hf
  obtain ⟨w, hfollows⟩ := h.path.resolve_left (by omega)
  have hsize := hfollows.size_eq
  obtain ⟨u, hu, g, hg, rfl⟩ := hfollows.exists_split ht hf hwalk
  rw [List.take_of_length_le (by omega)] at hu
  have htop' : x.stack.size - 1 = u.length + v.length := by
    rw [hsize, hu, List.length_append, Nat.add_sub_cancel]
  rw [htop'] at hf
  subst hu
  have hmem := h.mem_sleep_of_walk hfollows hg (h.children _ a c hedge) hfree hf
  rw [Keyed.hasKey_of_mem hmem] at hawake
  cases hawake

/-- The tree may grow where the step is redundant already. -/
theorem extend {t' : SearchTree ProgramState Step}
    (hstate : ∀ n e, t.node? n = some e → t'.state n = t.state n)
    (hedge : ∀ k b c, t.Edge k b c → t'.Edge k b c)
    (hnew : ∀ k b c, t'.Edge k b c → t.Edge k b c ∨ b ∈ (x.sets k).sleep.toList) :
    Sleeping p precision t' x := by
  refine ⟨h.path.imp_right fun ⟨w, hfollows⟩ => ⟨w, hfollows.mono hedge⟩, fun n a ha => ?_,
    fun n a c hc => ?_, h.passes⟩
  · have hrun := h.canRun n a ha
    cases hn : t.node? n with
    | some e => exact hstate n e hn ▸ hrun
    | none =>
      -- nothing is required where there is no node
      rw [SearchTree.state, hn] at hrun
      cases hrun.active
  · exact (hnew n a c hc).elim (h.children n a c) id

/-- A new child of the current node is entered. -/
theorem enter {w : List Step} {last : Frame Step} {entry before : SearchTree.Node ProgramState Step}
    {clock : Clock} {d : Decoration Step} (ht : t.Sound p) (hfollows : Follows t x.stack w)
    (hlast : x.stack.frame? w.length = some last) (hedge : t.Edge last.node a c)
    (hentry : t.node? c = some entry) (hleaf : ∀ b k, ¬t.Edge c b k)
    (hfresh : Fresh p precision entry a (x.sets last.node).sleep d)
    (hinstalled : Installed x c entry last before a clock d x') : Sleeping p precision t x' := by
  obtain ⟨s, spawned, acquired, released, hrelocks, -, hstack⟩ := hinstalled.stack
  generalize htop : Exploration.nextFrame last x.stack.size c a clock spawned acquired released = top
    at hstack
  have hnode : top.node = c := by rw [← htop]; rfl
  have haction : top.action = some a := by rw [← htop]; rfl
  have hid : entry.stateId = ⟨c.index⟩ := (ht.identity _ _ hentry).1
  have hself := hinstalled.sets_self hid
  have hsets : ∀ m, m ≠ c → x'.sets m = x.sets m := fun _ => hinstalled.sets_of_ne hid
  have hsize : s.size = w.length + 1 := hrelocks.size_eq.trans hfollows.size_eq
  obtain ⟨locks, hlast'⟩ := hrelocks.frame _ _ hlast
  -- no frame below is that of the child, so the decorations of their nodes stay
  have hbelow : ∀ {i f}, s.frame? i = some f → f.node ≠ c := by
    intro i f hf hfc
    obtain ⟨locks, hf'⟩ := hrelocks.exists_frame hf
    exact hfollows.not_holds_child ht (hfollows.topNode?_eq hlast) hedge ⟨i, _, hf', hfc⟩
  constructor
  case path =>
    refine .inr ⟨w ++ [a], hstack ▸ ?_⟩
    exact (hfollows.relocks hrelocks).push hlast' haction (hnode ▸ hedge)
  case canRun =>
    intro m b hb
    by_cases hm : m = c
    · subst hm
      rw [hself] at hb
      exact SearchTree.state_eq hentry ▸ hfresh.canRun b hb
    · rw [hsets m hm] at hb
      exact h.canRun m b hb
  case children =>
    intro m b k hmk
    by_cases hm : m = c
    · exact absurd (hm ▸ hmk) (hleaf b k)
    · rw [hsets m hm]
      exact h.children m b k hmk
  case passes =>
    intro i f g e b hf hg hge hb hdepends
    have hi := SearchStack.frame?_lt hg
    rw [hstack, SearchStack.size_push] at hi
    rw [hstack, SearchStack.frame?_push, if_neg (by omega)] at hf
    rw [hsets _ (hbelow hf)] at hb
    rw [hstack, SearchStack.frame?_push] at hg
    split at hg
    · -- the new frame
      rename_i hnew
      obtain rfl : top = g := Option.some.inj hg
      obtain rfl : i = w.length := by omega
      obtain rfl : { last with locks } = f := Option.some.inj (hlast'.symm.trans hf)
      obtain rfl : a = e := Option.some.inj (haction.symm.trans hge)
      rw [hnode, hself]
      exact (hfresh.mem_sleep b).2 ⟨hb, hdepends⟩
    · rw [hsets _ (hbelow hg)]
      obtain ⟨locks, hf'⟩ := hrelocks.exists_frame hf
      obtain ⟨locks', hg'⟩ := hrelocks.exists_frame hg
      exact h.passes i _ { g with locks := locks' } e b hf' hg' hge hb hdepends

omit h in
/-- At the start of the first round, only the root has sets. -/
theorem start (ht : t.Sound p) (hedge : ∀ k a c, ¬t.Edge k a c) (hsize : x.stack.size = 0)
    (hnone : ∀ s, x.table.get s = {}) (hstack : x'.stack = x.stack.push (.root SearchTree.root))
    (htable : x'.table = (x.table.markVisited ⟨0⟩).reset ⟨0⟩
      { backtrack := p.enabledSet p.initialState }) : Sleeping p precision t x' := by
  constructor
  case path =>
    refine .inr ⟨[], by rw [hstack, SearchStack.size_push, hsize]; rfl, ?_, by simp⟩
    exact ⟨.root SearchTree.root, by rw [hstack, SearchStack.frame?_push, if_pos hsize.symm], rfl, rfl⟩
  case canRun =>
    intro n a ha
    rw [Exploration.sets, htable, DecorationTable.get_reset] at ha
    split at ha
    · rename_i hn
      obtain rfl : SearchTree.root = n := NodeId.eq_of_stateId_eq hn
      rw [ht.state_root]
      exact Program.mem_enabledSet_iff.1 ha
    · rw [DecorationTable.get_markVisited, hnone] at ha
      cases ha
  case children => exact fun n a c hc => absurd hc (hedge n a c)
  case passes =>
    intro i f g a b _ hg
    have hi := SearchStack.frame?_lt hg
    rw [hstack, SearchStack.size_push, hsize] at hi
    omega

end Sleeping

/-! ## The operations -/

namespace Ends

/-- The child of the current node by a step that has been taken is added. -/
theorem add_sleeping (ht : t.Sound p) (h : Sleeping p precision t x)
    (htop : x.stack.topNode? = some n) (hedge : t.Edge n a c) (hleaf : ∀ b k, ¬t.Edge c b k) :
    Yields (Exploration.add (p.context precision t settings) c) x fun _ x' =>
      Sleeping p precision t x' := by
  obtain ⟨w, hfollows⟩ := h.path.resolve_left (SearchStack.size_ne_zero htop)
  obtain ⟨last, hlast, rfl⟩ := hfollows.exists_top htop
  -- the mark of the new node does not matter
  let y : Exploration Step Seeded := { x with table := x.table.markVisited ⟨c.index⟩ }
  have hy : Sleeping p precision t y :=
    h.congr (.refl x.stack) (fun n => rfl) fun n b hb => h.canRun n b hb
  refine (addStep ht hfollows hlast hedge (scanBelow_widens (x := y) (hfollows.isGenuine ht)
    (ht.canRun hedge).hasStep rfl) fun scan x₁ hx₁ => hx₁.stack).imp ?_
  rintro _ x' ⟨scan, x₁, entry, before, d, hwidens, hentry, -, hfresh, hinstalled⟩
  have hstack : x₁.stack = x.stack := hwidens.stack
  exact (hy.widen ht hwidens).enter ht (hstack.symm ▸ hfollows) (hstack.symm ▸ hlast) hedge hentry
    hleaf hfresh hinstalled

/-- The steps to all children are redundant, so no edge is taken again. -/
theorem exploreLazily_sleeping (ht : t.Sound p) (h : Sleeping p precision t x) :
    Yields (Exploration.exploreLazily (p.context precision t settings)) x fun _ x' =>
      Sleeping p precision t x' := by
  refine exploreLazily (fun _ _ => trivial) (fun _ _ h => h.of_eq) h fun x top entry c a h _ hn hedge => ?_
  obtain ⟨-, hedge, -, hawake⟩ := of_mem_replayableEdges ht hn hedge
  have hkey : (x.table.sleep ⟨top.index⟩).hasKey (Action.key a) :=
    Keyed.hasKey_of_mem (h.children top a c hedge)
  rw [hawake] at hkey
  cases hkey

/-- The next step is taken at the current node; it is new there. -/
theorem nextAction_sleeping {s : StateId} (ht : t.Sound p) (h : Sleeping p precision t x) :
    Yields (Exploration.nextAction (p.context precision t settings) s) x fun answer x' =>
      Sleeping p precision t x' ∧ ∀ a, answer = some a → ∃ n entry, x'.stack.topNode? = some n ∧
        t.node? n = some entry ∧ entry.stateId = s ∧ p.CanRun entry.state a ∧
        t.IsNewAt precision n a ∧ a ∈ (x'.sets n).sleep.toList := by
  refine nextAction.imp fun answer x' hx' => ?_
  obtain ⟨hstack, hx'⟩ := hx'
  cases answer with
  | none => exact ⟨h.of_eq hstack hx', fun a ha => by cases ha⟩
  | some a =>
    obtain ⟨ha, n, entry, htop, hn, rfl, htable⟩ := hx'
    rw [(ht.identity n entry hn).1] at ha
    obtain ⟨ha, hawake⟩ := Keyed.mem_difference.1 ha
    have hrun := h.canRun n a ha
    rw [SearchTree.state_eq hn] at hrun
    have htakes : Takes p t n a x x' := .of_update ht hn hrun hawake hstack htable
    refine ⟨h.take ht htop htakes, fun b hb => ?_⟩
    obtain rfl := Option.some.inj hb
    exact ⟨n, entry, by rw [hstack, htop], hn, rfl, hrun, h.isNewAt ht htop hawake,
      htakes.mem_sleep_iff.2 (.inr ⟨rfl, rfl⟩)⟩

end Ends

end Interleaving
