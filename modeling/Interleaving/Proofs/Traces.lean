import Interleaving.Proofs.Trees

/-!
# Traces of nodes

The actions on the way to a node lead there from the root (`Sound.walk_traceTo`). In a tree where no
step is repeated below a later sibling (`Unrepeated`), the traces of two different nodes are no
reorderings of each other (`Unrepeated.not_reorders_traceTo`).
-/

namespace Interleaving
namespace SearchTree

variable {p : Program} {precision : Precision} {t : SearchTree ProgramState Step}
  {n m k c : NodeId} {a b : Step} {v w : List Step}

/-! ## The way to a node -/

namespace Sound

variable (h : t.Sound p)
include h

theorem walk_upwards {e : Node ProgramState Step} {limit : Nat} (hn : t.node? n = some e)
    (hlimit : n.index < limit) :
    Walk t.Edge SearchTree.root ((t.upwards limit n).filterMap t.action).reverse n := by
  induction limit generalizing n e with
  | zero => omega
  | succ limit ih =>
    have hparent : t.parent n = e.parent := by rw [parent, hn, Option.bind_some]
    rw [upwards, hparent]
    cases hm : e.parent with
    | none =>
      obtain rfl := h.orphan n e hn hm
      obtain ⟨r, hr, -, haction, -⟩ := h.root
      have hnone : t.action SearchTree.root = none := by
        rw [action, hr, Option.bind_some, haction]
      simpa [hnone] using Walk.nil SearchTree.root
    | some m =>
      obtain ⟨d, a, hd, hlt, ha, -⟩ := h.edge n e m hn hm
      have hedge : t.Edge m a n := edge_iff.2 ⟨e, hn, hm, ha⟩
      dsimp only
      rw [List.filterMap_cons_some hedge.2, List.reverse_cons]
      exact Walk.snoc_iff.2 ⟨m, ih hd (by omega), hedge⟩

/-- The trace of a node leads there from the root. -/
theorem walk_traceTo {e : Node ProgramState Step} (hn : t.node? n = some e) :
    Walk t.Edge SearchTree.root (t.traceTo n) n := by
  have hlt := index_lt_size hn
  exact h.walk_upwards hn (by omega)

end Sound

theorem not_edge_singleton {s : ProgramState} : ¬(SearchTree.singleton s).Edge k a c := by
  intro hedge
  obtain ⟨e, he, hparent, -⟩ := edge_iff.1 hedge
  rw [(eq_of_node?_singleton he).2] at hparent
  cases hparent

/-- The edges to older nodes are those of the tree before. -/
theorem edge_of_addChild {d : Node ProgramState Step} {s : ProgramState} (hn : t.node? n = some d)
    (hedge : (t.addChild n a s).2.Edge k b c) (hc : c ≠ ⟨t.size⟩) :
    t.Edge k b c ∧ ∃ e, t.node? c = some e := by
  obtain ⟨e', he', -⟩ := edge_iff.1 hedge
  obtain ⟨e, he, -⟩ := (new_or_old_of_addChild hn he').resolve_left fun hnew => hc hnew.1
  exact ⟨((extends_addChild hn).edge_iff he).1 hedge, e, he⟩

/-! ## Trees that repeat nothing -/

/-- Below a later child of a node, no run starts with the step to an earlier child. -/
def Unrepeated (precision : Precision) (t : SearchTree ProgramState Step) : Prop :=
  ∀ k b c a c' v m, t.Edge k b c → t.Edge k a c' → c.index < c'.index → Walk t.Edge c' v m →
    ¬Starts (Step.Depends precision) b (a :: v)

/-- No node on the way to `n` has a child by `a` such that `a` could still come first on the way from
there to `n`. -/
def IsNewAt (precision : Precision) (t : SearchTree ProgramState Step) (n : NodeId) (a : Step) : Prop :=
  ∀ k x c, t.Edge k a c → Walk t.Edge k x n → ∃ d ∈ x, Step.Depends precision a d

namespace Unrepeated

/-- Paths to different nodes that begin with different children are no reorderings of each other. -/
theorem not_reorders_of_lt {c' : NodeId} (hu : t.Unrepeated precision) (hc : t.Edge k a c)
    (hc' : t.Edge k b c') (hlt : c.index < c'.index) (hw : Walk t.Edge c' w m)
    (hnodup : (a :: v).Nodup) : ¬Reorders (Step.Depends precision) (a :: v) (b :: w) := fun hr =>
  hu k a c b c' w m hc hc' hlt hw (Starts.head.of_reorders hnodup (fun _ _ h => h.symm) hr)

/-- Where nothing is repeated, paths to different nodes are no reorderings of each other. -/
theorem not_reorders (ht : t.Sound p) (hu : t.Unrepeated precision) (hv : Walk t.Edge k v n)
    (hw : Walk t.Edge k w m) (hne : n ≠ m) : ¬Reorders (Step.Depends precision) v w := by
  intro hr
  have hnodup := (ht.run_of_walk hv).1.nodup
  have hnodup' := (ht.run_of_walk hw).1.nodup
  induction v generalizing k w with
  | nil =>
    cases hv
    rw [List.nil_perm.1 hr.perm] at hw
    cases hw
    exact hne rfl
  | cons a v ih =>
    cases w with
    | nil =>
      have hnil := List.perm_nil.1 hr.perm
      cases hnil
    | cons b w =>
      cases hv with
      | @cons _ c _ _ _ hc hv =>
      cases hw with
      | @cons _ c' _ _ _ hc' hw =>
      -- the paths part here, or go on to the same child
      rcases Nat.lt_trichotomy c.index c'.index with hlt | heq | hlt
      · exact hu.not_reorders_of_lt hc hc' hlt hw hnodup hr
      · obtain rfl : c = c' := congrArg NodeId.mk heq
        obtain rfl : a = b := Option.some.inj (hc.2.symm.trans hc'.2)
        exact ih hv hw (hr.of_cons hnodup) (List.nodup_cons.1 hnodup).2
          (List.nodup_cons.1 hnodup').2
      · exact hu.not_reorders_of_lt hc' hc hlt hv hnodup' (hr.symm hnodup fun _ _ h => h.symm)

/-- Where nothing is repeated, the traces of different nodes are no reorderings of each other. -/
theorem not_reorders_traceTo {d e : Node ProgramState Step} (ht : t.Sound p)
    (hu : t.Unrepeated precision) (hn : t.node? n = some d) (hm : t.node? m = some e) (hne : n ≠ m) :
    ¬Reorders (Step.Depends precision) (t.traceTo n) (t.traceTo m) :=
  hu.not_reorders ht (ht.walk_traceTo hn) (ht.walk_traceTo hm) hne

theorem singleton (s : ProgramState) :
    (SearchTree.singleton s : SearchTree ProgramState Step).Unrepeated precision :=
  fun _ _ _ _ _ _ _ hc => absurd hc not_edge_singleton

/-- Adding a child by a step that is new there repeats nothing. -/
theorem addChild {d : Node ProgramState Step} {s : ProgramState} (ht : t.Sound p)
    (hu : t.Unrepeated precision) (hn : t.node? n = some d) (hnew : t.IsNewAt precision n a) :
    (t.addChild n a s).2.Unrepeated precision := by
  have hextends : t.Extends (t.addChild n a s).2 := extends_addChild hn
  have hchild := edge_addChild (a := a) hn (s := s)
  have hold : ∀ {j b k}, (t.addChild n a s).2.Edge j b k → k ≠ ⟨t.size⟩ →
      t.Edge j b k ∧ ∃ e, t.node? k = some e := fun hedge hk => edge_of_addChild hn hedge hk
  generalize (t.addChild n a s).2 = t' at hextends hchild hold
  intro k b c a' c' v m hc hc' hlt hv hstart
  by_cases hm : m = ⟨t.size⟩
  · subst hm
    rcases List.eq_nil_or_concat v with rfl | ⟨v, z, rfl⟩
    · -- the new child itself
      cases hv
      obtain ⟨rfl, rfl⟩ := hc'.unique hchild
      obtain rfl : b = a' := by simpa using hstart.mem
      have hne : c ≠ ⟨t.size⟩ := fun heq => absurd (heq ▸ hlt) (Nat.lt_irrefl _)
      obtain ⟨d', hd', -⟩ := hnew k [] c (hold hc hne).1 (.nil k)
      cases hd'
    · -- a node above the new child
      rw [List.concat_eq_append] at hv hstart
      obtain ⟨j, hw, hlast⟩ := Walk.snoc_iff.1 hv
      obtain ⟨rfl, rfl⟩ := hlast.unique hchild
      obtain ⟨hw, e, he⟩ := ht.walk_of_extends hextends hn hw
      have hc' := (hextends.edge_iff he).1 hc'
      have hne : c ≠ ⟨t.size⟩ := by
        rintro rfl
        exact absurd (Nat.lt_trans hlt (index_lt_size he)) (Nat.lt_irrefl _)
      have hc := (hold hc hne).1
      rw [← List.cons_append] at hstart
      rcases hstart.of_snoc with hstart | ⟨rfl, hfree⟩
      · exact hu k b c a' c' v j hc hc' hlt hw hstart
      · obtain ⟨d', hd', hdepends⟩ := hnew k (a' :: v) c hc (.cons hc' hw)
        exact hfree d' hd' hdepends
  · -- nothing of it is new
    obtain ⟨j, z, hlast⟩ := Walk.exists_last hc' hv
    obtain ⟨-, e, he⟩ := hold hlast hm
    obtain ⟨hv, e', he'⟩ := ht.walk_of_extends hextends he hv
    have hne : c ≠ ⟨t.size⟩ := by
      rintro rfl
      exact absurd (Nat.lt_trans hlt (index_lt_size he')) (Nat.lt_irrefl _)
    exact hu k b c a' c' v m (hold hc hne).1 ((hextends.edge_iff he').1 hc') hlt hv hstart

/-- What the tree says besides its edges does not matter. -/
theorem congr {t' : SearchTree ProgramState Step} (hu : t.Unrepeated precision)
    (hedge : ∀ k a c, t'.Edge k a c ↔ t.Edge k a c) : t'.Unrepeated precision := by
  intro k b c a c' v m hc hc' hlt hv
  exact hu k b c a c' v m ((hedge _ _ _).1 hc) ((hedge _ _ _).1 hc') hlt
    (hv.map fun _ _ _ h => (hedge _ _ _).1 h)

end Unrepeated

end SearchTree
end Interleaving
