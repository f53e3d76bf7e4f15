import Interleaving.Proofs.Excursions

/-!
# The question for the end of a round settles

Once the question for the end of a round has been answered, nothing is left to do before a step is
offered at the current node, so asking again changes nothing (`Search.isEmpty_settles`). That holds
whatever the tree and the stack are, since a walk below a covering node comes back to the node that is
covered, with only locks released in the stack (`Ends.virtualExploration_relocks`).
-/

namespace Interleaving

variable {p : Program} {precision : Precision} {t : SearchTree ProgramState Step}
  {settings : Settings} {χ : Type} {x : Exploration Step χ} {n c : NodeId}
  {entry : SearchTree.Node ProgramState Step} {a : Step}

/-- A frame that is put on top leaves those below, apart from locks. -/
theorem Stacked.rests {s s' : SearchStack Step} (h : Stacked t s n entry s') : s.Rests s.size s' := by
  cases h with
  | root => exact (SearchStack.Rests.refl (Nat.le_refl _)).push
  | child => exact (SearchStack.Rests.of_relocks (.releaseAll s _)).push

namespace Ends

open Exploration

variable [ChoiceSource χ]

/-! ## Walks come back -/

section Walk

variable {limit realSize start depth : Nat} {roots : List NodeId} {root node : NodeId}

theorem push_rests : Yields (Exploration.push (p.context precision t settings) n limit) x
    fun _ x' => x.stack.Rests x.stack.size x'.stack := by
  refine push_stacked.imp fun isNew x' ⟨hrefused, hpushed⟩ => ?_
  cases isNew with
  | false =>
    rw [hrefused rfl]
    exact .refl (Nat.le_refl _)
  | true =>
    obtain ⟨entry, -, hstacked⟩ := hpushed rfl
    exact hstacked.rests

theorem enterVirtual_rests :
    Yields (Exploration.enterVirtual (p.context precision t settings) realSize start root node) x
      fun _ x' => x.stack.Rests x.stack.size x'.stack := by
  unfold Exploration.enterVirtual
  split
  · exact .pure (.refl (Nat.le_refl _))
  refine .bind (push_rests.imp fun isNew x₁ hrests => ?_)
  split
  · refine .bind (.get ?_)
    split
    · exact .bind (.modify (.pure hrests))
    · exact .pure hrests
  · exact .pure hrests

/-- A walk leaves the frames below its own, apart from locks. -/
theorem walkVirtual_rests (hstart : start ≤ x.stack.size) :
    Yields (Exploration.walkVirtual (p.context precision t settings) realSize depth roots root start
      node) x fun _ x' => x.stack.Rests start x'.stack := by
  induction depth generalizing roots root start node x with
  | zero => exact .throw trivial
  | succ depth ih =>
    unfold Exploration.walkVirtual
    refine .bind (.lookUp fun entry _ => .bind (.modify ?_))
    have hcut : x.stack.Prefix start (x.stack.unwindTo start entry.parent) := .unwindTo hstart
    refine .bind (enterVirtual_rests.imp fun below x₁ hx₁ => ?_)
    have hrests : x.stack.Rests start x₁.stack :=
      SearchStack.Rests.trans (.of_cut hcut) hx₁ hcut.size_le
    split
    swap
    · exact .pure hrests
    split
    · split
      swap
      · exact .pure hrests
      -- a walk within the walk starts on top of it, and is taken away again
      refine .bind (.get (.bind ((ih (Nat.le_refl _)).imp fun _ x₂ hx₂ => .modify ?_)))
      have hback := hx₂.trans (.of_cut (.truncate hx₂.size_le)) (Nat.le_refl _)
      exact hrests.trans hback hrests.size_le
    · exact forM (I := fun y => x.stack.Rests start y.stack) hrests fun c _ y hy =>
        (ih hy.size_le).imp fun _ y' hy' => hy.trans hy' (Nat.le_refl _)

theorem virtualExploration_relocks :
    Yields (Exploration.virtualExploration (p.context precision t settings) c) x fun _ x' =>
      x.stack.Relocks x'.stack := by
  unfold Exploration.virtualExploration
  refine .bind (.get (.bind ((walkVirtual_rests (Nat.le_refl _)).imp fun _ x₁ hrests => .modify ?_)))
  refine (hrests.trans (.of_cut (.truncate hrests.size_le)) (Nat.le_refl _)).relocks ?_
  show (x₁.stack.truncate x.stack.size).size = _
  rw [SearchStack.size_truncate, Nat.min_eq_left hrests.size_le]

end Walk

end Ends

/-! ## Searches -/

namespace Search

variable [ChoiceSource χ] [LawfulChoiceSource χ] {allowed : Precision → Prop}

/-- However a search has come about, once it has answered whether anything is left to explore, the stack
is empty, or nothing is left to do at the current node before a step is offered: the node is not subsumed,
it has not been expanded or has something to offer, and where edges of earlier rounds are taken again,
each of its children is marked as visited or reached by a step that is redundant there. To ask again, or
to take the current node, changes nothing then. At each moment of a session there is an answer. -/
theorem isEmpty_settles (p : Program) (precision : Precision) (s : Search ProgramState Step χ) :
    (∀ b s', explore (p.system precision) Exploration.isEmpty s = .ok b s' →
      explore (p.system precision) Exploration.isEmpty s' = .ok b s' ∧
      (b = true → s'.exploration.stack.size = 0) ∧
      (b = false → ∃ n entry, s'.exploration.stack.topNode? = some n ∧ s'.tree.node? n = some entry ∧
        entry.isSubsumed = false ∧
        (entry.expanded = false ∨ (s'.exploration.table.offerable entry.stateId).isEmpty = false) ∧
        (s'.settings.lazyReexploration = true → ∀ c ∈ entry.children, ∀ child a,
          s'.tree.node? c = some child → child.action = some a →
            s'.exploration.table.isVisited child.stateId ∨
              (s'.exploration.table.sleep entry.stateId).contains a) ∧
        explore (p.system precision) Exploration.remove s' = .ok n s')) ∧
    (Session p allowed s →
      ∃ b s', explore (p.system precision) Exploration.isEmpty s = .ok b s') := by
  constructor
  · intro b s' hanswer
    have hdone : Yields (explore (p.system precision) Exploration.isEmpty) s fun b s' =>
        ∃ x', s' = s.withExploration x' ∧ b = x'.stack.isEmpty ∧
          (∀ n, x'.stack.topNode? = some n → ∃ e, s.tree.node? n = some e) ∧
          x'.IsSettled p precision s.tree s.settings :=
      ends_explore ((Ends.isEmpty_done fun _ _ _ _ _ _ => Ends.virtualExploration_relocks).imp
        fun _ x' hx' => ⟨x', rfl, hx'⟩)
    obtain ⟨x', rfl, rfl, hstands, hsettled⟩ := hdone.of_ok hanswer
    refine ⟨?_, fun hempty => SearchStack.isEmpty_iff.1 hempty, fun hmore => ?_⟩
    · obtain ⟨_, y, hagain, rfl, rfl⟩ :=
        (Ends.isEmpty_settled (E := fun _ => False) hstands hsettled).exists_ok
      exact explore_eq_ok (s := s.withExploration y) hagain
    obtain ⟨n, htop⟩ := Option.ne_none_iff_exists'.1 fun hnone => Bool.eq_false_iff.1 hmore
      (SearchStack.isEmpty_iff.2 (SearchStack.topNode?_eq_none_iff.1 hnone))
    obtain ⟨entry, hn⟩ := hstands n htop
    obtain ⟨hsubsumed, hoffers, -⟩ := hsettled n entry htop hn
    refine ⟨n, entry, htop, hn, hsubsumed, ?_, fun hlazy c hc child a hchild haction =>
      hsettled.visited_or_redundant hlazy htop hn hc hchild haction, ?_⟩
    · cases hexpanded : entry.expanded with
      | false => exact .inl rfl
      | true => exact .inr (hoffers hexpanded)
    · obtain ⟨_, y, htake, rfl, rfl⟩ :=
        (Ends.remove_settled (E := fun _ => False) hstands hsettled htop).exists_ok
      exact explore_eq_ok (s := s.withExploration y) htake
  · intro hsession
    have h := hsession.isOrderly
    obtain ⟨b, x', hanswer, -⟩ :=
      (Orderly.isEmpty_leads h.sound h.orderly h.closed).exists_ok
    exact ⟨b, _, explore_eq_ok hanswer⟩

/-- Where node 2 is covered by the root, the walk below the root looks into node 1. Then node 2 is taken
off the stack, and the edge to node 1 is taken again: there the search has settled. -/
theorem isEmpty_settles_ancestorCovered : ∃ s s' : Search ProgramState Step Seeded,
    Session rivalWriters (· = none) s ∧
    explore (rivalWriters.system none) Exploration.isEmpty s = .ok false s' ∧
    s'.exploration.counters.virtualPushes = 1 ∧ s'.exploration.counters.lazyReplays = 1 ∧
    explore (rivalWriters.system none) Exploration.isEmpty s' = .ok false s' ∧
    explore (rivalWriters.system none) Exploration.remove s' = .ok ⟨1⟩ s' := by
  have heval : ancestorCovered.any (fun s => endedWith (fun b s' => b == false &&
      s'.exploration.counters.virtualPushes == 1 && s'.exploration.counters.lazyReplays == 1 &&
      s'.exploration.stack.topNode? == some ⟨1⟩)
        (explore (rivalWriters.system none) Exploration.isEmpty s)) = true := by decide +kernel
  obtain ⟨s, hs, heval⟩ := (Option.any_eq_true _ _).1 heval
  have hsession := session_retread hs
  obtain ⟨hsettles, hanswers⟩ : _ ∧ (Session rivalWriters (· = none) s → _) :=
    isEmpty_settles rivalWriters none s
  obtain ⟨b, s', hanswer⟩ := hanswers hsession
  rw [hanswer] at heval
  simp only [endedWith, Bool.and_eq_true, beq_iff_eq] at heval
  obtain ⟨⟨⟨rfl, hwalk⟩, hreplay⟩, htop⟩ := heval
  obtain ⟨hagain, -, hmore⟩ := hsettles false s' hanswer
  obtain ⟨n, _, hn, -, -, -, -, htake⟩ := hmore rfl
  obtain rfl := Option.some.inj (htop.symm.trans hn)
  exact ⟨s, s', hsession, hanswer, hwalk, hreplay, hagain, htake⟩

end Search

end Interleaving
