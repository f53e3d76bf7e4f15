import Interleaving.Proofs.Loops

/-!
# Calls of an exploration

A client of an exploration adds nodes, asks whether anything is left, takes the current node, and asks
for the next step (`Exploration.Call`). Whatever it asks for, if the exploration is in order the call
comes to an answer or reports an error, and all that it has done by then is made up of moves
(`Orderly.settles`).
-/

namespace Interleaving

variable {p : Program} {precision : Precision} {t : SearchTree ProgramState Step}
  {settings : Settings} {χ : Type} {x x' y : Exploration Step χ} {n m c : NodeId}
  {entry : SearchTree.Node ProgramState Step} {a : Step}

/-! ## Answers and errors -/

/-- The operation ends with an answer or reports an error, in a state that satisfies `Q`. -/
def Settles {ε σ β : Type} (op : EStateM (Halt ε) σ β) (s : σ) (Q : σ → Prop) : Prop :=
  match op s with
  | .ok _ s' => Q s'
  | .error (.error _) s' => Q s'
  | .error _ _ => False

namespace Settles

variable {ε σ β γ : Type} {op : EStateM (Halt ε) σ β} {s : σ} {Q Q' : σ → Prop}

theorem of_succeeds (h : Succeeds op s fun _ => Q) : Settles op s Q := by
  obtain ⟨b, s', hop, hQ⟩ := h.exists_ok
  unfold Settles
  rwa [hop]

theorem throw {e : ExploreError ε} (h : Q s) :
    Settles (throw (.error e) : EStateM (Halt ε) σ β) s Q := h

theorem bind {f : β → EStateM (Halt ε) σ γ}
    (h : Succeeds op s fun b s' => Settles (f b) s' Q) : Settles (op >>= f) s Q := by
  obtain ⟨b, s', hop, hf⟩ := h.exists_ok
  show match EStateM.bind op f s with
    | .ok _ s' => Q s'
    | .error (.error _) s' => Q s'
    | .error _ _ => False
  unfold EStateM.bind
  rwa [hop]

theorem map {g : β → γ} (h : Settles op s Q) : Settles (do let b ← op; pure (g b)) s Q := by
  unfold Settles at h ⊢
  show match EStateM.bind op (fun b => EStateM.pure (g b)) s with
    | .ok _ s' => Q s'
    | .error (.error _) s' => Q s'
    | .error _ _ => False
  unfold EStateM.bind
  cases hop : op s with
  | ok b s' =>
    rw [hop] at h
    exact h
  | error halt s' =>
    rw [hop] at h
    cases halt <;> exact h

theorem imp (h : Settles op s Q) (hQ : ∀ s', Q s' → Q' s') : Settles op s Q' := by
  unfold Settles at h ⊢
  cases hop : op s with
  | ok b s' =>
    rw [hop] at h
    exact hQ s' h
  | error halt s' =>
    rw [hop] at h
    cases halt with
    | error e => exact hQ s' h
    | defect => exact h.elim
    | diverged => exact h.elim

theorem of_ok (h : Settles op s Q) {b : β} {s' : σ} (hop : op s = .ok b s') : Q s' := by
  unfold Settles at h
  rwa [hop] at h

/-- An operation that comes to an answer or an error of its own ends there. -/
theorem endsIn (h : Settles op s Q) : EndsIn op s Q := by
  unfold Settles at h
  unfold EndsIn Ends
  cases hop : op s with
  | ok b s' =>
    rw [hop] at h
    exact h
  | error halt s' =>
    rw [hop] at h
    cases halt with
    | error e => exact h
    | defect => exact h.elim
    | diverged => exact h.elim

/-- The state in which the operation ends. -/
theorem of_ends (h : Settles op s Q) {s' : σ} (hends : Ends op s (fun _ s₁ => s₁ = s') (· = s')) :
    Q s' := h.endsIn.of_ends hends

end Settles

/-! ## Calls -/

namespace Exploration

/-- What a client may ask for. -/
inductive Call where
  | add (node : NodeId)
  | addAll (nodes : List NodeId)
  | isEmpty
  | remove
  | nextAction (state : StateId)

namespace Call

/-- The nodes that are handed over. -/
def nodes : Call → List NodeId
  | add n => [n]
  | addAll ns => ns
  | _ => []

/-- Carries out a call. The answer is the step that is offered, if any. -/
def perform {σ α ε : Type} [Action α] [ChoiceSource χ] (ctx : Context σ α ε) :
    Call → ExploreM α χ ε (Option α)
  | add n => do let _ ← Exploration.add ctx n; pure none
  | addAll ns => do Exploration.addAll ctx ns; pure none
  | isEmpty => do let _ ← Exploration.isEmpty ctx; pure none
  | remove => do let _ ← Exploration.remove ctx; pure none
  | nextAction s => Exploration.nextAction ctx s

end Call

end Exploration

/-- What additions, the question for the end of a round and the offer of a step come to, every call
comes to. -/
theorem Exploration.Call.settles [ChoiceSource χ] {ctx : Context ProgramState Step Empty}
    {call : Call} {Q : Exploration Step χ → Prop} (hx : Q x)
    (hadd : ∀ n ∈ call.nodes, Settles (Exploration.add ctx n) x Q)
    (hempty : Succeeds (Exploration.isEmpty ctx) x fun _ => Q)
    (hnext : ∀ s, Settles (Exploration.nextAction ctx s) x Q) : Settles (call.perform ctx) x Q := by
  cases call with
  | add n => exact (hadd n (List.mem_singleton_self n)).map
  | addAll ns =>
    refine .map ?_
    rcases ns with - | ⟨n, - | ⟨m, ns⟩⟩
    · exact .of_succeeds (.pure hx)
    · exact (hadd n (List.mem_singleton_self n)).map
    · exact .throw hx
  | isEmpty => exact .of_succeeds (.bind (hempty.imp fun _ x' hx' => .pure hx'))
  | remove =>
    refine .map (.bind (hempty.imp fun b x' hx' => ?_))
    cases b with
    | true => exact .throw hx'
    | false =>
      refine .bind (.get ?_)
      split
      · exact .of_succeeds (.pure hx')
      · exact .throw hx'
  | nextAction s => exact hnext s

/-! ## Moves up to an error -/

namespace Ends

open Exploration

/-- Every node hangs below the root. -/
theorem topmost_ends {E : Exploration Step χ → Prop} {steps : Nat} (ht : t.Sound p)
    (hn : t.node? n = some entry) (hsteps : n.index < steps) :
    Ends (topmost (p.context precision t settings) steps n) x
      (fun r x' => r = SearchTree.root ∧ x' = x) E := by
  induction steps generalizing n entry with
  | zero => omega
  | succ steps ih =>
    refine .bind (.lookUp_of_node? hn ?_)
    cases hparent : entry.parent with
    | none => exact .pure ⟨ht.orphan n entry hn hparent, rfl⟩
    | some m =>
      obtain ⟨d, -, hd, hlt, -⟩ := ht.edge n entry m hn hparent
      exact ih hd (by omega)

variable [ChoiceSource χ]

/-- With an empty stack, the root is marked and pushed. -/
theorem add_root {Q : Bool → Exploration Step χ → Prop} {E : Exploration Step χ → Prop}
    (ht : t.Sound p) (hempty : x.stack.size = 0) (hn : t.node? n = some entry)
    (hpush : Ends (Exploration.push (p.context precision t settings) SearchTree.root x.stack.size)
      { x with
        table := x.table.markVisited ⟨0⟩
        counters := { x.counters with rounds := x.counters.rounds + 1 } } Q E) :
    Ends (Exploration.add (p.context precision t settings) n) x Q E := by
  obtain ⟨root, hroot, -⟩ := ht.root
  have hid : root.stateId = ⟨0⟩ := (ht.identity _ _ hroot).1
  unfold Exploration.add
  refine .bind (.get ?_)
  rw [SearchStack.topNode?_eq_none_iff.2 hempty]
  have hsteps : n.index < t.size + 1 := Nat.lt_succ_of_lt (SearchTree.index_lt_size hn)
  refine .bind ((topmost_ends ht hn hsteps).imp ?_)
  rintro _ _ ⟨rfl, rfl⟩
  refine .bind (.modify (.bind (.pure (.bind (.lookUp_of_node? hroot (.bind (.modify
    (.bind (.get ?_)))))))))
  rw [hid]
  exact hpush

/-- On top of its parent, a node is marked and pushed. -/
theorem add_child {Q : Bool → Exploration Step χ → Prop} {E : Exploration Step χ → Prop}
    (htop : x.stack.topNode? = some m) (hn : t.node? n = some entry) (hparent : entry.parent = some m)
    (hpush : Ends (Exploration.push (p.context precision t settings) n x.stack.size)
      { x with table := x.table.markVisited entry.stateId } Q E) :
    Ends (Exploration.add (p.context precision t settings) n) x Q E := by
  unfold Exploration.add
  refine .bind (.get ?_)
  rw [htop]
  refine .bind (.lookUp_of_node? hn ?_)
  rw [if_pos hparent]
  exact .bind (.pure (.bind (.lookUp_of_node? hn (.bind (.modify (.bind (.get hpush)))))))

/-- A push for the root requires everything that is enabled there. -/
theorem pushRoot_ends {E : Exploration Step χ → Prop} {limit : Nat} (ht : t.Sound p) :
    Ends (Exploration.push (p.context precision t settings) SearchTree.root limit) x
      (fun isNew x' => isNew = true ∧ x'.stack = x.stack.push (.root SearchTree.root) ∧
        x'.table = x.table.reset ⟨0⟩ { backtrack := p.enabledSet p.initialState } ∧
        x'.counters.account = x.counters.account.afterPush true true) E := by
  obtain ⟨root, hroot, -, haction, hstate, -⟩ := ht.root
  have hid : root.stateId = ⟨0⟩ := (ht.identity _ _ hroot).1
  unfold Exploration.push
  refine .bind (.lookUp_of_node? hroot ?_)
  rw [haction]
  refine .bind (.enabledAt (.bind (.modify (.bind (.modify (.bind (.modify (.pure ?_))))))))
  rw [hid, hstate]
  exact ⟨rfl, rfl, rfl, rfl⟩

/-- With an empty stack, a round starts at the root. -/
theorem addRoot_ends {E : Exploration Step χ → Prop} (ht : t.Sound p) (hempty : x.stack.size = 0)
    (hn : t.node? n = some entry) :
    Ends (Exploration.add (p.context precision t settings) n) x (fun isNew x' => isNew = true ∧
      x'.stack = x.stack.push (.root SearchTree.root) ∧
      x'.table = (x.table.markVisited ⟨0⟩).reset ⟨0⟩ { backtrack := p.enabledSet p.initialState } ∧
      x'.counters.account = x.counters.account.afterPush true true) E :=
  add_root ht hempty hn (pushRoot_ends ht)

omit [ChoiceSource χ] in
/-- The start of a round is made up of moves. -/
theorem addRoot_moves (hempty : x.stack.size = 0)
    (hstack : x'.stack = x.stack.push (.root SearchTree.root))
    (htable : x'.table = (x.table.markVisited ⟨0⟩).reset ⟨0⟩ { backtrack := p.enabledSet p.initialState })
    (haccount : x'.counters.account = x.counters.account.afterPush true true) :
    Trail (Exploration.Move p t) x [SearchTree.root] x' := by
  have hpushes : x'.counters.pushes = x.counters.pushes + 1 := by
    simpa [Counters.afterPush] using congrArg Counters.pushes haccount
  let y : Exploration Step χ := { x with table := x.table.markVisited ⟨0⟩ }
  have hmark : Exploration.Move p t x [] y := .keep rfl (fun _ => rfl) rfl
  exact (Trail.single hmark).tail (.start hempty hstack htable hpushes)

/-- With an empty stack a round starts; otherwise the node is a child of the current one, or refused. -/
theorem add_settles {Q : Exploration Step χ → Prop} (hn : t.node? n = some entry) (hx : Q x)
    (hroot : x.stack.size = 0 →
      Succeeds (Exploration.add (p.context precision t settings) n) x fun _ => Q)
    (hchild : ∀ m, x.stack.topNode? = some m → entry.parent = some m →
      Succeeds (Exploration.add (p.context precision t settings) n) x fun _ => Q) :
    Settles (Exploration.add (p.context precision t settings) n) x Q := by
  cases htop : x.stack.topNode? with
  | none => exact .of_succeeds (hroot (SearchStack.topNode?_eq_none_iff.1 htop))
  | some m =>
    by_cases hparent : entry.parent = some m
    · exact .of_succeeds (hchild m htop hparent)
    · unfold Exploration.add
      refine .bind (.get ?_)
      rw [htop]
      refine .bind (.lookUp_of_node? hn ?_)
      rw [if_neg hparent]
      exact .throw hx

/-- A step is offered at the state of the current node only. -/
theorem nextAction_settles {Q : Exploration Step χ → Prop} {s : StateId} (hstands : x.stack.StandsIn t)
    (hx : Q x)
    (htop : ∀ n entry, x.stack.topNode? = some n → t.node? n = some entry →
      Succeeds (Exploration.nextAction (p.context precision t settings) entry.stateId) x fun _ => Q) :
    Settles (Exploration.nextAction (p.context precision t settings) s) x Q := by
  cases hcurrent : x.stack.topNode? with
  | none =>
    unfold Exploration.nextAction
    refine .bind (.get ?_)
    rw [hcurrent]
    exact .throw hx
  | some n =>
    obtain ⟨entry, hn⟩ := hstands.of_top hcurrent
    by_cases hs : entry.stateId = s
    · exact hs ▸ .of_succeeds (htop n entry hcurrent hn)
    · unfold Exploration.nextAction
      refine .bind (.get ?_)
      rw [hcurrent]
      refine .bind (.lookUp_of_node? hn ?_)
      rw [if_pos hs]
      exact .throw hx

variable [LawfulChoiceSource χ]

/-- A push marks no state. -/
theorem pushStep_visited {limit : Nat} (ht : t.Sound p) (h : Orderly p t x)
    (hn : t.node? n = some entry) (hsize : 0 < x.stack.size) (ha : p.HasStep a) :
    Yields (Exploration.pushStep (p.context precision t settings) n entry a limit) x fun _ x' =>
      ∀ s, x'.table.isVisited s = x.table.isVisited s := by
  obtain ⟨last, hlast⟩ := SearchStack.exists_top hsize
  refine (pushStep_widens ht hn hlast h.genuine ha).imp ?_
  rintro isNew x' ⟨scan, x₁, before, hwidens, -, hpushed⟩ s
  rw [← hwidens.visited]
  cases hpushed with
  | refused _ _ htable =>
    rcases htable with htable | ⟨-, htable⟩
    · rw [htable]
    · rw [htable]
      rfl
  | visited _ _ hinstalled => rw [hinstalled.table]; rfl
  | entered _ _ _ _ hinstalled => rw [hinstalled.table]; rfl

/-- A push for a node with a parent is made up of moves, and marks no state. It is logged if the node is
explored as a child of the current one. -/
theorem push_moves {limit : Nat} (ht : t.Sound p) (h : Orderly p t x) (hn : t.node? n = some entry)
    (hparent : entry.parent = some m) (hsize : 0 < x.stack.size) :
    Succeeds (Exploration.push (p.context precision t settings) n limit) x fun isNew x' =>
      Trail (Exploration.Move p t) x
        (if isNew = true ∧ x.stack.size ≤ limit ∧ x.stack.topNode? = some m then [n] else []) x' ∧
      (∀ s, x'.table.isVisited s = x.table.isVisited s) ∧ x.stack.Rests x.stack.size x'.stack ∧
      x'.stack.size = x.stack.size + isNew.toNat ∧ (isNew = true → x'.stack.topNode? = some n) ∧
      (isNew = false → x.stack.Holds n) := by
  obtain ⟨-, a, -, -, haction, -⟩ := ht.edge n entry m hn hparent
  have hedge : t.Edge m a n := SearchTree.edge_iff.2 ⟨entry, hn, hparent, haction⟩
  unfold Exploration.push
  refine .bind (.lookUp_of_node? hn ?_)
  rw [haction]
  refine ((pushStep_moves ht h hn haction hsize).both
    (pushStep_visited ht h hn hsize (ht.canRun hedge).hasStep)).imp fun isNew x' hx' => ?_
  obtain ⟨⟨htrail, hrests, hsize', htop, hrefused⟩, hvisited⟩ := hx'
  rw [hparent] at htrail
  exact ⟨htrail, hvisited, hrests, hsize', htop, hrefused⟩

/-- A child of the current node is added. It is logged if it was not on the stack. -/
theorem addChild_moves (ht : t.Sound p) (h : Orderly p t x) (htop : x.stack.topNode? = some m)
    (hn : t.node? n = some entry) (hparent : entry.parent = some m) :
    Succeeds (Exploration.add (p.context precision t settings) n) x fun isNew x' =>
      Trail (Exploration.Move p t) x (if isNew = true then [n] else []) x' ∧ x.Marks n x' ∧
      x.stack.Rests x.stack.size x'.stack ∧ x'.stack.size = x.stack.size + isNew.toNat ∧
      (isNew = true → x'.stack.topNode? = some n) ∧ (isNew = false → x.stack.Holds n) := by
  have hsize : 0 < x.stack.size := Nat.pos_of_ne_zero (SearchStack.size_ne_zero htop)
  let y : Exploration Step χ := { x with table := x.table.markVisited entry.stateId }
  -- the mark of the node counts as a move that changes nothing
  have hmark : Exploration.Move p t x [] y := .keep rfl (fun _ => rfl) rfl
  refine add_child htop hn hparent
    ((push_moves ht (hmark.orderly ht h) hn hparent hsize).imp fun isNew x' hx' => ?_)
  obtain ⟨htrail, hvisited, hrests, hsize', htop'⟩ := hx'
  have hreal : (isNew = true ∧ y.stack.size ≤ x.stack.size ∧ y.stack.topNode? = some m) ↔
      isNew = true := and_iff_left ⟨Nat.le_refl _, htop⟩
  refine ⟨?_, fun s => ?_, hrests, hsize', htop'⟩
  · have hlog := (Trail.single hmark).trans htrail
    rw [List.nil_append] at hlog
    simpa only [hreal] using hlog
  · rw [hvisited, DecorationTable.isVisited_markVisited, (ht.identity n entry hn).1, eq_comm]

/-- A child is pushed in a walk. It marks nothing, and is logged if it is really entered. -/
theorem pushChild_moves {limit : Nat} (ht : t.Sound p) (h : Orderly p t x)
    (hm : t.node? m = some entry) (hc : c ∈ entry.children) (hsize : 0 < x.stack.size) :
    Succeeds (Exploration.push (p.context precision t settings) c limit) x fun isNew x' =>
      Trail (Exploration.Move p t) x
        (if isNew = true ∧ x.stack.size ≤ limit ∧ x.stack.topNode? = some m then [c] else []) x' ∧
      (∀ s, x'.table.isVisited s = x.table.isVisited s) ∧ x.stack.Rests x.stack.size x'.stack ∧
      (isNew = true → x'.stack.topNode? = some c) := by
  obtain ⟨d, hd, hparent⟩ := SearchTree.parent_eq_some_iff.1 (ht.child m entry hm c hc)
  refine (push_moves ht h hd hparent hsize).imp fun isNew x' hx' => ?_
  obtain ⟨htrail, hvisited, hrests, -, htop, -⟩ := hx'
  exact ⟨htrail, hvisited, hrests, htop⟩

end Ends

/-! ## Calls made up of moves -/

/-- Some moves lead from one state of an exploration to another one. -/
def Exploration.Leads (p : Program) (t : SearchTree ProgramState Step) (x x' : Exploration Step χ) :
    Prop :=
  ∃ l, Trail (Exploration.Move p t) x l x'

namespace Exploration.Leads

theorem refl (x : Exploration Step χ) : x.Leads p t x := ⟨[], .refl⟩

theorem trail {l : List NodeId} (h : x.Leads p t y) (h' : Trail (Exploration.Move p t) y l x') :
    x.Leads p t x' := by
  obtain ⟨k, hk⟩ := h
  exact ⟨k ++ l, hk.trans h'⟩

theorem move {l : List NodeId} (h : x.Leads p t y) (h' : Exploration.Move p t y l x') :
    x.Leads p t x' := h.trail (.single h')

theorem orderly (ht : t.Sound p) (hx : Orderly p t x) (h : x.Leads p t x') : Orderly p t x' := by
  obtain ⟨l, hl⟩ := h
  exact Exploration.Move.orderly_trail ht hx hl

end Exploration.Leads

namespace Orderly

open Exploration

variable [ChoiceSource χ] [LawfulChoiceSource χ]
variable (ht : t.Sound p) (h : Orderly p t x)
include ht h

omit [LawfulChoiceSource χ] in
/-- An edge of an earlier round is taken again: its step becomes redundant, and its child is added. -/
theorem replayEdge {Q : Bool → Exploration Step χ → Prop} (htop : x.stack.topNode? = some n)
    (hn : t.node? n = some entry)
    (hedge : (c, a) ∈ replayableEdges (p.context precision t settings) x.table entry)
    (hadd : ∀ y, Trail (Exploration.Move p t) x [] y → y.stack = x.stack →
      y.counters.account = x.counters.account.afterReplay →
      (∀ s, y.table.isVisited s = x.table.isVisited s) →
      (y.table.sleep ⟨n.index⟩).hasKey (Action.key a) → t.Edge n a c →
      Succeeds (Exploration.add (p.context precision t settings) c) y Q) :
    Succeeds (do
      Exploration.recordTaken entry.stateId (p.enabledSet entry.state) a
      Exploration.count fun c => { c with lazyReplays := c.lazyReplays + 1 }
      Exploration.add (p.context precision t settings) c) x Q := by
  obtain ⟨-, hedge, -, hawake⟩ := Ends.of_mem_replayableEdges ht hn hedge
  have hrun := ht.canRun hedge
  rw [SearchTree.state_eq hn] at hrun
  rw [← (ht.identity n entry hn).1] at hawake
  refine .bind ((Ends.recordTaken_moves h htop hn hrun hawake).imp fun _ x₁ hx₁ => ?_)
  obtain ⟨htake, hstack, htable, hcounters⟩ := hx₁
  refine .bind (.modify (hadd _ ((Trail.single htake).tail (.keep rfl (fun _ => rfl) rfl)) hstack ?_ ?_ ?_
    hedge))
  · rw [← hcounters]
    rfl
  · intro s
    show x₁.table.isVisited s = _
    rw [htable]
    rfl
  · show (x₁.table.sleep _).hasKey _
    rw [DecorationTable.sleep, htable, (ht.identity n entry hn).1, DecorationTable.get_update,
      if_pos rfl]
    exact Keyed.hasKey_insert.2 (.inr rfl)

/-- Edges of earlier rounds are moves. -/
theorem replayEdge_leads (hy : x.Leads p t y) (htop : y.stack.topNode? = some n)
    (hn : t.node? n = some entry)
    (hedge : (c, a) ∈ replayableEdges (p.context precision t settings) y.table entry) :
    Succeeds (do
      Exploration.recordTaken entry.stateId (p.enabledSet entry.state) a
      Exploration.count fun c => { c with lazyReplays := c.lazyReplays + 1 }
      Exploration.add (p.context precision t settings) c) y fun _ y' =>
        x.Leads p t y' ∧ y.Marks c y' ∧ y'.stack.size ≤ y.stack.size + 1 := by
  refine (hy.orderly ht h).replayEdge ht htop hn hedge fun y₁ htrail hstack _ hvisited _ hedge => ?_
  have hy₁ := hy.trail htrail
  obtain ⟨child, hchild, hparent⟩ := SearchTree.parent_eq_some_iff.1 hedge.1
  refine (Ends.addChild_moves ht (hy₁.orderly ht h) (hstack ▸ htop) hchild hparent).imp
    fun isNew y' hy' => ?_
  obtain ⟨htrail', hmarks, -, hsize, -⟩ := hy'
  refine ⟨hy₁.trail htrail', fun s => ?_, ?_⟩
  · rw [hmarks, hvisited]
  · rw [hsize, hstack]
    exact Nat.add_le_add_left (Bool.toNat_le isNew) _

/-- The walk below a covering node is made up of moves, and leaves the stack as it was apart from
locks. -/
theorem virtualExploration_leads (hclosed : t.Closed) (htop : x.stack.topNode? = some n)
    (hn : t.node? n = some entry) (hcovering : entry.covering = some c) :
    Succeeds (virtualExploration (p.context precision t settings) c) x fun _ x' =>
      x.Leads p t x' ∧ x.stack.Relocks x'.stack := by
  refine Ends.virtualExploration_ends (I := fun y => x.Leads p t y) ⟨?_, ?_, ?_⟩ ht hclosed (.refl x)
    (Nat.zero_le _) htop hn hcovering
  · exact fun y y' hy hstack htable haccount =>
      hy.move (.keep hstack (fun s => by rw [htable]) (Counters.SameFrames.of_account haccount).pushes)
  · exact fun y stack hy hcut => hy.move (.cut hcut rfl rfl)
  · intro y start m e c hy _ hstart hcovered _ hm _ hc
    have hsize := Nat.lt_of_lt_of_le hcovered.1 hstart
    refine (Ends.pushChild_moves ht (hy.orderly ht h) hm hc hsize).imp fun isNew y' hy' => ?_
    obtain ⟨htrail, -, hrests, htop⟩ := hy'
    exact ⟨hy.trail htrail, hrests, htop⟩

section Preserves

variable {J : Exploration Step χ → Prop}
  (hkeep : ∀ y y', J y → Orderly p t y' → y'.stack = y.stack → y'.table = y.table →
    y'.counters.account = y.counters.account → J y')
  (hedge : ∀ y n e c a, J y → Orderly p t y → y.stack.topNode? = some n → t.node? n = some e →
    (c, a) ∈ replayableEdges (p.context precision t settings) y.table e →
    Yields (do
      Exploration.recordTaken e.stateId (p.enabledSet e.state) a
      Exploration.count fun c => { c with lazyReplays := c.lazyReplays + 1 }
      Exploration.add (p.context precision t settings) c) y fun _ => J)

include hkeep in
omit [ChoiceSource χ] [LawfulChoiceSource χ] in
/-- What changes neither the stack nor the sets is a move that keeps `J`. -/
theorem keep_preserves {y y' : Exploration Step χ} (hy : x.Leads p t y ∧ J y)
    (hstack : y'.stack = y.stack) (htable : y'.table = y.table)
    (haccount : y'.counters.account = y.counters.account) : x.Leads p t y' ∧ J y' := by
  have hy' : x.Leads p t y' := hy.1.move
    (.keep hstack (fun s => by rw [htable]) (Counters.SameFrames.of_account haccount).pushes)
  exact ⟨hy', hkeep y y' hy.2 (hy'.orderly ht h) hstack htable haccount⟩

include hedge in
/-- An edge of an earlier round is taken by moves, and `J` is kept. -/
theorem replayEdge_preserves {y : Exploration Step χ} (hy : x.Leads p t y ∧ J y)
    (htop : y.stack.topNode? = some n) (hn : t.node? n = some entry)
    (hmem : (c, a) ∈ replayableEdges (p.context precision t settings) y.table entry) :
    Succeeds (do
      Exploration.recordTaken entry.stateId (p.enabledSet entry.state) a
      Exploration.count fun c => { c with lazyReplays := c.lazyReplays + 1 }
      Exploration.add (p.context precision t settings) c) y fun _ y' =>
        (x.Leads p t y' ∧ J y') ∧ y.Marks c y' ∧ y'.stack.size ≤ y.stack.size + 1 :=
  ((h.replayEdge_leads ht hy.1 htop hn hmem).both
    (hedge y n entry c a hy.2 (hy.1.orderly ht h) htop hn hmem)).imp
    fun _ _ ⟨⟨hy', hmarks⟩, hJy'⟩ => ⟨⟨hy', hJy'⟩, hmarks⟩

include hkeep hedge in
/-- What a walk below a covering node and an edge of an earlier round preserve is preserved by all that is
done before any frame is popped. It is made up of moves. -/
theorem prepare_preserves (hclosed : t.Closed) (hJ : J x) (htop : x.stack.topNode? = some n)
    (hn : t.node? n = some entry)
    (hwalk : ∀ c, entry.covering = some c →
      Yields (virtualExploration (p.context precision t settings) c) x fun _ => J) :
    Succeeds (prepare (p.context precision t settings) entry) x fun _ y => x.Leads p t y ∧ J y := by
  refine Ends.prepare_ends (I := fun y => x.Leads p t y ∧ J y)
    (fun _ _ => h.keep_preserves ht hkeep) (fun _ _ _ _ _ => h.replayEdge_preserves ht hedge) ht
    ⟨.refl x, hJ⟩ (fun y hy => (hy.1.orderly ht h).stands) fun c hcovering => ?_
  exact ((h.virtualExploration_leads ht hclosed htop hn hcovering).both (hwalk c hcovering)).imp
    fun _ y ⟨⟨hy, _⟩, hJy⟩ => ⟨hy, hJy⟩

variable (hpop : ∀ y n e, J y → Orderly p t y → y.stack.topNode? = some n → t.node? n = some e →
    (e.isSubsumed || (e.expanded && (y.table.offerable e.stateId).isEmpty)) = true →
    Yields (Exploration.popFrame (p.context precision t settings)) y fun _ => J)

include hkeep hedge hpop in
/-- What holds before the first pop, and is preserved by edges of earlier rounds and by pops, holds when
the question for the end of a round has been answered. -/
theorem isEmpty_ends (hclosed : t.Closed) (hnone : x.stack.topNode? = none → J x)
    (hprepare : ∀ n e, x.stack.topNode? = some n → t.node? n = some e →
      Yields (prepare (p.context precision t settings) e) x fun _ => J) :
    Succeeds (Exploration.isEmpty (p.context precision t settings)) x fun b x' =>
      (x.Leads p t x' ∧ J x') ∧ (b = true ↔ x'.stack.size = 0) ∧
        x'.IsSettled p precision t settings := by
  refine Ends.isEmpty_ends (I := fun y => x.Leads p t y ∧ J y)
    (fun _ _ => h.keep_preserves ht hkeep) (fun _ _ _ _ _ => h.replayEdge_preserves ht hedge) ?_ ht
    h.stands (fun y hy => (hy.1.orderly ht h).stands) (fun hempty => ⟨.refl x, hnone hempty⟩)
    (fun n e htop hn => ?_) fun n e c htop hn hcovering => ?_
  · rintro y n e ⟨hy, hJy⟩ htop hn hexhausted
    have hy' := hy.orderly ht h
    refine ((Ends.popFrame_moves hy').both (hpop y n e hJy hy' htop hn hexhausted)).imp
      fun _ y' ⟨⟨htrail, hpopped⟩, hJy'⟩ => ⟨⟨hy.trail htrail, hJy'⟩, ?_⟩
    exact ⟨hpopped.size_lt (SearchStack.size_ne_zero htop), hpopped.isVisited_eq⟩
  · have hleads : Succeeds (prepare (p.context precision t settings) e) x fun _ y =>
        x.Leads p t y ∧ True :=
      h.prepare_preserves ht (J := fun _ => True) (fun _ _ _ _ _ _ _ => trivial)
        (fun _ _ _ _ _ _ _ _ _ _ => .any) hclosed trivial htop hn fun _ _ => .any
    exact (hleads.both (hprepare n e htop hn)).imp fun _ y ⟨⟨hy, _⟩, hJy⟩ => ⟨hy, hJy⟩
  · exact (h.virtualExploration_leads ht hclosed htop hn hcovering).yields.imp fun _ y hy => hy.2

end Preserves

/-- What a walk below a covering node, an edge of an earlier round and a pop preserve, the question for
the end of a round preserves. It is made up of moves. -/
theorem isEmpty_preserves {J : Exploration Step χ → Prop} (hclosed : t.Closed) (hJ : J x)
    (hkeep : ∀ y y', J y → Orderly p t y' → y'.stack = y.stack → y'.table = y.table →
      y'.counters.account = y.counters.account → J y')
    (hwalk : ∀ n e c, x.stack.topNode? = some n → t.node? n = some e → e.covering = some c →
      Yields (virtualExploration (p.context precision t settings) c) x fun _ => J)
    (hedge : ∀ y n e c a, J y → Orderly p t y → y.stack.topNode? = some n → t.node? n = some e →
      (c, a) ∈ replayableEdges (p.context precision t settings) y.table e →
      Yields (do
        Exploration.recordTaken e.stateId (p.enabledSet e.state) a
        Exploration.count fun c => { c with lazyReplays := c.lazyReplays + 1 }
        Exploration.add (p.context precision t settings) c) y fun _ => J)
    (hpop : ∀ y n, J y → Orderly p t y → y.stack.topNode? = some n →
      Yields (Exploration.popFrame (p.context precision t settings)) y fun _ => J) :
    Succeeds (Exploration.isEmpty (p.context precision t settings)) x fun b x' =>
      (x.Leads p t x' ∧ J x') ∧ (b = true ↔ x'.stack.size = 0) ∧
        x'.IsSettled p precision t settings :=
  h.isEmpty_ends ht hkeep hedge (fun y n _ hy hy' htop _ _ => hpop y n hy hy' htop) hclosed (fun _ => hJ)
    fun n e htop hn =>
    (h.prepare_preserves ht hkeep hedge hclosed hJ htop hn fun c hc =>
      hwalk n e c htop hn hc).yields.imp fun _ _ hy => hy.2

/-- The question for the end of a round is made up of moves. -/
theorem isEmpty_leads (hclosed : t.Closed) :
    Succeeds (Exploration.isEmpty (p.context precision t settings)) x fun b x' => x.Leads p t x' ∧
      (b = true ↔ x'.stack.size = 0) ∧ x'.IsSettled p precision t settings := by
  refine (h.isEmpty_preserves (J := fun _ => True) ht hclosed trivial
    (fun _ _ _ _ _ _ _ => trivial) (fun _ _ _ _ _ _ => .any) (fun _ _ _ _ _ _ _ _ _ _ => .any)
    fun _ _ _ _ _ => .any).imp fun _ _ hx' => ⟨hx'.1.1, hx'.2⟩

/-- The step offered at the current node is taken there. -/
theorem nextAction_moves (htop : x.stack.topNode? = some n) (hn : t.node? n = some entry) :
    Succeeds (Exploration.nextAction (p.context precision t settings) entry.stateId) x fun answer x' =>
      Trail (Exploration.Move p t) x [] x' ∧ x'.stack = x.stack ∧ x'.counters = x.counters ∧
        (∀ s, x'.table.isVisited s = x.table.isVisited s) ∧
        (answer = none → (x.table.offerable entry.stateId).isEmpty) ∧
        ∀ a, answer = some a → p.CanRun entry.state a ∧
          (x.table.sleep entry.stateId).hasKey (Action.key a) = false ∧
          (x'.table.sleep entry.stateId).hasKey (Action.key a) := by
  unfold Exploration.nextAction
  refine .bind (.get ?_)
  rw [htop]
  refine .bind (.lookUp_of_node? hn ?_)
  rw [if_neg (not_not.2 rfl)]
  refine .bind (.get (.bind (.choose
    (fun hnone => .pure ⟨.refl, rfl, rfl, fun _ => rfl, fun _ => ?_, nofun⟩) fun a ha choices => ?_)))
  · exact List.isEmpty_iff.2 hnone
  obtain ⟨hrequired, hawake⟩ := Keyed.mem_difference.1 ha
  -- two moves: the choice, and the step that is taken
  have hchoice : Exploration.Move p t x [] { x with choices } := .keep rfl (fun _ => rfl) rfl
  have hrun := (h.agrees n entry hn).required a hrequired
  refine .bind (.enabledAt (.bind ?_))
  refine (Ends.recordTaken_moves (hchoice.orderly ht h) htop hn hrun hawake).imp fun _ x' hx' => ?_
  obtain ⟨htake, hstack, htable, hcounters⟩ := hx'
  refine .pure ⟨(Trail.single hchoice).tail htake, hstack, hcounters, fun s => ?_, nofun,
    fun b hb => ?_⟩
  · rw [htable]
    rfl
  · obtain rfl := Option.some.inj hb
    refine ⟨hrun, hawake, ?_⟩
    rw [DecorationTable.sleep, htable, DecorationTable.get_update, if_pos rfl]
    exact Keyed.hasKey_insert.2 (.inr rfl)

theorem nextAction_leads {s : StateId} :
    Settles (Exploration.nextAction (p.context precision t settings) s) x fun x' =>
      x.Leads p t x' ∧ x'.stack = x.stack ∧ x'.counters = x.counters := by
  refine Ends.nextAction_settles h.stands ⟨.refl x, rfl, rfl⟩ fun n entry htop hn => ?_
  exact (h.nextAction_moves ht htop hn).imp fun _ x' hx' => ⟨⟨[], hx'.1⟩, hx'.2.1, hx'.2.2.1⟩

/-- A node of the tree is added, or refused because it is not a child of the current one. -/
theorem add_leads (hn : t.node? n = some entry) :
    Settles (Exploration.add (p.context precision t settings) n) x fun x' => x.Leads p t x' := by
  refine Ends.add_settles hn (.refl x) (fun hempty => ?_) fun m htop hparent => ?_
  · exact (Ends.addRoot_ends ht hempty hn).imp fun _ x' ⟨_, hstack, htable, haccount⟩ =>
      (Leads.refl x).trail (Ends.addRoot_moves hempty hstack htable haccount)
  · exact (Ends.addChild_moves ht h htop hn hparent).imp fun _ x' hx' => (Leads.refl x).trail hx'.1

/-- Whatever a client asks for, the exploration answers or reports an error. -/
theorem settles (hclosed : t.Closed) {call : Call}
    (hnodes : ∀ n ∈ call.nodes, ∃ e, t.node? n = some e) :
    Settles (call.perform (p.context precision t settings)) x fun x' => x.Leads p t x' := by
  refine Call.settles (.refl x) (fun n hn => ?_)
    ((h.isEmpty_leads ht hclosed).imp fun _ _ hx' => hx'.1)
    fun s => (h.nextAction_leads ht).imp fun _ hx' => hx'.1
  obtain ⟨entry, hentry⟩ := hnodes n hn
  exact h.add_leads ht hentry

end Orderly

end Interleaving
