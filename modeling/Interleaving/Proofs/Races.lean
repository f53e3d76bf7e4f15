import Interleaving.Proofs.Clocks
import Interleaving.Proofs.Sessions

/-!
# Races are reversed

A new step and an earlier one of another thread are a live pair (`LivePair`) if the two are dependent,
can come in the other order, and some step that is not redundant starts the run that reverses them.
The scan of the new step leaves threads out, follows clocks that frames have remembered, and goes on
where nothing can be required. It loses no live pair all the same: what it requires reverses the pair,
unless the earlier step is ordered before the new one for another reason (`Searched`).
-/

namespace Interleaving

variable {p : Program} {precision : Precision} {t t' : SearchTree ProgramState Step}
  {settings : Settings} {χ : Type} {x x' x₁ x₂ : Exploration Step χ} {stack stack' : SearchStack Step}
  {w : List Step} {n m : NodeId} {entry : SearchTree.Node ProgramState Step} {a b c e : Step}

/-! ## Stacks of one precision -/

/-- The stack is empty, or it follows a run and the clocks of its frames are sound. -/
def Traced (p : Program) (precision : Precision) (t : SearchTree ProgramState Step)
    (stack : SearchStack Step) : Prop :=
  stack.size = 0 ∨ ∃ w, Follows t stack w ∧
    ∀ i f, stack.frame? i = some f → FrameSound p precision (w.take i) f

namespace Traced

theorem empty (h : stack.size = 0) : Traced p precision t stack := .inl h

/-- Where there is a current node, there is a run. -/
theorem exists_follows (h : Traced p precision t stack) (htop : stack.topNode? = some m) :
    ∃ w, Follows t stack w ∧
      ∀ i f, stack.frame? i = some f → FrameSound p precision (w.take i) f :=
  EachFrame.exists_follows h htop

theorem relocks (h : Traced p precision t stack) (hs : stack.Relocks stack') :
    Traced p precision t stack' :=
  EachFrame.relocks (fun _ _ _ => FrameSound.of_locks) h hs

theorem pop (h : Traced p precision t stack) : Traced p precision t stack.pop := EachFrame.pop h

/-- The frame of the root. -/
theorem root (hsize : stack.size = 0) : Traced p precision t (stack.push (.root SearchTree.root)) :=
  EachFrame.root frameSound_root hsize

/-- The frame of a step from the current node is put on top, and locks are released. -/
theorem push {last f : Frame Step} (hfollows : Follows t stack w)
    (hframes : ∀ i f, stack.frame? i = some f → FrameSound p precision (w.take i) f)
    (hrelocks : stack.Relocks stack') (htop : stack.frame? w.length = some last)
    (hf : f.action = some e) (hedge : t.Edge last.node e f.node)
    (hsound : FrameSound p precision (w ++ [e]) f) : Traced p precision t (stack'.push f) :=
  EachFrame.push (R := FrameSound p precision) (fun _ _ _ => .of_locks) hfollows hframes hrelocks htop
    hf hedge hsound

/-- The tree may change. -/
theorem retree (h : Traced p precision t stack) (ht : t.Retains t') : Traced p precision t' stack :=
  EachFrame.retree h fun _ _ _ => ht.edge

end Traced

/-! ## Live pairs -/

/-- The race of the new step `e` with the step at index `i`, which is one of another thread, can be
reversed by a step that is not redundant. -/
def LivePair (p : Program) (precision : Precision) (t : SearchTree ProgramState Step)
    (x : Exploration Step χ) (e : Step) (i : Nat) : Prop :=
  ∃ f c below origin g, 1 ≤ i ∧ Sighted precision t x.stack e i f c below origin ∧
    c.process ≠ e.process ∧ Initial p precision t x e i c origin g

/-- A race is seen at a frame whose node is a child of the one below. -/
theorem Sighted.of_edge {i : Nat} {f below : Frame Step} (ht : t.Sound p)
    (hbelow : stack.frame? i = some below) (hf : stack.frame? (i + 1) = some f) (hfc : f.action = some c)
    (hedge : t.Edge below.node c f.node) (hdepends : Step.Depends precision c e)
    (hreversible : Step.reversible (t.state below.node) c e) :
    ∃ origin, Sighted precision t stack e (i + 1) f c below origin := by
  obtain ⟨child, hchild, hparent, -⟩ := SearchTree.edge_iff.1 hedge
  obtain ⟨origin, -, horigin, -⟩ := ht.edge _ child below.node hchild hparent
  exact ⟨origin, hf, hfc, hdepends, ⟨below.node, hedge.1, hreversible⟩, horigin, hbelow⟩

/-- A race with a step of the run that the stack follows is seen there. -/
theorem Follows.sighted {u y : List Step} (ht : t.Sound p) (hfollows : Follows t stack (u ++ c :: y))
    (hdepends : Step.Depends precision c e)
    (hreversible : Step.reversible (p.initialState.afterAll u) c e) :
    ∃ f below origin, Sighted precision t stack e (u.length + 1) f c below origin ∧
      origin.state = p.initialState.afterAll u := by
  obtain ⟨below, f, hbelow, hf, hfc, hedge⟩ := hfollows.next u.length c (by simp)
  have hstate := hfollows.state_of_frame ht hbelow
  rw [List.take_left] at hstate
  obtain ⟨origin, hs⟩ := Sighted.of_edge ht hbelow hf hfc hedge hdepends (by rwa [hstate])
  exact ⟨f, below, origin, hs, by rw [← hstate, SearchTree.state_eq hs.atOrigin]⟩

/-- Only the stack and the redundant steps decide what reverses a race. -/
theorem Initial.congr {i : Nat} {origin : SearchTree.Node ProgramState Step} {g : Step}
    (h : Initial p precision t x e i c origin g) (hstack : x'.stack = x.stack)
    (hasleep : ∀ s, (x'.table.get s).asleep = (x.table.get s).asleep) :
    Initial p precision t x' e i c origin g :=
  ⟨h.canRun, by rw [hasleep]; exact h.awake, by rw [hstack]; exact h.starts⟩

theorem Widens.initial_iff {i : Nat} {origin : SearchTree.Node ProgramState Step} {g : Step}
    (h : Widens p t x x') :
    Initial p precision t x' e i c origin g ↔ Initial p precision t x e i c origin g :=
  ⟨fun hg => hg.congr h.stack.symm fun s => (h.asleep s).symm, fun hg => hg.congr h.stack h.asleep⟩

/-- The step `b` of the run is ordered before the new step `e` for a reason of its own: it is one of
the same thread, it makes the thread active, or it is the step of a live pair above index `l`. -/
def Anchor (p : Program) (precision : Precision) (t : SearchTree ProgramState Step)
    (x : Exploration Step χ) (w : List Step) (e : Step) (l : Nat) (b : Step) : Prop :=
  b.process = e.process ∨ Activates p w b e.process ∨
    ∃ j, l < j ∧ LivePair p precision t x e j ∧ w[j - 1]? = some b

theorem Anchor.mono {l l' : Nat} (h : Anchor p precision t x w e l b) (hle : l' ≤ l) :
    Anchor p precision t x w e l' b := by
  refine h.imp_right fun h => h.imp_right fun ⟨j, hj, hlive, hb⟩ => ⟨j, ?_, hlive, hb⟩
  omega

/-- The step at index `k` is one of the thread `q` and leads to an anchor above index `l`. -/
def Reaches (p : Program) (precision : Precision) (t : SearchTree ProgramState Step)
    (x : Exploration Step χ) (w : List Step) (e : Step) (l : Nat) (q : ProcessId) (k : Nat) : Prop :=
  ∃ a b, 0 < k ∧ w[k - 1]? = some a ∧ a.process = q ∧ Leads precision w a b ∧ b ∈ w ∧
    Anchor p precision t x w e l b

theorem Reaches.mono {l l' k : Nat} {q : ProcessId} (h : Reaches p precision t x w e l q k)
    (hle : l' ≤ l) : Reaches p precision t x w e l' q k := by
  obtain ⟨a, b, hpos, ha, haq, hab, hb, hanchor⟩ := h
  exact ⟨a, b, hpos, ha, haq, hab, hb, hanchor.mono hle⟩

theorem Anchor.reaches {l : Nat} (h : Anchor p precision t x w e l c) (hc : w[l]? = some c) :
    Reaches p precision t x w e l c.process (l + 1) :=
  ⟨c, c, Nat.succ_pos l, hc, rfl, .refl, List.mem_of_getElem? hc, h⟩

/-- What an anchor leads to is what the new step depends on. -/
theorem Anchor.depends {l : Nat} (hperforms : Performs t x.stack w)
    (h : Anchor p precision t x w e l b) : Step.Depends precision b e := by
  rcases h with h | h | ⟨j, -, ⟨f, c, below, origin, g, hj, hs, -, -⟩, hb⟩
  · exact depends_of_anchor (p := p) (w := w) (.inl h)
  · exact depends_of_anchor (.inr h)
  · have haction := hs.action
    obtain ⟨k, rfl⟩ : ∃ k, j = k + 1 := ⟨j - 1, by omega⟩
    rw [hperforms.action_of_frame hs.frame, show k = k + 1 - 1 from rfl, hb] at haction
    exact Option.some.inj haction ▸ hs.depends

/-- A later step of a thread comes after an earlier one. -/
theorem leads_of_index_le {i k : Nat} (hi : 0 < i) (hc : w[i - 1]? = some c) (ha : w[k - 1]? = some a)
    (hle : i ≤ k) (hprocess : a.process = c.process) : Leads precision w c a := by
  obtain ⟨hlt, hget⟩ := List.getElem?_eq_some_iff.1 hc
  have hsplit : w = w.take (i - 1) ++ c :: w.drop i := by
    conv_lhs => rw [eq_take_append_cons_drop hc, Nat.sub_add_cancel hi]
  have hlength : (w.take (i - 1)).length = i - 1 := List.length_take_of_le (Nat.le_of_lt hlt)
  rw [hsplit] at ha ⊢
  exact leads_of_process_eq (by omega) ha hprocess

/-- What the scan of `e` has come to when it has looked at the frames above index `l`. The last part
says of each live pair there, below the limit, that it is reversed, or that the earlier step is ordered
before `e`. -/
structure Searched (p : Program) (precision : Precision) (t : SearchTree ProgramState Step)
    (w : List Step) (e : Step) (limit : Nat) (x : Exploration Step χ) (l : Nat)
    (scan : Exploration.RaceScan) (x' : Exploration Step χ) : Prop where
  widens : Widens p t x x'
  clock : ∀ q k, SortedMap.get? scan.clock q = some k → q = e.process ∧ k = w.length + 1 ∨
    Reaches p precision t x w e l q k
  left : ∀ a ∈ w, a.process ≠ e.process → scan.pending.hasKey a.process ∨
    ∃ k, l < k ∧ Reaches p precision t x w e l a.process k
  reversed : ∀ i f c below origin g, l < i → i < limit →
    Sighted precision t x.stack e i f c below origin → c.process ≠ e.process →
    Initial p precision t x e i c origin g →
    (∃ r, Initial p precision t x e i c origin r ∧
      (x'.table.get origin.stateId).backtrack.hasKey (Action.key r)) ∨
    ∃ k, i ≤ k ∧ Reaches p precision t x w e i c.process k

namespace Searched

variable {scan scan' : Exploration.RaceScan} {limit : Nat}

/-- The clock of the scan is sound in the sense of the frames. -/
theorem sound {l : Nat} (h : Searched p precision t w e limit x l scan x')
    (hperforms : Performs t x.stack w) : ScanSound precision w e scan := by
  intro q k hk
  refine (h.clock q k hk).imp_right fun ⟨a, b, hpos, ha, haq, hab, hb, hanchor⟩ => ?_
  exact ⟨a, b, hpos, ha, haq, hb, hab, hanchor.depends hperforms⟩

theorem start {last : Frame Step} (hperforms : Performs t x.stack w)
    (hsound : FrameSound p precision w last) :
    Searched p precision t w e limit x w.length (.start last e.process (w.length + 1)) x := by
  refine ⟨.refl x, fun q k hk => ?_, fun a ha hne => .inl ?_, ?_⟩
  · rw [Exploration.RaceScan.start, SortedMap.get?_put] at hk
    split at hk
    · rename_i hq
      exact .inl ⟨hq, (Option.some.inj hk).symm⟩
    · obtain ⟨a, b, hpos, ha, haq, hb, hab, hanchor⟩ := hsound.clock _ q k hk
      exact .inr ⟨a, b, hpos, ha, haq, hab, hb, hanchor.imp_right .inl⟩
  · exact hsound.pending_start ha hne
  · intro i f c below origin g hi _ hs
    exact absurd (hperforms.frame?_lt hs.frame) (Nat.not_le_of_lt hi)

/-- A thread with a step that is known to be ordered leads to an anchor. -/
theorem reaches_of_isOrdered {l i : Nat} {q : ProcessId}
    (h : Searched p precision t w e limit x l scan x') (hq : q ≠ e.process)
    (hordered : scan.isOrdered q i) :
    ∃ k, i ≤ k ∧ Reaches p precision t x w e l q k := by
  obtain ⟨k, hk, hle⟩ := Exploration.RaceScan.isOrdered_iff.1 hordered
  rcases h.clock q k hk with ⟨heq, -⟩ | hreaches
  · exact absurd heq hq
  · exact ⟨k, hle, hreaches⟩

section Step

variable {l : Nat} (hperforms : Performs t x.stack w)
  (h : Searched p precision t w e limit x (l + 1) scan x₁)
include hperforms h

theorem getElem?_of_frame {f : Frame Step} (hf : x₁.stack.frame? (l + 1) = some f)
    (hc : f.action = some c) : w[l]? = some c := by
  rw [h.widens.stack] at hf
  exact (hperforms.action_of_frame hf).symm.trans hc

/-- The step of a race that the scan finds is an anchor. -/
theorem anchor {f below : Frame Step} {origin : SearchTree.Node ProgramState Step} {g : Step}
    (hs : Sighted precision t x₁.stack e (l + 1) f c below origin)
    (hg : Initial p precision t x₁ e (l + 1) c origin g) : Anchor p precision t x w e l c := by
  by_cases hprocess : c.process = e.process
  · exact .inl hprocess
  · refine .inr (.inr ⟨l + 1, Nat.lt_succ_self l, ?_, h.getElem?_of_frame hperforms hs.frame hs.action⟩)
    exact ⟨f, c, below, origin, g, Nat.succ_pos l, h.widens.stack ▸ hs, hprocess,
      h.widens.initial_iff.1 hg⟩

variable (hstep : ScanStep p precision t e limit (l + 1) scan scan' x₁ x₂)
include hstep

/-- The clock takes over what the frame of an anchor knows. -/
theorem clock_step (hframes : ∀ j f, x.stack.frame? j = some f → FrameSound p precision (w.take j) f)
    {q : ProcessId} {k : Nat} (hk : SortedMap.get? scan'.clock q = some k) :
    q = e.process ∧ k = w.length + 1 ∨ Reaches p precision t x w e l q k := by
  have hold : ∀ k, SortedMap.get? scan.clock q = some k →
      q = e.process ∧ k = w.length + 1 ∨ Reaches p precision t x w e l q k := fun k hk =>
    (h.clock q k hk).imp_right (·.mono (Nat.le_succ l))
  rcases hstep.result with rfl | ⟨f, c, -, -, -, rfl⟩ | ⟨f, c, below, origin, g, hs, hg, rfl⟩
  · exact hold k hk
  · exact hold k hk
  -- the index of the step itself, or an entry of the clock that its frame keeps for its thread
  have hc := h.getElem?_of_frame hperforms hs.frame hs.action
  have hanchor := h.anchor hperforms hs hg
  rcases Clock.get?_join hk with hk | hk
  · rw [SortedMap.get?_put] at hk
    split at hk
    · rename_i hq
      obtain rfl : l + 1 = k := Option.some.inj hk
      exact .inr (hq ▸ hanchor.reaches hc)
    · exact hold k hk
  · have hf := hframes _ f (h.widens.stack ▸ hs.frame)
    obtain ⟨a, hpos, ha, haq, hac⟩ := hf.leads hc hk
    exact .inr ⟨a, c, hpos, ha, haq, hac, List.mem_of_getElem? hc, hanchor⟩

/-- A thread is left out only for a step of its own that leads to an anchor. -/
theorem left_step (ha : a ∈ w) (hne : a.process ≠ e.process) : scan'.pending.hasKey a.process ∨
    ∃ k, l < k ∧ Reaches p precision t x w e l a.process k := by
  rcases h.left a ha hne with hpending | ⟨k, hk, hreach⟩
  swap
  · exact .inr ⟨k, Nat.lt_of_succ_lt hk, hreach.mono (Nat.le_succ l)⟩
  -- only the thread of the step at this frame can be left out now
  rcases hstep.result with rfl | ⟨f, c, -, -, hord, rfl⟩ | ⟨f, c, below, origin, g, hs, hg, rfl⟩
  · exact .inl hpending
  · by_cases hca : a.process = c.process
    · obtain ⟨k, hk, hreach⟩ := h.reaches_of_isOrdered hne (hca ▸ hord)
      exact .inr ⟨k, hk, hreach.mono (Nat.le_succ l)⟩
    · exact .inl (Keyed.hasKey_erase.2 ⟨hpending, hca⟩)
  · by_cases hca : a.process = c.process
    · have hc := h.getElem?_of_frame hperforms hs.frame hs.action
      exact .inr ⟨l + 1, Nat.lt_succ_self l, hca ▸ (h.anchor hperforms hs hg).reaches hc⟩
    · exact .inl (Keyed.hasKey_erase.2 ⟨hpending, hca⟩)

/-- A live pair at the frame is reversed, or its thread was left out before or is known to be ordered. -/
theorem reversed_step (hl : l + 1 < limit) {f below : Frame Step}
    {origin : SearchTree.Node ProgramState Step} {g : Step}
    (hs : Sighted precision t x.stack e (l + 1) f c below origin) (hprocess : c.process ≠ e.process)
    (hg : Initial p precision t x e (l + 1) c origin g) :
    (∃ r, Initial p precision t x e (l + 1) c origin r ∧
      (x₂.table.get origin.stateId).backtrack.hasKey (Action.key r)) ∨
    ∃ k, l + 1 ≤ k ∧ Reaches p precision t x w e (l + 1) c.process k := by
  have hs₁ : Sighted precision t x₁.stack e (l + 1) f c below origin := h.widens.stack ▸ hs
  have hc := h.getElem?_of_frame hperforms hs₁.frame hs.action
  rcases h.left c (List.mem_of_getElem? hc) hprocess with hpending | ⟨k, hk, hreach⟩
  swap
  · exact .inr ⟨k, Nat.le_of_lt hk, hreach⟩
  cases hord : scan.isOrdered c.process (l + 1) with
  | true => exact .inr (h.reaches_of_isOrdered hprocess hord)
  | false =>
    obtain ⟨r, hr, hkey⟩ := hstep.hit f c below origin g hs₁ hpending hord
      (h.widens.initial_iff.2 hg) hl
    exact .inl ⟨r, h.widens.initial_iff.1 hr, hkey⟩

/-- One frame of the scan. -/
theorem step (hframes : ∀ j f, x.stack.frame? j = some f → FrameSound p precision (w.take j) f) :
    Searched p precision t w e limit x l scan' x₂ where
  widens := h.widens.trans hstep.widens
  clock _ _ := h.clock_step hperforms hstep hframes
  left _ := h.left_step hperforms hstep
  reversed i f c below origin g hi hlimit hs hprocess hg := by
    by_cases hlt : l + 1 < i
    · refine (h.reversed i f c below origin g hlt hlimit hs hprocess hg).imp_left
        fun ⟨r, hr, hkey⟩ => ?_
      exact ⟨r, hr, hstep.widens.hasKey_backtrack hkey⟩
    · obtain rfl : i = l + 1 := by omega
      exact h.reversed_step hperforms hstep hlimit hs hprocess hg

end Step

end Searched

/-- The step `c` at index `i` is ordered before the new step `e`: it happens before a later step on the
stack that is one of the thread of `e` or in a live pair with `e`, or the thread was made active by it
or by a step after it. -/
def OrderedBefore (p : Program) (precision : Precision) (t : SearchTree ProgramState Step)
    (x : Exploration Step χ) (e : Step) (i : Nat) (c : Step) : Prop :=
  let w := Exploration.chainedActions t x.stack 1
  (∃ j f b, i < j ∧ x.stack.frame? j = some f ∧ f.action = some b ∧
    HappensBefore (Step.Depends precision) w c b ∧
    (b.process = e.process ∨ LivePair p precision t x e j)) ∨
  ∃ b, Activates p w b e.process ∧ (b = c ∨ HappensBefore (Step.Depends precision) w c b)

/-- Every live pair of the step `e` that is added in `x` is reversed in `x'`, or the earlier step is
ordered before `e`. -/
def ReversesRaces (p : Program) (precision : Precision) (t : SearchTree ProgramState Step) (e : Step)
    (x x' : Exploration Step χ) : Prop :=
  ∀ i f c below origin, 1 ≤ i → Sighted precision t x.stack e i f c below origin →
    c.process ≠ e.process → (∃ g, Initial p precision t x e i c origin g) →
    (∃ r, Initial p precision t x e i c origin r ∧
      (x'.table.get origin.stateId).backtrack.hasKey (Action.key r)) ∨
    OrderedBefore p precision t x e i c

section Congr

variable (hstack : x'.stack = x.stack)
  (hasleep : ∀ s, (x'.table.get s).asleep = (x.table.get s).asleep)
include hstack hasleep

theorem LivePair.congr {i : Nat} (h : LivePair p precision t x e i) : LivePair p precision t x' e i := by
  obtain ⟨f, c, below, origin, g, hi, hs, hprocess, hg⟩ := h
  exact ⟨f, c, below, origin, g, hi, hstack.symm ▸ hs, hprocess, hg.congr hstack hasleep⟩

theorem OrderedBefore.congr {i : Nat} (h : OrderedBefore p precision t x e i c) :
    OrderedBefore p precision t x' e i c := by
  unfold OrderedBefore at h ⊢
  rw [hstack]
  refine h.imp_left fun ⟨j, f, b, hj, hf, hfb, hhb, hb⟩ => ⟨j, f, b, hj, hf, hfb, hhb, ?_⟩
  exact hb.imp_right (·.congr hstack hasleep)

end Congr

/-- A thread that leads to an anchor orders its earlier steps: the anchor of one of these is the step
itself, if that makes the thread of the new step active, or comes later and depends on it. -/
theorem Reaches.exists_anchor {i k : Nat} (hrun : p.IsRun p.initialState w) (hi : 0 < i)
    (hc : w[i - 1]? = some c) (hprocess : c.process ≠ e.process) (hk : i ≤ k)
    (h : Reaches p precision t x w e i c.process k) : ∃ b, Anchor p precision t x w e i b ∧
      (b = c ∧ Activates p w b e.process ∨
        b ∈ w.drop i ∧ HappensBefore (Step.Depends precision) w c b) := by
  have hnodup := hrun.nodup
  obtain ⟨a, b, -, ha, hac, hab, -, hanchor⟩ := h
  have hcb : Leads precision w c b := (leads_of_index_le hi hc ha hk hac).trans hab
  obtain ⟨hlt, hget⟩ := List.getElem?_eq_some_iff.1 hc
  have hsplit : w = w.take (i - 1) ++ c :: w.drop i := by
    conv_lhs => rw [eq_take_append_cons_drop hc, Nat.sub_add_cancel hi]
  have hlater : b = c ∨ b ∈ w.drop i ∧ HappensBefore (Step.Depends precision) w c b := by
    rw [hsplit] at hcb
    refine (hcb.eq_or_happensBefore (hsplit ▸ hnodup)).imp_right fun ⟨hb, hhb⟩ => ⟨hb, ?_⟩
    refine Relation.TransGen.mono (fun _ _ h => ⟨h.1.of_sublist ?_, h.2⟩) _ _ hhb
    conv_rhs => rw [hsplit]
    exact List.sublist_append_right _ _
  refine ⟨b, hanchor, hlater.imp_left fun heq => ⟨heq, ?_⟩⟩
  subst heq
  -- the step itself is of another thread, and its index is not above `i`
  rcases hanchor with hb | hb | ⟨j, hj, -, hb⟩
  · exact absurd hb hprocess
  · exact hb
  · obtain ⟨hlt', hget'⟩ := List.getElem?_eq_some_iff.1 hb
    have := (List.Nodup.getElem_inj_iff hnodup).1 (hget.trans hget'.symm)
    omega

theorem Reaches.orderedBefore {i k : Nat} (ht : t.Sound p) (hfollows : Follows t x.stack w) (hi : 0 < i)
    (hc : w[i - 1]? = some c) (hprocess : c.process ≠ e.process) (hk : i ≤ k)
    (h : Reaches p precision t x w e i c.process k) : OrderedBefore p precision t x e i c := by
  have hw : Exploration.chainedActions t x.stack 1 = w := hfollows.chainedActions 0
  obtain ⟨b, hanchor, hlater⟩ := h.exists_anchor (hfollows.isRun ht) hi hc hprocess hk
  unfold OrderedBefore
  simp only [hw]
  rcases hlater with ⟨rfl, hactivates⟩ | ⟨hmem, hhb⟩
  · exact .inr ⟨b, hactivates, .inl rfl⟩
  rcases hanchor with hb | hb | ⟨j, hj, hlive, hb⟩
  · obtain ⟨m, hm⟩ := List.getElem?_of_mem hmem
    rw [List.getElem?_drop] at hm
    obtain ⟨-, f, -, hf, hfb, -⟩ := hfollows.next _ b hm
    exact .inl ⟨i + m + 1, f, b, by omega, hf, hfb, hhb, .inl hb⟩
  · exact .inr ⟨b, hb, .inr hhb⟩
  · obtain ⟨-, f, -, hf, hfb, -⟩ := hfollows.next _ b hb
    rw [Nat.sub_add_cancel (by omega)] at hf
    exact .inl ⟨j, f, b, hj, hf, hfb, hhb, .inr hlive⟩

/-- When all frames have been looked at, every live pair is reversed or ordered. -/
theorem Searched.reversesRaces {scan : Exploration.RaceScan} (ht : t.Sound p)
    (hfollows : Follows t x.stack w) (h : Searched p precision t w e (w.length + 1) x 0 scan x') :
    ReversesRaces p precision t e x x' := by
  rintro i f c below origin hi hs hprocess ⟨g, hg⟩
  have hc : w[i - 1]? = some c := by
    obtain ⟨k, rfl⟩ : ∃ k, i = k + 1 := ⟨i - 1, by omega⟩
    exact (hfollows.action_of_frame hs.frame).symm.trans hs.action
  have hlimit : i < w.length + 1 := Nat.lt_succ_of_le (hfollows.frame?_lt hs.frame)
  refine (h.reversed i f c below origin g hi hlimit hs hprocess hg).imp_right
    fun ⟨k, hk, hreach⟩ => ?_
  exact hreach.orderedBefore ht hfollows hi hc hprocess hk

/-! ## Adding a child -/

namespace Ends

variable [ChoiceSource χ] [LawfulChoiceSource χ]

/-- The scan of a new step. -/
theorem searched {last : Frame Step} {limit : Nat} (ht : t.Sound p) (hperforms : Performs t x.stack w)
    (hframes : ∀ i f, x.stack.frame? i = some f → FrameSound p precision (w.take i) f)
    (he : p.HasStep e) (hlast : x.stack.frame? w.length = some last) :
    Yields (Exploration.scanBelow (p.context precision t settings) x.stack e limit w.length
      (.start last e.process (w.length + 1))) x (Searched p precision t w e limit x 0) := by
  have hsound : FrameSound p precision w last := by simpa using hframes _ _ hlast
  refine (scanBelow (J := Searched p precision t w e limit x) (hperforms.isGenuine ht) he rfl
    (.start hperforms hsound) ?_).imp fun scan x' hx' => hx'.2
  intro l scan scan' x₁ x₂ _ _ h hstep
  exact h.step hperforms hstep hframes

/-- A child of the current node is added: the clocks stay sound, races are reversed, and at the nodes
on the stack the same steps stay redundant. -/
theorem addChild_traced (ht : t.Sound p) (h : Traced p precision t x.stack)
    (htop : x.stack.topNode? = some m) (hedge : t.Edge m a n) :
    Yields (Exploration.add (p.context precision t settings) n) x fun _ x' =>
      Traced p precision t x'.stack ∧ ReversesRaces p precision t a x x' ∧
        ∀ k d, x.stack.Holds k → t.node? k = some d →
          (x'.table.get d.stateId).asleep = (x.table.get d.stateId).asleep := by
  obtain ⟨w, hfollows, hframes⟩ := h.exists_follows htop
  obtain ⟨last, hlast, rfl⟩ := hfollows.exists_top htop
  -- the scan sees the stack and the sets as they were
  let y : Exploration Step χ := { x with table := x.table.markVisited ⟨n.index⟩ }
  refine (addStep ht hfollows hlast hedge (searched (x := y) ht hfollows.performs hframes
    (ht.canRun hedge).hasStep hlast) fun scan x₁ hx₁ => hx₁.widens.stack).imp ?_
  rintro _ x' ⟨scan, x₁, entry, before, d, hsearched, hentry, hbefore, -, hinstalled⟩
  have hstack : x₁.stack = x.stack := hsearched.widens.stack
  obtain ⟨s, spawned, acquired, released, hrelocks, hspawned, hpush⟩ := hinstalled.stack
  -- the sets of the nodes on the stack are those that the scan leaves
  have hget : ∀ k d', x.stack.Holds k → t.node? k = some d' →
      x'.table.get d'.stateId = x₁.table.get d'.stateId := by
    intro k d' hk hd'
    rw [hinstalled.table, DecorationTable.get_reset, if_neg]
    exact fun hsame => hfollows.not_holds_child ht htop hedge
      ((ht.eq_of_stateId_eq hentry hd' hsame).1 ▸ hk)
  refine ⟨?_, ?_, fun k d' hk hd' => ?_⟩
  · rw [hpush]
    refine .push hfollows hframes (hstack ▸ hrelocks) hlast rfl hedge ?_
    have hsound : FrameSound p precision w last := by simpa using hframes _ _ hlast
    rw [hstack, hfollows.size_eq]
    exact hsound.child ht hfollows.performs hlast hedge rfl hentry hbefore
      (hsearched.sound hfollows.performs) hspawned
  · have hreverses : ReversesRaces p precision t a y x₁ := hsearched.reversesRaces ht hfollows
    rintro i f c below origin hi hs hprocess ⟨g, hg⟩
    have hgy : Initial p precision t y a i c origin g := hg.congr rfl fun _ => rfl
    rcases hreverses i f c below origin hi hs hprocess ⟨g, hgy⟩ with ⟨r, hr, hkey⟩ | hordered
    · refine .inl ⟨r, hr.congr rfl fun _ => rfl, ?_⟩
      rwa [hget below.node origin ⟨i - 1, below, hs.belowFrame, rfl⟩ hs.atOrigin]
    · exact .inr (hordered.congr (by rfl) fun _ => by rfl)
  · rw [hget k d' hk hd']
    exact hsearched.widens.asleep _

/-- An edge of an earlier round is taken. -/
theorem replayEdge_traced (ht : t.Sound p) (h : Traced p precision t x.stack)
    (htop : x.stack.topNode? = some n) (hn : t.node? n = some entry)
    (hedge : (m, a) ∈ Exploration.replayableEdges (p.context precision t settings) x.table entry) :
    Yields (do
      Exploration.recordTaken entry.stateId (p.enabledSet entry.state) a
      Exploration.count fun c => { c with lazyReplays := c.lazyReplays + 1 }
      Exploration.add (p.context precision t settings) m) x fun _ x' =>
        Traced p precision t x'.stack := by
  obtain ⟨-, hedge, -⟩ := of_mem_replayableEdges ht hn hedge
  refine .bind (recordTaken.imp fun _ x₁ hx₁ => .bind (.modify ?_))
  obtain ⟨hstack, -⟩ := hx₁
  refine (addChild_traced ht ?_ ?_ hedge).imp fun _ x' hx' => hx'.1
  · show Traced p precision t x₁.stack
    rwa [hstack]
  · show x₁.stack.topNode? = some n
    rw [hstack, htop]

/-- The question for the end of a round. -/
theorem isEmpty_traced (ht : t.Sound p) (hclosed : t.Closed) (hx : Orderly p t x)
    (h : Traced p precision t x.stack) :
    Yields (Exploration.isEmpty (p.context precision t settings)) x fun _ x' =>
      Traced p precision t x'.stack := by
  refine ((hx.isEmpty_preserves (J := fun y => Traced p precision t y.stack) ht hclosed h
    ?_ ?_ ?_ ?_).imp fun _ _ hx' => hx'.1.2).yields
  · exact fun y y' hy _ hstack _ _ => hstack ▸ hy
  · intro n e c htop hn hcovering
    exact (hx.virtualExploration_leads ht hclosed htop hn hcovering).yields.imp
      fun _ y' hy' => h.relocks hy'.2
  · exact fun y n e c a hy _ htop hn hedge => replayEdge_traced ht hy htop hn hedge
  · intro y n hy horderly _
    refine (popFrame_moves horderly).yields.imp fun _ y' ⟨_, hpopped⟩ => ?_
    rw [hpopped.stack]
    exact hy.pop

end Ends

/-! ## Sessions of one precision -/

section Calls

variable [ChoiceSource χ] [LawfulChoiceSource χ]

/-- Whatever a client asks for, the clocks stay sound. -/
theorem Orderly.settles_traced {call : Exploration.Call} (ht : t.Sound p) (hclosed : t.Closed)
    (hx : Orderly p t x) (h : Traced p precision t x.stack)
    (hnodes : ∀ n ∈ call.nodes, ∃ e, t.node? n = some e) :
    Settles (call.perform (p.context precision t settings)) x fun x' =>
      Traced p precision t x'.stack := by
  refine Exploration.Call.settles h (fun n hn => ?_) ?_ fun s => ?_
  · obtain ⟨entry, hentry⟩ := hnodes n hn
    refine Ends.add_settles hentry h (fun hempty => ?_) fun m htop hparent => ?_
    · refine (Ends.addRoot_ends ht hempty hentry).imp fun _ x' hx' => ?_
      rw [hx'.2.1]
      exact .root hempty
    · obtain ⟨a, hedge⟩ := ht.exists_edge hentry hparent
      exact ((Ends.addChild_moves ht hx htop hentry hparent).both
        (Ends.addChild_traced ht h htop hedge)).imp fun _ x' hx' => hx'.2.1
  · exact ((hx.isEmpty_leads ht hclosed).both (Ends.isEmpty_traced ht hclosed hx h)).imp
      fun _ x' hx' => hx'.2
  · refine (hx.nextAction_leads ht).imp fun x' hx' => ?_
    rw [hx'.2.1]
    exact h

end Calls

namespace Search

variable [ChoiceSource χ] [LawfulChoiceSource χ] {s s' : Search ProgramState Step χ}

/-- In a session with the same variables tracked all the time, the clocks stay sound. -/
theorem Session.traced (h : Session p (· = precision) s) :
    Traced p precision s.tree s.exploration.stack := by
  induction h with
  | start => exact .empty rfl
  | next hsession hperforms ih =>
    have h₀ := hsession.isOrderly
    cases hperforms with
    | call hallowed hnodes hends =>
      subst hallowed
      refine (settles_ask (Q := fun s' => Traced p _ s'.tree s'.exploration.stack) ?_).of_ends hends
      exact h₀.orderly.settles_traced h₀.sound h₀.closed ih hnodes
    | clear => exact .empty rfl
    | change hchange => exact ih.retree hchange.retains

/-- Races are reversed. In a session with the same variables tracked all the time, a child of the
current node is added by the step `a`. If the step at an index of the stack, of another thread, is
dependent with `a` and can come after it, and some step that is not redundant before it starts the run
that reverses the two, then such a step is required there afterwards, or the earlier step is ordered
before `a` for another reason. -/
theorem add_reversesRaces (h : Session p (· = precision) s)
    (htop : s.exploration.stack.topNode? = some m) (hedge : s.tree.Edge m a n) {isNew : Bool}
    (hadd : explore (p.system precision) (Exploration.add · n) s = .ok isNew s') :
    ReversesRaces p precision s.tree a s.exploration s'.exploration := by
  have hreverses : Ends (explore (p.system precision) (Exploration.add · n)) s
      (fun _ s' => ReversesRaces p precision s.tree a s.exploration s'.exploration) fun _ => True :=
    ends_explore ((Ends.addChild_traced h.isOrderly.sound h.traced htop hedge).imp fun _ _ hx => hx.2.1)
  exact hreverses.of_ok hadd

/-- The write of the second thread comes after that of the first one and races with it. -/
theorem add_reversesRaces_rivalWriters :
    ∃ (s s' : Search ProgramState Step Seeded) (m n : NodeId) (a : Step) (isNew : Bool),
      Session rivalWriters (· = none) s ∧ s.exploration.stack.topNode? = some m ∧
        s.tree.Edge m a n ∧
        explore (rivalWriters.system none) (Exploration.add · n) s = .ok isNew s' ∧
        LivePair rivalWriters none s.tree s.exploration a 1 ∧
        ReversesRaces rivalWriters none s.tree a s.exploration s'.exploration := by
  let e : Step := ⟨⟨0⟩, 0, .write "x" 1⟩
  let a : Step := ⟨⟨1⟩, 0, .write "x" 2⟩
  have heval : addsAfter rivalWriters none (Seeded.ofSeed 0) [e] a (fun s _ =>
      (s.exploration.stack.frame? 0).any fun below => (s.tree.node? below.node).any fun origin =>
        !(s.exploration.table.get origin.stateId).asleep.hasKey (Action.key a)) = true := by
    decide +kernel
  obtain ⟨s, s', m, n, isNew, hsession, htop, hedge, hadd, hrun, htest⟩ := exists_of_addsAfter heval
  obtain ⟨below, hbelow, htest⟩ := (Option.any_eq_true _ _).1 htest
  obtain ⟨origin, horigin, hawake⟩ := (Option.any_eq_true _ _).1 htest
  refine ⟨s, s', m, n, a, isNew, hsession, htop, hedge, hadd, ?_,
    add_reversesRaces hsession htop hedge hadd⟩
  -- the stack follows the write of the first thread
  obtain ⟨w, hfollows, -⟩ := hsession.traced.exists_follows htop
  obtain rfl : w = [e] := (hfollows.chainedActions 0).symm.trans hrun
  obtain ⟨f, below', origin', hs, hstate⟩ : ∃ f below origin,
      Sighted none s.tree s.exploration.stack a 1 f e below origin ∧
        origin.state = rivalWriters.initialState :=
    hfollows.sighted (u := []) hsession.isOrderly.sound (by decide) (by decide)
  obtain rfl : below = below' := Option.some.inj (hbelow.symm.trans hs.belowFrame)
  obtain rfl : origin = origin' := Option.some.inj (horigin.symm.trans hs.atOrigin)
  refine ⟨f, e, below, origin, a, Nat.le_refl 1, hs, by decide, ?_, by simpa using hawake, ?_⟩
  · rw [hstate]
    exact Program.mem_enabled_iff.1 (by decide)
  · rw [hfollows.chainedActions]
    exact .head

end Search

end Interleaving
