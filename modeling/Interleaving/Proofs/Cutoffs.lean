import Interleaving.Proofs.Excursions

/-!
# Walks that are cut off

A walk does not go on below a node if all clocks of the threads that have made steps reach no lower than
the real part of the stack. This loses nothing as long as the clocks know the threads that matter: if a
step below the node depends on a step of another thread in the real part, the clock of its own thread has
an entry for that one (`Search.session_cutoffSpares`). But a clock need not have such an entry, and then
a race can be lost (`Engine.cutoff_loses_bracketing`).
-/

namespace Interleaving

variable {p : Program} {precision : Precision} {t : SearchTree ProgramState Step}
  {settings : Settings} {χ : Type} {x y y' : Exploration Step χ} {n m c k : NodeId}
  {entry : SearchTree.Node ProgramState Step} {a : Step}

/-! ## Calls of a walk -/

/-- A call of `walkVirtual`, with the state in which it is made. -/
structure WalkCall (χ : Type) where
  depth : Nat
  roots : List NodeId
  root : NodeId
  start : Nat
  node : NodeId
  exploration : Exploration Step χ

namespace WalkCall

variable [ChoiceSource χ]

/-- The call with which the walk below a covering node begins. -/
def first (t : SearchTree ProgramState Step) (covering : NodeId) (x : Exploration Step χ) :
    WalkCall χ where
  depth := (t.size + 1) * (t.size + 1)
  roots := [covering]
  root := covering
  start := x.stack.size
  node := covering
  exploration := x

/-- The state in which the node of a call is entered: frames above its parent are gone. -/
def unwound (call : WalkCall χ) (entry : SearchTree.Node ProgramState Step) : Exploration Step χ :=
  { call.exploration with stack := call.exploration.stack.unwindTo call.start entry.parent }

/-- A call makes another one: for a child, after those for later children, or, below a covered node, for
the node that covers it. -/
inductive Makes (ctx : Context ProgramState Step Empty) (realSize : Nat) :
    WalkCall χ → WalkCall χ → Prop where
  | child {call : WalkCall χ} {depth : Nat} {entry : SearchTree.Node ProgramState Step}
    {earlier later : List NodeId} {k : NodeId} {y z : Exploration Step χ} : call.depth = depth + 1 →
    ctx.tree.node? call.node = some entry →
    Exploration.enterVirtual ctx realSize call.start call.root call.node (call.unwound entry) =
      .ok true y → entry.covering = none → entry.children.reverse = earlier ++ k :: later →
    earlier.forM (Exploration.walkVirtual ctx realSize depth call.roots call.root call.start) y =
      .ok () z → Makes ctx realSize call { call with depth, node := k, exploration := z }
  | nested {call : WalkCall χ} {depth : Nat} {entry : SearchTree.Node ProgramState Step} {c : NodeId}
    {y : Exploration Step χ} : call.depth = depth + 1 → ctx.tree.node? call.node = some entry →
    Exploration.enterVirtual ctx realSize call.start call.root call.node (call.unwound entry) =
      .ok true y → entry.covering = some c → c ∉ call.roots →
    Makes ctx realSize call ⟨depth, c :: call.roots, c, y.stack.size, c, y⟩

/-- The node of a call is pushed, and after that the walk is cut off. -/
def CutsOff (ctx : Context ProgramState Step Empty) (realSize : Nat) (call : WalkCall χ)
    (y : Exploration Step χ) : Prop :=
  call.node ≠ call.root ∧ ∃ entry, ctx.tree.node? call.node = some entry ∧
    Exploration.push ctx call.node call.start (call.unwound entry) = .ok true y ∧
    y.stack.top?.all (·.isCutOffFrom realSize)

variable {ctx : Context ProgramState Step Empty} {realSize : Nat} {call call' : WalkCall χ}

/-- What a call comes to. -/
def run (ctx : Context ProgramState Step Empty) (realSize : Nat) (call : WalkCall χ) :
    EStateM.Result (Halt Empty) (Exploration Step χ) Unit :=
  Exploration.walkVirtual ctx realSize call.depth call.roots call.root call.start call.node
    call.exploration

omit [ChoiceSource χ] in
theorem lookUp_eq {e : SearchTree.Node ProgramState Step} {x : Exploration Step χ} {n : NodeId}
    (hn : ctx.tree.node? n = some e) : Exploration.lookUp ctx n x = .ok e x := by
  unfold Exploration.lookUp
  rw [hn]
  rfl

/-- A call enters its node and goes on from there. -/
theorem run_eq {depth : Nat} {entry : SearchTree.Node ProgramState Step} {below : Bool}
    {y : Exploration Step χ} (hdepth : call.depth = depth + 1) (hn : ctx.tree.node? call.node = some entry)
    (henter : Exploration.enterVirtual ctx realSize call.start call.root call.node (call.unwound entry) =
      .ok below y) : call.run ctx realSize =
      Exploration.walkBelow ctx realSize depth call.roots call.root call.start entry below y := by
  unfold run
  rw [hdepth, Exploration.walkVirtual_succ, bind_of_ok (lookUp_eq hn)]
  show (Exploration.enterVirtual ctx realSize call.start call.root call.node >>= _)
    (call.unwound entry) = _
  rw [bind_of_ok henter]

/-- A call goes on with the call that it makes. After that, it goes on with the children that are left,
or takes the frames of a walk of its own away. -/
theorem Makes.run_eq (h : Makes ctx realSize call call') : ∃ rest : ExploreM Step χ Empty Unit,
    call.run ctx realSize = (do
      Exploration.walkVirtual ctx realSize call'.depth call'.roots call'.root call'.start call'.node
      rest) call'.exploration ∧
    (rest = Exploration.updateStack (·.truncate call'.start) ∨
      ∃ (depth : Nat) (entry : SearchTree.Node ProgramState Step) (later : List NodeId),
        call.depth = depth + 1 ∧ call'.start = call.start ∧ ctx.tree.node? call.node = some entry ∧
        entry.covering = none ∧ (∀ c ∈ later, c ∈ entry.children) ∧ rest = later.forM
          (Exploration.walkVirtual ctx realSize depth call.roots call.root call.start)) := by
  cases h with
  | @child depth entry earlier later k y z hdepth hn henter huncovered hchildren hearlier =>
    refine ⟨later.forM (Exploration.walkVirtual ctx realSize depth call.roots call.root call.start), ?_,
      .inr ⟨depth, entry, later, hdepth, rfl, hn, huncovered, fun c hc => ?_, rfl⟩⟩
    · rw [WalkCall.run_eq hdepth hn henter]
      -- the loop over the children comes to `k` after the earlier ones
      have hsplit : ∀ f : NodeId → ExploreM Step χ Empty Unit, (earlier ++ k :: later).forM f =
          (do earlier.forM f; (k :: later).forM f) := fun _ => List.forM_append
      simp only [Exploration.walkBelow, if_true, huncovered, hchildren, hsplit]
      exact bind_of_ok hearlier
    · rw [← List.mem_reverse, hchildren]
      simp [hc]
  | @nested depth entry c y hdepth hn henter hcovering hfresh =>
    refine ⟨Exploration.updateStack (·.truncate y.stack.size), ?_, .inl rfl⟩
    rw [WalkCall.run_eq hdepth hn henter]
    simp only [Exploration.walkBelow, if_true, hcovering, List.contains_eq_mem, hfresh, decide_false,
      Bool.not_false]
    rfl

/-- A call that is cut off ends there, and that is counted. -/
theorem CutsOff.run_eq {depth : Nat} {y : Exploration Step χ} (h : call.CutsOff ctx realSize y)
    (hdepth : call.depth = depth + 1) : call.run ctx realSize =
      .ok () { y with counters := { y.counters with
        virtualCutoffs := y.counters.virtualCutoffs + 1 } } := by
  obtain ⟨hroot, entry, hn, hpush, hcut⟩ := h
  have henter : Exploration.enterVirtual ctx realSize call.start call.root call.node
      (call.unwound entry) = .ok false { y with counters := { y.counters with
        virtualCutoffs := y.counters.virtualCutoffs + 1 } } := by
    unfold Exploration.enterVirtual
    rw [if_neg hroot, bind_of_ok hpush]
    show (if y.stack.top?.all (·.isCutOffFrom realSize) then _ else _ :
      ExploreM Step χ Empty Bool) y = _
    rw [if_pos hcut]
    rfl
  rw [WalkCall.run_eq hdepth hn henter]
  rfl

/-- The state in which a call goes down from its node, if it does. -/
def entered? (ctx : Context ProgramState Step Empty) (realSize : Nat) (call : WalkCall χ)
    (entry : SearchTree.Node ProgramState Step) : Option (Exploration Step χ) :=
  match Exploration.enterVirtual ctx realSize call.start call.root call.node (call.unwound entry) with
  | .ok true y => some y
  | _ => none

/-- The call that is made for a child, if that has the given place in the order of the walk. -/
def child? (ctx : Context ProgramState Step Empty) (realSize : Nat) (call : WalkCall χ) (place : Nat) :
    Option (WalkCall χ) :=
  match call.depth with
  | 0 => none
  | depth + 1 => do
    let entry ← ctx.tree.node? call.node
    guard (entry.covering = none)
    let y ← call.entered? ctx realSize entry
    let k ← entry.children.reverse[place]?
    match (entry.children.reverse.take place).forM
        (Exploration.walkVirtual ctx realSize depth call.roots call.root call.start) y with
    | .ok () z => some { call with depth, node := k, exploration := z }
    | .error _ _ => none

/-- The call that is reached by going down to the children with the given places. -/
def descend? (ctx : Context ProgramState Step Empty) (realSize : Nat) (call : WalkCall χ) :
    List Nat → Option (WalkCall χ)
  | [] => some call
  | place :: places => do (← call.child? ctx realSize place).descend? ctx realSize places

/-- The state in which a call is cut off, if it is. -/
def cutOff? (ctx : Context ProgramState Step Empty) (realSize : Nat) (call : WalkCall χ) :
    Option (Exploration Step χ) := do
  guard (call.node ≠ call.root)
  let entry ← ctx.tree.node? call.node
  match Exploration.push ctx call.node call.start (call.unwound entry) with
  | .ok true y => if y.stack.top?.all (·.isCutOffFrom realSize) then some y else none
  | _ => none

theorem enterVirtual_of_entered? {entry : SearchTree.Node ProgramState Step} {y : Exploration Step χ}
    (h : call.entered? ctx realSize entry = some y) :
    Exploration.enterVirtual ctx realSize call.start call.root call.node (call.unwound entry) =
      .ok true y := by
  unfold entered? at h
  split at h
  · rename_i z hz
    exact Option.some.inj h ▸ hz
  · cases h

theorem Makes.of_child? {place : Nat} (h : call.child? ctx realSize place = some call') :
    Makes ctx realSize call call' := by
  unfold child? at h
  split at h
  · cases h
  rename_i depth hdepth
  obtain ⟨entry, hn, h⟩ := Option.bind_eq_some_iff.1 h
  obtain ⟨_, huncovered, h⟩ := Option.bind_eq_some_iff.1 h
  obtain ⟨y, hentered, h⟩ := Option.bind_eq_some_iff.1 h
  obtain ⟨k, hk, h⟩ := Option.bind_eq_some_iff.1 h
  split at h
  · rename_i z hearlier
    obtain rfl := Option.some.inj h
    obtain ⟨hplace, rfl⟩ := List.getElem?_eq_some_iff.1 hk
    have hsplit : entry.children.reverse = entry.children.reverse.take place ++
        entry.children.reverse[place] :: entry.children.reverse.drop (place + 1) := by
      rw [← List.drop_eq_getElem_cons hplace, List.take_append_drop]
    exact .child hdepth hn (enterVirtual_of_entered? hentered)
      ((Option.guard_eq_some' _).1 huncovered) hsplit hearlier
  · cases h

theorem makes_of_descend? {places : List Nat} (h : call.descend? ctx realSize places = some call') :
    Relation.ReflTransGen (Makes ctx realSize) call call' := by
  induction places generalizing call with
  | nil =>
    obtain rfl := Option.some.inj h
    exact .refl
  | cons place places ih =>
    obtain ⟨next, hnext, h⟩ := Option.bind_eq_some_iff.1 h
    exact .head (.of_child? hnext) (ih h)

theorem cutsOff_of_cutOff? {y : Exploration Step χ} (h : call.cutOff? ctx realSize = some y) :
    call.CutsOff ctx realSize y := by
  obtain ⟨_, hnode, h⟩ := Option.bind_eq_some_iff.1 h
  obtain ⟨entry, hn, h⟩ := Option.bind_eq_some_iff.1 h
  split at h
  · rename_i z hpush
    split at h
    · rename_i hcut
      obtain rfl := Option.some.inj h
      exact ⟨(Option.guard_eq_some' _).1 hnode, entry, hn, hpush, hcut⟩
    · cases h
  · cases h

/-- At a call of a walk below `origin` that began with `base` frames, `I` holds of the exploration. -/
structure Satisfies (I : Exploration Step χ → Prop) (t : SearchTree ProgramState Step) (origin : NodeId)
    (base : Nat) (call : WalkCall χ) : Prop where
  holds : I call.exploration
  base_le : base ≤ call.start
  walking : Walking t origin call.depth call.roots call.root call.start call.node call.exploration.stack

end WalkCall

namespace Orderly

variable [ChoiceSource χ] [LawfulChoiceSource χ]

/-- A node that a walk looks into is pushed. -/
theorem pushChild {start : Nat} (ht : t.Sound p) (h : Orderly p t x) (hstart : start ≤ x.stack.size)
    (hcovered : x.stack.IsCoveredBelow t start) (hm : t.node? m = some entry)
    (hk : k ∈ entry.children) :
    Succeeds (Exploration.push (p.context precision t settings) k start) x fun isNew x' =>
      Orderly p t x' ∧ x.stack.Rests x.stack.size x'.stack ∧
        (isNew = true → x'.stack.topNode? = some k) := by
  have hsize := Nat.lt_of_lt_of_le hcovered.1 hstart
  refine (Ends.pushChild_moves ht h hm hk hsize).imp fun isNew x' hx' => ?_
  exact ⟨Exploration.Move.orderly_trail ht h hx'.1, hx'.2.2⟩

end Orderly

namespace WalkKeeps

variable [ChoiceSource χ] {origin : NodeId} {base : Nat} {I : Exploration Step χ → Prop}

/-- The sets of all nodes stay in order. -/
theorem orderly [LawfulChoiceSource χ] (ht : t.Sound p) :
    WalkKeeps p precision t settings origin base fun y : Exploration Step χ => Orderly p t y where
  keep _ _ hy hstack htable _ := hy.of_eq hstack fun _ => by rw [htable]
  cut _ _ hy hcut := hy.cut ht (hcut.mono (Nat.zero_le _))
  push _ _ _ _ _ hy _ hstart hcovered _ hm _ hc := hy.pushChild ht hstart hcovered hm hc

end WalkKeeps

namespace WalkCall

variable [ChoiceSource χ] {origin : NodeId} {base realSize : Nat} {call call' : WalkCall χ}
  {I : Exploration Step χ → Prop} (ht : t.Sound p) (hclosed : t.Closed)
  (hkeeps : WalkKeeps p precision t settings origin base I)
include ht hclosed hkeeps

/-- The calls for children of a node that is not covered come to an end, and leave the frames below the walk
as they are. -/
theorem Satisfies.walkChildren {J : Exploration Step χ → Prop} {depth : Nat} {cs : List NodeId}
    {y : Exploration Step χ} (h : call.Satisfies J t origin base) (hdepth : call.depth = depth + 1)
    (hn : t.node? call.node = some entry) (huncovered : entry.covering = none)
    (hcs : ∀ c ∈ cs, c ∈ entry.children) (hy : I y)
    (hrests : call.exploration.stack.Rests call.start y.stack) :
    Succeeds (cs.forM (Exploration.walkVirtual (p.context precision t settings) realSize depth call.roots
      call.root call.start)) y fun _ z => I z ∧ call.exploration.stack.Rests call.start z.stack := by
  have hwalking := h.walking
  rw [hdepth] at hwalking
  refine Ends.forM (I := fun z => I z ∧ call.exploration.stack.Rests call.start z.stack) ⟨hy, hrests⟩
    fun c hc z hz => ?_
  exact (Ends.walkVirtual_ends hkeeps ht hclosed hz.1 h.base_le (hwalking.child hn ht huncovered
    (hcs c hc) hz.2)).imp fun _ z' hz' => ⟨hz'.1, hz.2.trans hz'.2 (Nat.le_refl _)⟩

/-- The call that another one makes. The frames below the walk stay as they are until then. -/
theorem Satisfies.makes (h : call.Satisfies I t origin base)
    (hmakes : Makes (p.context precision t settings) realSize call call') :
    call'.Satisfies I t origin base ∧
      call.exploration.stack.Rests call.start call'.exploration.stack := by
  have hwalking := h.walking
  cases hmakes with
  | @child depth entry earlier later k y z hdepth hn henter huncovered hchildren hearlier =>
    rw [hdepth] at hwalking
    obtain ⟨hy, hrests, -⟩ := (Ends.walkEnter_ends hkeeps h.holds h.base_le hwalking).of_ok henter
    have hmem : ∀ c, c ∈ earlier ∨ c = k → c ∈ entry.children := by
      intro c hc
      rw [← List.mem_reverse, hchildren]
      simpa using hc.imp_right .inl
    have hz := (h.walkChildren ht hclosed hkeeps hdepth hn huncovered (fun c hc => hmem c (.inl hc)) hy
      hrests).of_ok hearlier
    exact ⟨⟨hz.1, h.base_le, hwalking.child hn ht huncovered (hmem k (.inr rfl)) hz.2⟩, hz.2⟩
  | @nested depth entry c y hdepth hn henter hcovering hfresh =>
    rw [hdepth] at hwalking
    obtain ⟨hy, hrests, hbelow⟩ := (Ends.walkEnter_ends hkeeps h.holds h.base_le hwalking).of_ok henter
    exact ⟨⟨hy, Nat.le_trans h.base_le hrests.size_le,
      hwalking.nested hn hclosed hcovering hfresh hrests (hbelow rfl)⟩, hrests⟩

/-- Below a node that has been entered and is not covered, a call is made for each child. -/
theorem Satisfies.exists_child {y : Exploration Step χ} (h : call.Satisfies I t origin base)
    (hn : t.node? call.node = some entry) (huncovered : entry.covering = none)
    (henter : Exploration.enterVirtual (p.context precision t settings) realSize call.start call.root
      call.node (call.unwound entry) = .ok true y) (hk : k ∈ entry.children) :
    ∃ depth z, Makes (p.context precision t settings) realSize call
      { call with depth, node := k, exploration := z } := by
  have hwalking := h.walking
  obtain ⟨depth, hdepth⟩ : ∃ depth, call.depth = depth + 1 :=
    Nat.exists_eq_add_one_of_ne_zero (Nat.ne_of_gt (Nat.zero_lt_of_lt hwalking.room))
  rw [hdepth] at hwalking
  obtain ⟨hy, hrests, -⟩ := (Ends.walkEnter_ends hkeeps h.holds h.base_le hwalking).of_ok henter
  obtain ⟨earlier, later, hchildren⟩ := List.append_of_mem (List.mem_reverse.2 hk)
  have hearlier : ∀ c ∈ earlier, c ∈ entry.children := by
    intro c hc
    rw [← List.mem_reverse, hchildren]
    exact List.mem_append_left _ hc
  obtain ⟨_, z, hearlier, -⟩ :=
    (h.walkChildren ht hclosed hkeeps hdepth hn huncovered hearlier hy hrests).exists_ok
  exact ⟨depth, z, .child hdepth hn henter huncovered hchildren hearlier⟩

/-- All calls of a walk are as the first one. -/
theorem Satisfies.calls (h : call.Satisfies I t origin base)
    (hcalls : Relation.ReflTransGen (Makes (p.context precision t settings) realSize) call call') :
    call'.Satisfies I t origin base := by
  induction hcalls with
  | refl => exact h
  | tail _ hmakes ih => exact (ih.makes ht hclosed hkeeps hmakes).1

variable [LawfulChoiceSource χ]

/-- What holds once a call has entered its node holds when the call is over. -/
theorem Satisfies.run_of_entered (h : call.Satisfies (Orderly p t) t origin base)
    (hn : t.node? call.node = some entry) (henter : Yields (Exploration.enterVirtual
      (p.context precision t settings) realSize call.start call.root call.node) (call.unwound entry)
      fun _ y => Orderly p t y → I y) :
    Succeeds (Exploration.walkVirtual (p.context precision t settings) realSize call.depth call.roots
      call.root call.start call.node) call.exploration fun _ => I := by
  have hwalking := h.walking
  have horderly : WalkKeeps p precision t settings origin base fun y : Exploration Step χ =>
    Orderly p t y := .orderly ht
  cases hdepth : call.depth with
  | zero => exact absurd (hdepth ▸ hwalking.room) (Nat.not_lt_zero _)
  | succ depth =>
    rw [hdepth] at hwalking
    rw [Exploration.walkVirtual_succ]
    refine .bind (.lookUp_of_node? hn (.bind (.modify (.bind (((Ends.walkEnter_ends horderly h.holds
      h.base_le hwalking).both henter).imp fun below y hy => ?_)))))
    obtain ⟨⟨horderly, hrests, hbelow⟩, hI⟩ := hy
    exact (Ends.walkBelow_ends hkeeps ht hclosed (Ends.walkVirtual_ends hkeeps ht hclosed) hn h.base_le
      hwalking (hI horderly) hrests hbelow).imp fun _ _ hx => hx.1

/-- What holds when a call is over holds when the call is over that has made it. -/
theorem Satisfies.run_of_makes (h : call.Satisfies (Orderly p t) t origin base)
    (hmakes : Makes (p.context precision t settings) realSize call call')
    (hrun : Succeeds (Exploration.walkVirtual (p.context precision t settings) realSize call'.depth
      call'.roots call'.root call'.start call'.node) call'.exploration fun _ => I) :
    Succeeds (Exploration.walkVirtual (p.context precision t settings) realSize call.depth call.roots
      call.root call.start call.node) call.exploration fun _ => I := by
  have horderly : WalkKeeps p precision t settings origin base fun y : Exploration Step χ =>
    Orderly p t y := .orderly ht
  obtain ⟨h', hrests⟩ := h.makes ht hclosed horderly hmakes
  have hends := (Ends.walkVirtual_ends horderly ht hclosed h'.holds h'.base_le h'.walking).both hrun.yields
  obtain ⟨rest, heq, hrest⟩ := hmakes.run_eq
  refine .of_run_eq heq (.bind (hends.imp fun _ y hy => ?_))
  obtain ⟨⟨-, hrests'⟩, hI⟩ := hy
  rcases hrest with rfl | ⟨depth, entry, later, hdepth, hstart, hn, huncovered, hlater, rfl⟩
  · exact .modify (hkeeps.cut y _ hI ((SearchStack.Prefix.truncate hrests'.size_le).mono h'.base_le))
  · -- the children that are left
    rw [hstart] at hrests'
    exact (h.walkChildren ht hclosed hkeeps hdepth hn huncovered hlater hI
      (hrests.trans hrests' (Nat.le_refl _))).imp fun _ _ hx => hx.1

/-- What holds when some call is over holds when the one is over from which it has come. -/
theorem Satisfies.run_of_calls (h : call.Satisfies (Orderly p t) t origin base)
    (hcalls : Relation.ReflTransGen (Makes (p.context precision t settings) realSize) call call')
    (hrun : Succeeds (Exploration.walkVirtual (p.context precision t settings) realSize call'.depth
      call'.roots call'.root call'.start call'.node) call'.exploration fun _ => I) :
    Succeeds (Exploration.walkVirtual (p.context precision t settings) realSize call.depth call.roots
      call.root call.start call.node) call.exploration fun _ => I := by
  induction hcalls with
  | refl => exact hrun
  | tail hcalls hmakes ih =>
    exact ih ((h.calls ht hclosed (.orderly ht) hcalls).run_of_makes ht hclosed hkeeps hmakes hrun)

end WalkCall

/-! ## Where a walk is cut off -/

namespace SearchTree

/-- The nodes form a path downwards from `n`, through nodes that are not covered. -/
def Descends (t : SearchTree ProgramState Step) : NodeId → List NodeId → Prop
  | _, [] => True
  | n, k :: ns => (∃ e, t.node? n = some e ∧ e.covering = none ∧ k ∈ e.children) ∧ t.Descends k ns

end SearchTree

/-- If `a` depends on a step `c` of another thread, then the thread of `a` has made a step, and its clock
has an entry for the other thread. -/
def Frame.Recalls (precision : Precision) (top : Frame Step) (a c : Step) : Prop :=
  c.process ≠ a.process → Step.Depends precision c a → top.lastAction.hasKey a.process ∧
    (SortedMap.get? (SortedMap.getD top.clocks a.process ∅) c.process).isSome

instance {top : Frame Step} {c : Step} : Decidable (top.Recalls precision a c) :=
  inferInstanceAs (Decidable (c.process ≠ a.process → Step.Depends precision c a →
    top.lastAction.hasKey a.process ∧
      (SortedMap.get? (SortedMap.getD top.clocks a.process ∅) c.process).isSome))

/-- The top frame recalls all steps below `low` on which `a` depends. -/
def SearchStack.RecallsRivals (precision : Precision) (stack : SearchStack Step) (low : Nat) (a : Step) :
    Prop :=
  ∀ j < low, ∀ f ∈ stack.frame? j, ∀ c ∈ f.action, ∀ top ∈ stack.top?, top.Recalls precision a c

instance {stack : SearchStack Step} {low : Nat} : Decidable (stack.RecallsRivals precision low a) :=
  inferInstanceAs (Decidable (∀ j < low, ∀ f ∈ stack.frame? j, ∀ c ∈ f.action, ∀ top ∈ stack.top?,
    top.Recalls precision a c))

/-- In a frame that is cut off, the clock of a thread that has made a step knows from `low` on what it has
an entry for. -/
theorem Frame.knowsFrom_of_isCutOffFrom {f : Frame Step} {low : Nat} {q r : ProcessId}
    (hcut : f.isCutOffFrom low) (hr : f.lastAction.hasKey r)
    (hq : (SortedMap.get? (SortedMap.getD f.clocks r ∅) q).isSome) :
    (SortedMap.getD f.clocks r ∅).KnowsFrom low q := by
  have hmem : r ∈ f.lastAction.keys := List.mem_map.2 (Keyed.hasKey_iff.1 hr)
  have hclock := List.all_eq_true.1 hcut r hmem
  obtain ⟨k, hk⟩ := Option.isSome_iff_exists.1 hq
  cases hget : SortedMap.get? f.clocks r with
  | none =>
    rw [hget] at hclock
    cases hclock
  | some clock =>
    rw [hget] at hclock
    rw [SortedMap.getD, hget, Option.getD_some] at hk ⊢
    have hlow := List.all_eq_true.1 hclock (q, k) (SortedMap.get?_eq_some_iff.1 hk)
    exact ⟨k, by simpa using hlow, hk⟩

theorem SearchStack.RecallsRivals.knowsRivals {stack : SearchStack Step} {low : Nat}
    (h : stack.RecallsRivals precision low a) (hcut : stack.top?.all (·.isCutOffFrom low)) :
    stack.KnowsRivals precision low a := by
  intro top j f c htop hj hf hc hother hdepends
  rw [← SearchStack.top?_eq] at htop
  obtain ⟨hacted, hentry⟩ := h j hj f hf c hc top htop hother hdepends
  rw [htop] at hcut
  exact top.knowsFrom_of_isCutOffFrom hcut hacted hentry

/-- Pushes the nodes of a path one after the other, until one is refused. -/
def Exploration.pushAll [ChoiceSource χ] (ctx : Context ProgramState Step Empty) (limit : Nat) :
    List NodeId → ExploreM Step χ Empty Unit
  | [] => pure ()
  | n :: ns => do if ← push ctx n limit then pushAll ctx limit ns

namespace Ends

open Exploration

variable [ChoiceSource χ] [LawfulChoiceSource χ] {limit low : Nat}

/-- If the clocks know from `low` on all threads that matter, pushes of the nodes of a path make nothing
required at nodes that stand below `low`. -/
theorem pushAll_spares {ns : List NodeId} (ht : t.Sound p) (h : Orderly p t x)
    (htop : x.stack.topNode? = some n) (hlow : low ≤ x.stack.size) (hlimit : limit < x.stack.size)
    (hdown : t.Descends n ns)
    (hknown : ∀ k ∈ ns, ∀ a, t.action k = some a → x.stack.KnowsRivals precision low a) :
    Succeeds (pushAll (p.context precision t settings) limit ns) x fun _ x' =>
      ∀ s, (x'.table.get s).backtrack = (x.table.get s).backtrack ∨
        x.stack.StandsFor low limit s ∨ ∃ k ∈ ns, x.stack.HoldsBelow limit k ∧ s = ⟨k.index⟩ := by
  induction ns generalizing x n with
  | nil => exact .pure fun _ => .inl rfl
  | cons k ns ih =>
    obtain ⟨⟨e, hn, huncovered, hk⟩, hdown⟩ := hdown
    obtain ⟨d, hd, hparent⟩ := SearchTree.parent_eq_some_iff.1 (ht.child n e hn k hk)
    obtain ⟨-, a, -, -, ha, -⟩ := ht.edge k d n hd hparent
    have hsize : 0 < x.stack.size := Nat.zero_lt_of_lt hlimit
    have haction : t.action k = some a := SearchTree.action_eq_some_iff.2 ⟨d, hd, ha⟩
    have hfoot : Yields (push (p.context precision t settings) k limit) x fun isNew x' =>
        Footprint low limit k isNew x x' :=
      push_footprint ht h hd hparent ha hsize hlow (fun hle => absurd hle.1 (Nat.not_le_of_lt hlimit))
        (hknown k List.mem_cons_self a haction)
    refine .bind (((push_moves ht h hd hparent hsize).both hfoot).imp fun isNew y hy => ?_)
    obtain ⟨⟨htrail, -, hrests, hgrown, hpushed, -⟩, hfoot⟩ := hy
    have hchanged : ∀ s, (y.table.get s).backtrack = (x.table.get s).backtrack ∨
        x.stack.StandsFor low limit s ∨
          ∃ j ∈ k :: ns, x.stack.HoldsBelow limit j ∧ s = ⟨j.index⟩ := fun s =>
      (hfoot.backtrack s).imp_right (Or.imp_right fun hs => ⟨k, List.mem_cons_self, hs.2.2, hs.2.1⟩)
    cases isNew with
    | false => exact .pure hchanged
    | true =>
      -- what the clocks know goes on in the new frame, so the rest of the path is a path of this kind
      have hy := Exploration.Move.orderly_trail ht h htrail
      have hgrown : y.stack.size = x.stack.size + 1 := hgrown
      refine (ih hy (hpushed rfl) (by omega) (by omega) hdown fun j hj a ha => ?_).imp
        fun _ y' hy' s => ?_
      · exact hfoot.knowsRivals hrests hgrown hsize hlow (hknown j (List.mem_cons_of_mem k hj) a ha)
      · -- frames below the limit are the same as before
        have hle := Nat.le_of_lt hlimit
        rcases hy' s with hs | hs | ⟨j, hj, hbelow, hs⟩
        · rw [hs]
          exact hchanged s
        · exact .inr (.inl (hrests.standsFor hle (Nat.le_refl _) hs))
        · exact .inr (.inr ⟨j, List.mem_cons_of_mem k hj, hrests.holdsBelow hle (Nat.le_refl _) hbelow,
            hs⟩)

end Ends

namespace Search

variable [ChoiceSource χ] [LawfulChoiceSource χ] {s : Search ProgramState Step χ}
  {allowed : Precision → Prop}

/-- In a walk below the node that covers the current one, at any moment of a session, let the walk be cut
off after some node has been pushed. Then nothing is lost by not going on below that node along a path on
which the clocks recall all that matters: pushes of the nodes of the path would come to an answer, and
would make nothing required because of a race in the real part of the stack. -/
theorem session_cutoffSpares (h : Session p allowed s)
    (htop : s.exploration.stack.topNode? = some n) (hn : s.tree.node? n = some entry)
    (hcovering : entry.covering = some c) {call : WalkCall χ}
    (hcalls : Relation.ReflTransGen (WalkCall.Makes (p.context precision s.tree s.settings)
      s.exploration.stack.size) (.first s.tree c s.exploration) call)
    (hcut : call.CutsOff (p.context precision s.tree s.settings) s.exploration.stack.size y)
    {ns : List NodeId} (hdown : s.tree.Descends call.node ns)
    (hrecalls : ∀ k ∈ ns, ∀ a, s.tree.action k = some a →
      y.stack.RecallsRivals precision s.exploration.stack.size a) :
    Succeeds (Exploration.pushAll (p.context precision s.tree s.settings) call.start ns) y fun _ y' =>
      ∀ id, (y'.table.get id).backtrack = (y.table.get id).backtrack ∨
        y.stack.StandsFor s.exploration.stack.size call.start id ∨
        ∃ k ∈ ns, y.stack.HoldsBelow call.start k ∧ id = ⟨k.index⟩ := by
  have ho := h.isOrderly
  have hcall : call.Satisfies (Orderly p s.tree) s.tree c s.exploration.stack.size :=
    .calls ho.sound ho.closed (.orderly ho.sound)
      ⟨ho.orderly, Nat.le_refl _, .first ho.closed htop hn hcovering⟩ hcalls
  obtain ⟨hroot, d, hd, hpush, hcut⟩ := hcut
  obtain ⟨m, e, -, hm, -, hk⟩ := (hcall.walking.place.resolve_left fun hplace => hroot hplace.1).2
  obtain ⟨d', hd', hparent⟩ := SearchTree.parent_eq_some_iff.1 (ho.sound.child m e hm call.node hk)
  obtain rfl : d' = d := Option.some.inj (hd'.symm.trans hd)
  -- the node is put on top, so more than the frames below the walk are there
  have hunwinds : call.exploration.stack.Prefix call.start (call.unwound d').stack :=
    .unwindTo hcall.walking.start_le
  have hunwound : Orderly p s.tree (call.unwound d') :=
    hcall.holds.cut ho.sound (hunwinds.mono (Nat.zero_le _))
  have hstart := hunwinds.size_le
  obtain ⟨htrail, -, -, hgrown, hpushed, -⟩ := (Ends.push_moves ho.sound hunwound hd hparent
    (Nat.lt_of_lt_of_le hcall.walking.covered.1 hstart)).of_ok hpush
  have hgrown : y.stack.size = (call.unwound d').stack.size + 1 := hgrown
  have hbase := hcall.base_le
  have hy : Orderly p s.tree y := Exploration.Move.orderly_trail ho.sound hunwound htrail
  exact Ends.pushAll_spares ho.sound hy (hpushed rfl) (by omega) (by omega) hdown
    fun k hk a ha => (hrecalls k hk a ha).knowsRivals hcut

/-- Two threads write to the same variable in turn, and in the end the second one writes alone. -/
def trailingWriter : Program :=
  (Program.empty.thread [.write "x" 1, .write "x" 1]).thread [.write "x" 2, .write "x" 2, .write "x" 2]

/-- In `trailingWriter`, all steps have been followed, down to node 5, and then the first one has been
taken once more. Its node 6 is covered by node 1, where the same step leads. -/
def retaken : Option (Search ProgramState Step Seeded) :=
  retread trailingWriter (Seeded.ofSeed 0) [⟨⟨0⟩, 0, .write "x" 1⟩, ⟨⟨1⟩, 0, .write "x" 2⟩,
    ⟨⟨0⟩, 1, .write "x" 1⟩, ⟨⟨1⟩, 1, .write "x" 2⟩, ⟨⟨1⟩, 2, .write "x" 2⟩] ⟨⟨0⟩, 0, .write "x" 1⟩ ⟨1⟩

/-- The walk below node 1 is cut off at node 4. The last step, which leads on to node 5, depends on the
step below the real part of the stack. -/
theorem session_cutoffSpares_retaken : ∃ (s : Search ProgramState Step Seeded) (call : WalkCall Seeded)
    (y y' : Exploration Step Seeded), Session trailingWriter (· = none) s ∧
    call.CutsOff (trailingWriter.context none s.tree s.settings) s.exploration.stack.size y ∧
    Exploration.pushAll (trailingWriter.context none s.tree s.settings) call.start [⟨5⟩] y = .ok () y' ∧
    y'.stack.topNode? = some ⟨5⟩ ∧
    (y'.table.get ⟨0⟩).backtrack = (y.table.get ⟨0⟩).backtrack := by
  let last : Step := ⟨⟨1⟩, 2, .write "x" 2⟩
  have heval : retaken.any (fun s =>
      let ctx := trailingWriter.context none s.tree s.settings
      s.exploration.stack.topNode? == some ⟨6⟩ && s.exploration.stack.size == 2 &&
      (s.tree.node? ⟨6⟩).any (·.covering == some ⟨1⟩) && s.tree.action ⟨5⟩ == some last &&
      (s.tree.node? ⟨4⟩).any (fun d => d.covering == none && decide (⟨5⟩ ∈ d.children)) &&
      ((WalkCall.first s.tree ⟨1⟩ s.exploration).descend? ctx 2 [0, 0, 0]).any fun call =>
        call.node == ⟨4⟩ && call.start == 2 && (call.cutOff? ctx 2).any fun y =>
          decide (y.stack.RecallsRivals none 2 last) &&
          endedWith (fun _ y' => y'.stack.topNode? == some ⟨5⟩)
            (Exploration.pushAll ctx call.start [⟨5⟩] y)) = true := by
    decide +kernel +revert
  obtain ⟨s, hs, heval⟩ := (Option.any_eq_true _ _).1 heval
  simp only [Bool.and_eq_true, beq_iff_eq] at heval
  obtain ⟨⟨⟨⟨⟨htop, hsize⟩, hcovered⟩, haction⟩, hdown⟩, heval⟩ := heval
  obtain ⟨entry, hn, hcovering⟩ := (Option.any_eq_true _ _).1 hcovered
  obtain ⟨d, hd, hedge⟩ := (Option.any_eq_true _ _).1 hdown
  obtain ⟨call, hcall, heval⟩ := (Option.any_eq_true _ _).1 heval
  simp only [Bool.and_eq_true, beq_iff_eq, decide_eq_true_eq] at hedge heval
  obtain ⟨⟨hnode, hstart⟩, heval⟩ := heval
  obtain ⟨y, hy, heval⟩ := (Option.any_eq_true _ _).1 heval
  rw [Bool.and_eq_true, decide_eq_true_eq] at heval
  obtain ⟨hrecalls, heval⟩ := heval
  obtain ⟨_, y', hpushed, htop'⟩ := exists_of_endedWith heval
  have hsession := session_retread hs
  rw [← hsize] at hcall hy hrecalls
  have hdescends : s.tree.Descends call.node [⟨5⟩] := ⟨⟨d, hnode ▸ hd, hedge⟩, trivial⟩
  have hspares := (session_cutoffSpares hsession htop hn (beq_iff_eq.1 hcovering)
    (WalkCall.makes_of_descend? hcall) (WalkCall.cutsOff_of_cutOff? hy) hdescends fun k hk a ha => by
      obtain rfl := List.mem_singleton.1 hk
      obtain rfl := Option.some.inj (haction.symm.trans ha)
      exact hrecalls).of_ok hpushed
  refine ⟨s, call, y, y', hsession, WalkCall.cutsOff_of_cutOff? hy, hpushed, beq_iff_eq.1 htop', ?_⟩
  rcases hspares ⟨0⟩ with hsame | ⟨i, f, hlow, hi, -⟩ | ⟨k, hk, -, hid⟩
  · exact hsame
  · omega
  · obtain rfl := List.mem_singleton.1 hk
    cases hid

end Search

namespace Engine

/-- The first thread writes to two variables, the second one writes to one and reads the other. -/
def bracketing : Program :=
  (Program.empty.thread [.write "y" 1, .write "x" 1, .write "x" 1, .write "y" 1]).thread
    [.write "y" 1, .read "x"]

/-- In `bracketing`, node 16 gets covered by node 8. The walk below node 8 is cut off at node 10, but a
push of its child, node 11, would make a step required at node 14, which stands in the real part of the
stack. -/
theorem cutoff_loses_bracketing :
    let lost : Step := ⟨⟨0⟩, 1, .write "x" 1⟩
    ∃ (e : Engine) (call : WalkCall Seeded) (y y' : Exploration Step Seeded),
      (create bracketing { exploration := .ofSeed 3, covering := true } 0).ComesTo e ∧
      e.search.exploration.stack.topNode? = some ⟨16⟩ ∧
      (e.tree.node? ⟨16⟩).bind (·.covering) = some ⟨8⟩ ∧
      e.search.exploration.stack.Holds ⟨14⟩ ∧
      Relation.ReflTransGen (WalkCall.Makes e.context e.search.exploration.stack.size)
        (.first e.tree ⟨8⟩ e.search.exploration) call ∧
      call.CutsOff e.context e.search.exploration.stack.size y ∧
      e.tree.Descends call.node [⟨11⟩] ∧
      Exploration.pushAll e.context call.start [⟨11⟩] y = .ok () y' ∧
      lost ∉ (y.table.get ⟨14⟩).backtrack.toList ∧ lost ∈ (y'.table.get ⟨14⟩).backtrack.toList := by
  intro lost
  have heval : (create bracketing { exploration := .ofSeed 3, covering := true } 0).passesAfter 20
      (fun e =>
        let ctx := e.context
        let realSize := e.search.exploration.stack.size
        e.search.exploration.stack.topNode? == some ⟨16⟩ &&
        (e.tree.node? ⟨16⟩).bind (·.covering) == some ⟨8⟩ &&
        (e.search.exploration.stack.frame? 1).any (·.node == ⟨14⟩) &&
        ((WalkCall.first e.tree ⟨8⟩ e.search.exploration).descend? ctx realSize [1, 0]).any fun call =>
          (e.tree.node? call.node).any (fun d => d.covering == none && decide (⟨11⟩ ∈ d.children)) &&
          (call.cutOff? ctx realSize).any fun y =>
            decide (lost ∉ (y.table.get ⟨14⟩).backtrack.toList) &&
            endedWith (fun _ y' => decide (lost ∈ (y'.table.get ⟨14⟩).backtrack.toList))
              (Exploration.pushAll ctx call.start [⟨11⟩] y)) = true := by
    decide +kernel +revert
  obtain ⟨e, hcomes, heval⟩ := exists_comesTo heval
  simp only [Bool.and_eq_true, beq_iff_eq] at heval
  obtain ⟨⟨⟨htop, hcovering⟩, hstands⟩, heval⟩ := heval
  obtain ⟨f, hf, hnode⟩ := (Option.any_eq_true _ _).1 hstands
  obtain ⟨call, hcall, heval⟩ := (Option.any_eq_true _ _).1 heval
  rw [Bool.and_eq_true] at heval
  obtain ⟨hdown, heval⟩ := heval
  obtain ⟨d, hd, hedge⟩ := (Option.any_eq_true _ _).1 hdown
  obtain ⟨y, hy, heval⟩ := (Option.any_eq_true _ _).1 heval
  simp only [Bool.and_eq_true, beq_iff_eq, decide_eq_true_eq] at hedge heval
  obtain ⟨habsent, heval⟩ := heval
  obtain ⟨_, y', hpushed, hpresent⟩ := exists_of_endedWith heval
  exact ⟨e, call, y, y', hcomes, htop, hcovering, ⟨1, f, hf, beq_iff_eq.1 hnode⟩,
    WalkCall.makes_of_descend? hcall, WalkCall.cutsOff_of_cutOff? hy,
    ⟨⟨d, hd, hedge⟩, trivial⟩, hpushed, habsent, of_decide_eq_true hpresent⟩

end Engine

end Interleaving
