import Interleaving.Proofs.Frames

/-!
# What frames remember stays true

Outside of walks below covering nodes, the stack of an exploration changes by additions and pops only, and
a walk leaves it as it was apart from locks (`Exploration.Advance`). So at each moment of a session that
is not within a walk, the stack is the path of the tree to the current node, and its frames remember the
run along it (`Search.session_remembers`). No source of choices can break that: one that answers out of
range may bring an operation to a halt, but never in the middle of a walk.
-/

namespace Interleaving

variable {p : Program} {precision : Precision} {t : SearchTree ProgramState Step}
  {settings : Settings} {χ : Type} {x x' y : Exploration Step χ} {n m c : NodeId}
  {entry : SearchTree.Node ProgramState Step} {a : Step} {s : StateId}

/-! ## Walks come to an end -/

theorem Stacked.standsIn {stack stack' : SearchStack Step} (h : Stacked t stack n entry stack')
    (hstands : stack.StandsIn t) (hn : t.node? n = some entry) : stack'.StandsIn t := by
  cases h with
  | root => exact hstands.push ⟨entry, hn⟩
  | child => exact (hstands.relocks (.releaseAll stack _)).push ⟨entry, hn⟩

namespace Ends

open Exploration

variable [ChoiceSource χ]

/-- A child is pushed in a walk. -/
theorem pushChild_stands {limit : Nat} (ht : t.Sound p) (hstands : x.stack.StandsIn t)
    (hsize : 0 < x.stack.size) (hm : t.node? m = some entry) (hc : c ∈ entry.children) :
    Succeeds (Exploration.push (p.context precision t settings) c limit) x fun isNew x' =>
      x'.stack.StandsIn t ∧ x.stack.Rests x.stack.size x'.stack ∧
        (isNew = true → x'.stack.topNode? = some c) := by
  obtain ⟨b, hedge⟩ := ht.exists_edge_of_child hm hc
  obtain ⟨child, hchild, -, haction⟩ := SearchTree.edge_iff.1 hedge
  have hanswers : Succeeds (Exploration.push (p.context precision t settings) c limit) x
      fun _ _ => True := by
    unfold Exploration.push
    refine .bind (.lookUp_of_node? hchild ?_)
    rw [haction]
    exact (pushStep_account ht hstands hsize).imp fun _ _ _ => trivial
  refine (hanswers.both push_stacked).imp fun isNew x' ⟨_, hrefused, hpushed⟩ => ?_
  cases isNew with
  | false =>
    rw [hrefused rfl]
    exact ⟨hstands, .refl (Nat.le_refl _), nofun⟩
  | true =>
    obtain ⟨e, he, hstacked⟩ := hpushed rfl
    exact ⟨hstacked.standsIn hstands he, hstacked.rests, fun _ => hstacked.topNode?_eq⟩

/-- The walk below the node that covers the current one comes to an end, whatever the source of choices
answers. -/
theorem virtualExploration_answers (ht : t.Sound p) (hclosed : t.Closed) (hstands : x.stack.StandsIn t)
    (htop : x.stack.topNode? = some n) (hn : t.node? n = some entry)
    (hcovering : entry.covering = some c) :
    Succeeds (virtualExploration (p.context precision t settings) c) x fun _ _ => True := by
  refine (virtualExploration_ends (I := fun y => y.stack.StandsIn t) ⟨?_, ?_, ?_⟩ ht hclosed hstands
    (Nat.zero_le _) htop hn hcovering).imp fun _ _ _ => trivial
  · exact fun y y' hy hstack _ _ => hstack ▸ hy
  · exact fun y stack hy hcut => hy.shrink hcut
  · intro y start m e c hy _ hstart hcovered _ hm _ hc
    exact pushChild_stands ht hy (Nat.lt_of_lt_of_le hcovered.1 hstart) hm hc

omit [ChoiceSource χ] in
/-- Taking a step leaves the stack alone. -/
theorem recordTaken_rest {enabled : ActionSet Step} :
    EndsIn (Exploration.recordTaken s enabled a : ExploreM Step χ Empty Unit) x
      fun x' => x'.stack = x.stack := by
  unfold Exploration.recordTaken
  refine .bind (.modify (.bind (.get ?_)))
  dsimp only
  split
  · exact .throw rfl
  · exact .pure rfl

/-- The offer of a step leaves the stack alone. -/
theorem nextAction_rest : EndsIn (Exploration.nextAction (p.context precision t settings) s) x
    fun x' => x'.stack = x.stack := by
  unfold Exploration.nextAction
  refine .bind (.get ?_)
  split
  · exact .throw rfl
  refine .bind (.lookUp_or rfl fun entry _ => ?_)
  split
  · exact .throw rfl
  refine .bind (.get (.bind (.choose_any fun r choices => ?_)))
  cases r with
  | none => exact .pure rfl
  | some b => exact .bind (.enabledAt (.bind (recordTaken_rest.imp fun _ x' hx' => .pure hx')))

end Ends

/-! ## What happens between two moments -/

namespace Exploration

variable [ChoiceSource χ]

/-- What can happen between two moments that are not within a walk below a covering node. The stack
changes by additions, walks and pops only. -/
inductive Advance (p : Program) (precision : Precision) (t : SearchTree ProgramState Step)
    (settings : Settings) (x : Exploration Step χ) : Exploration Step χ → Prop where
  | add {x' : Exploration Step χ} {n : NodeId} {e : SearchTree.Node ProgramState Step} {isNew : Bool} :
    t.node? n = some e → add (p.context precision t settings) n x = .ok isNew x' →
    Advance p precision t settings x x'
  /-- The walk below the node that covers the current one, from its beginning to its end. -/
  | walk {x' : Exploration Step χ} {n c : NodeId} {e : SearchTree.Node ProgramState Step} :
    x.stack.topNode? = some n → t.node? n = some e → e.covering = some c →
    virtualExploration (p.context precision t settings) c x = .ok () x' →
    Advance p precision t settings x x'
  | pop {x' : Exploration Step χ} : popFrame (p.context precision t settings) x = .ok () x' →
    Advance p precision t settings x x'
  | rest {x' : Exploration Step χ} : x'.stack = x.stack → Advance p precision t settings x x'

/-- From one moment to another. -/
abbrev Advances (p : Program) (precision : Precision) (t : SearchTree ProgramState Step)
    (settings : Settings) : Exploration Step χ → Exploration Step χ → Prop :=
  Relation.ReflTransGen (Advance p precision t settings)

/-- The frames stay exact. -/
theorem Advance.exact (ht : t.Sound p) (h : EachFrame (FrameExact p precision) t x.stack)
    (hadvance : Advance p precision t settings x x') :
    EachFrame (FrameExact p precision) t x'.stack := by
  cases hadvance with
  | add hn hadd => exact (Ends.add_exact ht h hn).of_ok hadd
  | walk _ _ _ hwalk =>
    exact h.relocks (fun _ _ _ => .of_locks) (Ends.virtualExploration_relocks.of_ok hwalk)
  | pop hpop =>
    rw [((Ends.popFrame (p := p) (t := t)).of_ok hpop).stack]
    exact h.pop
  | rest hstack => exact hstack ▸ h

theorem Advances.exact (ht : t.Sound p) (h : EachFrame (FrameExact p precision) t x.stack)
    (hadvances : Advances p precision t settings x y) :
    EachFrame (FrameExact p precision) t y.stack := by
  induction hadvances with
  | refl => exact h
  | tail _ hlast ih => exact hlast.exact ht ih

/-! ## Calls -/

section Calls

variable (ht : t.Sound p) (h : EachFrame (FrameExact p precision) t x.stack)
  (hy : Advances p precision t settings x y)
include ht h hy

/-- A node of the tree is added, or refused. -/
theorem Advances.add (hn : t.node? n = some entry) :
    EndsIn (Exploration.add (p.context precision t settings) n) y (Advances p precision t settings x) := by
  have hexact := hy.exact ht h
  refine (Ends.add_settles hn hy (fun hempty => ?_) fun m htop hparent => ?_).endsIn
  · exact ((Ends.addRoot_ends ht hempty hn).and_ok).imp fun _ _ hy' => hy.tail (.add hn hy'.2)
  · exact ((Ends.addChild_exact ht hexact htop hn hparent).and_ok).imp
      fun _ _ hy' => hy.tail (.add hn hy'.2)

theorem Advances.exploreLazily :
    EndsIn (Exploration.exploreLazily (p.context precision t settings)) y
      (Advances p precision t settings x) := by
  refine Ends.exploreLazily (fun _ hz => hz) (fun z z' hz hstack _ => hz.tail (.rest hstack)) hy
    fun z top e c a hz htop hn hedge => ?_
  obtain ⟨-, hedge, -⟩ := Ends.of_mem_replayableEdges ht hn hedge
  obtain ⟨child, hchild⟩ := hedge.exists_node
  refine .bind (Ends.recordTaken_rest.mono (fun _ z₁ hstack => .bind (.modify ?_))
    fun z₁ hstack => hz.tail (.rest hstack))
  exact Advances.add ht h (hz.tail (.rest hstack)) hchild

/-- The question for the end of a round. -/
theorem Advances.isEmpty (hclosed : t.Closed) :
    EndsIn (Exploration.isEmpty (p.context precision t settings)) y
      (Advances p precision t settings x) := by
  refine (Ends.isEmpty (fun _ hz => hz) hy ?_ ?_ fun z hz => hz.exploreLazily ht h).imp
    fun _ _ hy' => hy'.1
  · intro z top e covering hz htop hn hcovering
    have hstands := (hz.exact ht h).standsIn ht
    exact ((Ends.virtualExploration_answers ht hclosed hstands htop hn hcovering).and_ok).mono
      (fun _ z' hz' => hz.tail (.walk htop hn hcovering hz'.2)) fun _ hfalse => hfalse.elim
  · intro z top e hz _ _ _
    exact ((Ends.popFrame_account ((hz.exact ht h).standsIn ht)).and_ok).mono
      (fun _ z' hz' => hz.tail (.pop hz'.2)) fun _ hfalse => hfalse.elim

omit hy in
/-- Whatever a client asks for. -/
theorem Call.advances (hclosed : t.Closed) {call : Call}
    (hnodes : ∀ n ∈ call.nodes, ∃ e, t.node? n = some e) :
    EndsIn (call.perform (p.context precision t settings)) x (Advances p precision t settings x) := by
  have hadd : ∀ n ∈ call.nodes, EndsIn (Exploration.add (p.context precision t settings) n) x
      (Advances p precision t settings x) := by
    intro n hn
    obtain ⟨e, he⟩ := hnodes n hn
    exact Advances.add ht h .refl he
  have hempty : EndsIn (Exploration.isEmpty (p.context precision t settings)) x
      (Advances p precision t settings x) := Advances.isEmpty ht h .refl hclosed
  -- a call that adds many nodes halts after the first of them
  cases call with
  | add n => exact .bind ((hadd n (List.mem_singleton_self n)).imp fun _ _ hx' => .pure hx')
  | addAll ns =>
    rcases ns with - | ⟨n, - | ⟨m, ns⟩⟩
    · exact .bind (.pure (.pure .refl))
    · exact .bind (.bind ((hadd n (List.mem_singleton_self n)).imp fun _ _ hx' => .pure (.pure hx')))
    · exact .bind (.throw .refl)
  | isEmpty => exact .bind (hempty.imp fun _ _ hx' => .pure hx')
  | remove =>
    refine .bind (.bind (hempty.imp fun b x' hx' => ?_))
    cases b with
    | true => exact .throw hx'
    | false =>
      refine .bind (.get ?_)
      split
      · exact .pure (.pure hx')
      · exact .throw hx'
  | nextAction s =>
    exact Ends.nextAction_rest.mono (fun _ _ hstack => .single (.rest hstack))
      fun _ hstack => .single (.rest hstack)

end Calls

end Exploration

/-! ## Sessions -/

namespace Search

variable [ChoiceSource χ] {s s' : Search ProgramState Step χ}

/-- What can happen in a search between two moments, with the same variables tracked all the time. -/
inductive Advance (p : Program) (precision : Precision) (s : Search ProgramState Step χ) :
    Search ProgramState Step χ → Prop where
  | explore {x : Exploration Step χ} :
    Exploration.Advance p precision s.tree s.settings s.exploration x →
    Advance p precision s (s.withExploration x)
  | clear : Advance p precision s (s.withExploration s.exploration.clear)
  | change {t : SearchTree ProgramState Step} : s.tree.Change p t → Advance p precision s (s.withTree t)

/-- From one moment of a search to another. -/
abbrev Advances (p : Program) (precision : Precision) :
    Search ProgramState Step χ → Search ProgramState Step χ → Prop :=
  Relation.ReflTransGen (Advance p precision)

theorem advances_explore {x : Exploration Step χ}
    (h : Exploration.Advances p precision s.tree s.settings s.exploration x) :
    Advances p precision s (s.withExploration x) :=
  Relation.ReflTransGen.lift s.withExploration
    (fun y _ hadvance => Advance.explore (s := s.withExploration y) hadvance) _ _ h

/-- The tree is in order, and the frames on the stack are exact. -/
structure IsExact (p : Program) (precision : Precision) (s : Search ProgramState Step χ) : Prop where
  sound : s.tree.Sound p
  closed : s.tree.Closed
  frames : EachFrame (FrameExact p precision) s.tree s.exploration.stack

omit [ChoiceSource χ] in
theorem isExact_ofChoices (settings : Settings) (seed : Option UInt64) (choices : χ) :
    (ofChoices settings seed choices (.singleton p.initialState)).IsExact p precision :=
  ⟨SearchTree.sound_singleton p, .singleton _, .inl rfl⟩

theorem Advance.isExact (hadvance : Advance p precision s s') (h : s.IsExact p precision) :
    s'.IsExact p precision := by
  cases hadvance with
  | explore hadvance => exact ⟨h.sound, h.closed, hadvance.exact h.sound h.frames⟩
  | clear => exact ⟨h.sound, h.closed, .inl rfl⟩
  | change hchange =>
    exact ⟨hchange.sound h.sound, hchange.closed h.closed,
      h.frames.retree fun _ _ _ => hchange.retains.edge⟩

theorem Advances.isExact (hadvances : Advances p precision s s') (h : s.IsExact p precision) :
    s'.IsExact p precision := by
  induction hadvances with
  | refl => exact h
  | tail _ hlast ih => exact hlast.isExact ih

/-- A call leads from one moment to another, whether it comes to an answer or halts. -/
theorem IsExact.ask_advances {call : Exploration.Call} (h : s.IsExact p precision)
    (hnodes : ∀ n ∈ call.nodes, ∃ e, s.tree.node? n = some e) :
    EndsIn (ask p precision call) s (Advances p precision s) :=
  ends_explore ((Exploration.Call.advances h.sound h.frames h.closed hnodes).mono
    (fun _ _ hx => advances_explore hx) fun _ hx => advances_explore hx)

theorem Performs.advances (h : s.IsExact p precision) (hperforms : Performs p (· = precision) s s') :
    Advances p precision s s' := by
  cases hperforms with
  | call hallowed hnodes hends =>
    subst hallowed
    exact (h.ask_advances hnodes).of_ends hends
  | clear => exact .single .clear
  | change hchange => exact .single (.change hchange)

theorem Session.advances (h : Session p (· = precision) s) :
    ∃ settings seed choices,
      Advances p precision (.ofChoices settings seed choices (.singleton p.initialState)) s := by
  induction h with
  | start settings seed choices => exact ⟨settings, seed, choices, .refl⟩
  | next _ hperforms ih =>
    obtain ⟨settings, seed, choices, hs⟩ := ih
    exact ⟨settings, seed, choices,
      hs.trans (hperforms.advances (hs.isExact (isExact_ofChoices settings seed choices)))⟩

/-- What frames remember is true at each moment of a session with the same variables tracked all the time.
A session is made up of additions, pops, walks below covering nodes, and what leaves the stack alone, and
so is whatever a client asks for, whether it is answered or halts. At each moment that is not within a
walk, the stack is the path of the tree from the root to the current node, and the frame at an index
remembers the run up to the index: the last step of each thread and, in the clocks, steps that come before
the last one of a thread, or before the step that made the thread active if it has made none. -/
theorem session_remembers (h : Session p (· = precision) s) :
    (∃ settings seed choices,
      Advances p precision (.ofChoices settings seed choices (.singleton p.initialState)) s) ∧
    (∀ call, (∀ n ∈ call.nodes, ∃ e, s.tree.node? n = some e) →
      EndsIn (ask p precision call) s (Advances p precision s)) ∧
    ∀ s', Advances p precision s s' → s'.exploration.stack.Remembers p precision s'.tree := by
  obtain ⟨settings, seed, choices, hs⟩ := h.advances
  have hexact := hs.isExact (isExact_ofChoices settings seed choices)
  refine ⟨h.advances, fun call hnodes => hexact.ask_advances hnodes, fun s' hs' => ?_⟩
  have hexact' := hs'.isExact hexact
  exact hexact'.frames.remembers hexact'.sound

/-- A thread writes and spawns a reader, and another one writes in between. -/
def spawningWriter : Program :=
  ((Program.empty.thread [.write "x" 1, .spawn ⟨2⟩]).thread [.write "x" 2]).dormantThread [.read "x"]

/-- When the reader has been spawned, its clock has the spawn, at index 3. When it has read, its clock has
the write of the other thread too, at index 2, which the read depends on. -/
theorem session_remembers_spawningWriter : ∃ (s : Search ProgramState Step Seeded) (f g : Frame Step),
    Session spawningWriter (· = none) s ∧
    s.exploration.stack.frame? 3 = some f ∧ s.exploration.stack.frame? 4 = some g ∧
    SortedMap.get? (SortedMap.getD f.clocks ⟨2⟩ ∅) ⟨0⟩ = some 3 ∧
    SortedMap.get? (SortedMap.getD g.clocks ⟨2⟩ ∅) ⟨1⟩ = some 2 ∧
    s.exploration.stack.Remembers spawningWriter none s.tree := by
  let w : List Step :=
    [⟨⟨0⟩, 0, .write "x" 1⟩, ⟨⟨1⟩, 0, .write "x" 2⟩, ⟨⟨0⟩, 1, .spawn ⟨2⟩⟩, ⟨⟨2⟩, 0, .read "x"⟩]
  have heval : (follow spawningWriter none (Seeded.ofSeed 0) w).any (fun s =>
      (s.exploration.stack.frame? 3).any (fun f =>
        SortedMap.get? (SortedMap.getD f.clocks ⟨2⟩ ∅) ⟨0⟩ == some 3) &&
      (s.exploration.stack.frame? 4).any (fun g =>
        SortedMap.get? (SortedMap.getD g.clocks ⟨2⟩ ∅) ⟨1⟩ == some 2)) = true := by
    decide +kernel
  obtain ⟨s, hs, heval⟩ := (Option.any_eq_true _ _).1 heval
  obtain ⟨hspawned, hread⟩ := (Bool.and_eq_true _ _).mp heval
  obtain ⟨f, hf, hspawned⟩ := (Option.any_eq_true _ _).1 hspawned
  obtain ⟨g, hg, hread⟩ := (Option.any_eq_true _ _).1 hread
  obtain ⟨-, -, hremembers⟩ := session_remembers (session_follow hs)
  exact ⟨s, f, g, session_follow hs, hf, hg, by simpa using hspawned, by simpa using hread,
    hremembers s .refl⟩

end Search

end Interleaving
