import Mathlib.Data.List.Induction
import Interleaving.Proofs.Excursions

/-!
# Marks of visited states

Each addition of a node marks its state as visited, and the marks go when the client empties the stack.
What happens in a search is made up of deeds (`Search.Deed`), and a chronicle is kept of those that have to
do with marks. At each moment of a session the states that are marked are those of the nodes added since
the client last emptied the stack (`Search.session_marks`). These are the nodes of the current round if no
state is marked when a round starts. A round that comes to its end takes all frames off the stack and
leaves the marks, so a round that starts right after it has them from the beginning
(`Search.marks_outlive_round_soleWriter`).
-/

namespace Interleaving

variable {p : Program} {precision : Precision} {t : SearchTree ProgramState Step}
  {settings : Settings} {χ : Type} {x x' y : Exploration Step χ} {n m c : NodeId}
  {entry : SearchTree.Node ProgramState Step} {a : Step}

/-! ## Chronicles -/

/-- What is written down of a search. -/
inductive Chronicle.Entry where
  /-- The client has emptied the stack. -/
  | cleared
  /-- A round has started at the root. -/
  | started
  /-- A child of the current node has been added, by the client or by an edge taken again. -/
  | added (n : NodeId)

/-- What the entries say of additions. -/
structure Chronicle where
  /-- The nodes added since the client last emptied the stack. -/
  sinceClear : List NodeId := []
  /-- The nodes added in the current round, if one has started since the client emptied the stack. -/
  round? : Option (List NodeId) := none

namespace Chronicle

/-- One more entry. -/
def record (h : Chronicle) : Entry → Chronicle
  | .cleared => {}
  | .started => { sinceClear := SearchTree.root :: h.sinceClear, round? := some [SearchTree.root] }
  | .added n => { sinceClear := n :: h.sinceClear, round? := h.round?.map (n :: ·) }

/-- The chronicle of a list of entries. -/
def of (log : List Entry) : Chronicle := log.foldl record {}

theorem of_append (log l : List Entry) : of (log ++ l) = l.foldl record (of log) := List.foldl_append

/-- Whenever a round starts, nothing has been added since the client last emptied the stack. -/
def StartsAfresh (log : List Entry) : Prop :=
  ∀ l k, log = l ++ .started :: k → (of l).sinceClear = []

theorem StartsAfresh.init {log : List Entry} {e : Entry} (h : StartsAfresh (log ++ [e])) :
    StartsAfresh log := by
  rintro l k rfl
  exact h l (k ++ [e]) (by simp)

/-- What has been added in the current round has been added since the client last emptied the stack. -/
theorem mem_sinceClear {log : List Entry} {ns : List NodeId} (hround : (of log).round? = some ns)
    (hn : n ∈ ns) : n ∈ (of log).sinceClear := by
  induction log using List.reverseRecOn generalizing ns with
  | nil => cases hround
  | append_singleton log e ih =>
    rw [of_append] at hround ⊢
    cases e with
    | cleared => cases hround
    | started =>
      obtain rfl := Option.some.inj hround
      rw [List.mem_singleton.1 hn]
      exact List.mem_cons_self
    | added k =>
      obtain ⟨ms, hms, rfl⟩ := Option.map_eq_some_iff.1 hround
      rcases List.mem_cons.1 hn with rfl | hn
      · exact List.mem_cons_self
      · exact List.mem_cons_of_mem _ (ih hms hn)

/-- If rounds start afresh, nothing else has been added. -/
theorem round?_eq {log : List Entry} {ns : List NodeId} (hfresh : StartsAfresh log)
    (hround : (of log).round? = some ns) : (of log).sinceClear = ns := by
  induction log using List.reverseRecOn generalizing ns with
  | nil => cases hround
  | append_singleton log e ih =>
    rw [of_append] at hround ⊢
    cases e with
    | cleared => cases hround
    | started =>
      obtain rfl := Option.some.inj hround
      show SearchTree.root :: (of log).sinceClear = _
      rw [hfresh log [] rfl]
    | added k =>
      obtain ⟨ms, hms, rfl⟩ := Option.map_eq_some_iff.1 hround
      show k :: (of log).sinceClear = _
      rw [ih hfresh.init hms]

/-- The chronicle tells which states are marked, and none is until a round starts. -/
structure Tells (h : Chronicle) (x : Exploration Step χ) : Prop where
  marked : ∀ s, x.table.isVisited s ↔ ∃ n ∈ h.sinceClear, s = ⟨n.index⟩
  unstarted : h.round? = none → x.stack.size = 0 ∧ h.sinceClear = []

namespace Tells

variable {h : Chronicle}

/-- Nothing is marked, and a frame is put on the stack only when a round starts. -/
theorem keep (htells : h.Tells x) (hmarks : ∀ s, x'.table.isVisited s = x.table.isVisited s)
    (hstack : x.stack.size = 0 → x'.stack.size = 0) : h.Tells x' := by
  refine ⟨fun s => ?_, fun hnone => ?_⟩
  · rw [hmarks]
    exact htells.marked s
  · exact ⟨hstack (htells.unstarted hnone).1, (htells.unstarted hnone).2⟩

theorem mark (htells : h.Tells x) (hmarks : x.Marks n x') (s : StateId) :
    x'.table.isVisited s ↔ ∃ k ∈ n :: h.sinceClear, s = ⟨k.index⟩ := by
  rw [hmarks, htells.marked]
  simp

end Tells

end Chronicle

/-! ## Deeds -/

namespace Exploration

open Chronicle

section

variable [ChoiceSource χ]

/-- What can happen between two moments, with what is written down of it. Nothing is pushed or popped
and no state is marked apart from additions, walks and pops. -/
inductive Deed (p : Program) (t : SearchTree ProgramState Step) (settings : Settings)
    (x : Exploration Step χ) : List Entry → Exploration Step χ → Prop where
  /-- A node is added while the stack is empty. -/
  | start {x' : Exploration Step χ} {precision : Precision} {n : NodeId}
    {e : SearchTree.Node ProgramState Step} {isNew : Bool} : x.stack.size = 0 → t.node? n = some e →
    add (p.context precision t settings) n x = .ok isNew x' → Deed p t settings x [.started] x'
  /-- A child of the current node is added. -/
  | add {x' : Exploration Step χ} {precision : Precision} {n m : NodeId}
    {e : SearchTree.Node ProgramState Step} {isNew : Bool} : x.stack.topNode? = some m →
    t.node? n = some e → e.parent = some m →
    add (p.context precision t settings) n x = .ok isNew x' → Deed p t settings x [.added n] x'
  /-- A walk below the node that covers the current one. -/
  | walk {x' : Exploration Step χ} {precision : Precision} {n c : NodeId}
    {e : SearchTree.Node ProgramState Step} : x.stack.topNode? = some n → t.node? n = some e →
    e.covering = some c → virtualExploration (p.context precision t settings) c x = .ok () x' →
    Deed p t settings x [] x'
  | pop {x' : Exploration Step χ} {precision : Precision} :
    popFrame (p.context precision t settings) x = .ok () x' → Deed p t settings x [] x'
  | rest {x' : Exploration Step χ} : x'.stack = x.stack → x.counters.SameFrames x'.counters →
    (∀ s, x'.table.isVisited s = x.table.isVisited s) → Deed p t settings x [] x'

/-- Deeds in a row, after each of which all is in order. -/
abbrev Story (p : Program) (t : SearchTree ProgramState Step) (settings : Settings) :
    Exploration Step χ → List Entry → Exploration Step χ → Prop :=
  Trail fun x l x' => Deed p t settings x l x' ∧ Orderly p t x'

/-- Some deeds lead from one state of an exploration to another one. -/
def HasStory (p : Program) (t : SearchTree ProgramState Step) (settings : Settings)
    (x x' : Exploration Step χ) : Prop := ∃ l, Story p t settings x l x'

namespace HasStory

theorem refl (x : Exploration Step χ) : x.HasStory p t settings x := ⟨[], .refl⟩

theorem tail {l : List Entry} (h : x.HasStory p t settings y) (hdeed : Deed p t settings y l x')
    (hx' : Orderly p t x') : x.HasStory p t settings x' := by
  obtain ⟨k, hk⟩ := h
  exact ⟨k ++ l, hk.tail ⟨hdeed, hx'⟩⟩

theorem orderly (h : x.HasStory p t settings y) (hx : Orderly p t x) : Orderly p t y := by
  obtain ⟨l, hl⟩ := h
  cases hl with
  | refl => exact hx
  | tail _ hlast => exact hlast.2

end HasStory

end

variable [ChoiceSource χ] [LawfulChoiceSource χ] {l : List Entry} {h : Chronicle}

/-- What the chronicle tells before a deed, it tells afterwards with what is written down of it. -/
theorem Deed.tells (ht : t.Sound p) (hclosed : t.Closed) (hx : Orderly p t x)
    (hdeed : Deed p t settings x l x') (htells : h.Tells x) : (l.foldl record h).Tells x' := by
  cases hdeed with
  | start hempty hn hadd =>
    obtain ⟨-, -, htable, -⟩ := (Ends.addRoot_ends (E := fun _ => False) ht hempty hn).of_ok hadd
    have hmarks : x.Marks SearchTree.root x' := by
      intro s
      rw [htable, DecorationTable.isVisited_reset, DecorationTable.isVisited_markVisited, eq_comm]
      rfl
    exact ⟨htells.mark hmarks, nofun⟩
  | add htop hn hparent hadd =>
    obtain ⟨-, hmarks, -⟩ := (Ends.addChild_moves ht hx htop hn hparent).of_ok hadd
    refine ⟨htells.mark hmarks, fun hnone => ?_⟩
    -- with a current node, a round has started
    have hround := Option.map_eq_none_iff.1 (show h.round?.map _ = none from hnone)
    exact absurd (htells.unstarted hround).1 (SearchStack.size_ne_zero htop)
  | walk htop hn hcovering hwalk =>
    obtain ⟨hwanders, hsize⟩ := (hx.virtualExploration_wanders ht hclosed htop hn hcovering).of_ok hwalk
    exact htells.keep hwanders.visited fun hempty => hsize.trans hempty
  | pop hpop =>
    have hpopped := (Ends.popFrame (p := p) (t := t)).of_ok hpop
    refine htells.keep hpopped.isVisited_eq fun hempty => ?_
    rw [hpopped.stack, SearchStack.size_pop, hempty]
  | rest hstack _ hmarks => exact htells.keep hmarks fun hempty => hstack ▸ hempty

end Exploration

/-! ## Calls are made up of deeds -/

namespace Orderly

open Exploration

variable [ChoiceSource χ] [LawfulChoiceSource χ]
variable (ht : t.Sound p) (h : Orderly p t x) (hstory : x.HasStory p t settings y)
include ht h hstory

theorem addChild_story (htop : y.stack.topNode? = some m) (hn : t.node? n = some entry)
    (hparent : entry.parent = some m) :
    Succeeds (Exploration.add (p.context precision t settings) n) y fun _ x' =>
      x.HasStory p t settings x' := by
  have hy := hstory.orderly h
  refine ((Ends.addChild_moves ht hy htop hn hparent).and_ok).imp ?_
  rintro isNew x' ⟨⟨htrail, -⟩, hadd⟩
  exact hstory.tail (.add htop hn hparent hadd) (Exploration.Move.orderly_trail ht hy htrail)

omit [LawfulChoiceSource χ] hstory in
/-- With an empty stack, a round starts. -/
theorem addRoot_deed (hempty : x.stack.size = 0) (hn : t.node? n = some entry) :
    Succeeds (Exploration.add (p.context precision t settings) n) x fun _ x' =>
      Deed p t settings x [.started] x' ∧ Orderly p t x' := by
  refine ((Ends.addRoot_ends ht hempty hn).and_ok).imp ?_
  rintro isNew x' ⟨⟨-, hstack, htable, haccount⟩, hadd⟩
  have hmoves := Ends.addRoot_moves (p := p) (t := t) hempty hstack htable haccount
  exact ⟨.start hempty hn hadd, Exploration.Move.orderly_trail ht h hmoves⟩

/-- An edge of an earlier round is taken again. -/
theorem replayEdge_story (htop : y.stack.topNode? = some n) (hn : t.node? n = some entry)
    (hedge : (c, a) ∈ replayableEdges (p.context precision t settings) y.table entry) :
    Succeeds (do
      Exploration.recordTaken entry.stateId (p.enabledSet entry.state) a
      Exploration.count fun c => { c with lazyReplays := c.lazyReplays + 1 }
      Exploration.add (p.context precision t settings) c) y fun _ x' => x.HasStory p t settings x' := by
  have hy := hstory.orderly h
  refine hy.replayEdge ht htop hn hedge fun z htrail hstack haccount hmarks _ hedge => ?_
  obtain ⟨child, hchild, hparent⟩ := SearchTree.parent_eq_some_iff.1 hedge.1
  have hz := Exploration.Move.orderly_trail ht hy htrail
  have htaken := hstory.tail (.rest hstack (.of_replay haccount) hmarks) hz
  exact h.addChild_story ht htaken (hstack ▸ htop) hchild hparent

omit hstory in
/-- The question for the end of a round. -/
theorem isEmpty_story (hclosed : t.Closed) :
    Succeeds (Exploration.isEmpty (p.context precision t settings)) x fun _ x' =>
      x.HasStory p t settings x' := by
  refine (h.isEmpty_preserves (J := fun z => x.HasStory p t settings z) ht hclosed (.refl x)
    ?_ ?_ ?_ ?_).imp fun _ _ hx' => hx'.1.2
  · intro z z' hz hz' hstack htable haccount
    exact hz.tail (.rest hstack (.of_account haccount) fun s => by rw [htable]) hz'
  · intro n e c htop hn hcovering
    refine ((h.virtualExploration_leads ht hclosed htop hn hcovering).and_ok).yields.imp ?_
    rintro _ x' ⟨⟨hleads, -⟩, hwalk⟩
    exact (HasStory.refl x).tail (.walk htop hn hcovering hwalk) (hleads.orderly ht h)
  · exact fun z n e c a hz _ htop hn hedge => (h.replayEdge_story ht hz htop hn hedge).yields
  · intro z n hz horderly _
    refine ((Ends.popFrame_moves horderly).and_ok).yields.imp ?_
    rintro _ z' ⟨⟨htrail, -⟩, hpop⟩
    exact hz.tail (.pop hpop) (Exploration.Move.orderly_trail ht horderly htrail)

omit hstory in
/-- The offer of a step. -/
theorem nextAction_story {s : StateId} :
    Settles (Exploration.nextAction (p.context precision t settings) s) x fun x' =>
      x.HasStory p t settings x' := by
  refine Ends.nextAction_settles h.stands (.refl x) fun n entry htop hn => ?_
  refine (h.nextAction_moves ht htop hn).imp ?_
  rintro _ x' ⟨htrail, hstack, hcounters, hmarks, -⟩
  exact (HasStory.refl x).tail (.rest hstack (hcounters ▸ ⟨rfl, rfl, rfl⟩) hmarks)
    (Exploration.Move.orderly_trail ht h htrail)

omit hstory in
/-- Whatever a client asks for is made up of deeds. -/
theorem settles_story (hclosed : t.Closed) {call : Call}
    (hnodes : ∀ n ∈ call.nodes, ∃ e, t.node? n = some e) :
    Settles (call.perform (p.context precision t settings)) x fun x' => x.HasStory p t settings x' := by
  refine Call.settles (.refl x) (fun n hn => ?_) (h.isEmpty_story ht hclosed)
    fun s => h.nextAction_story ht
  obtain ⟨entry, hentry⟩ := hnodes n hn
  refine Ends.add_settles hentry (.refl x) (fun hempty => ?_)
    fun m htop hparent => h.addChild_story ht (.refl x) htop hentry hparent
  exact (h.addRoot_deed ht hempty hentry).imp fun _ _ hx' => (HasStory.refl x).tail hx'.1 hx'.2

end Orderly

/-! ## The marks in the history of a search -/

namespace Search

open Chronicle

section

variable [ChoiceSource χ] {s s' : Search ProgramState Step χ}

/-- A deed of the exploration, or something that the client does between calls. -/
inductive Deed (p : Program) (s : Search ProgramState Step χ) :
    List Entry → Search ProgramState Step χ → Prop where
  | explore {l : List Entry} {x : Exploration Step χ} :
    Exploration.Deed p s.tree s.settings s.exploration l x → Deed p s l (s.withExploration x)
  | clear : Deed p s [.cleared] (s.withExploration s.exploration.clear)
  | change {t : SearchTree ProgramState Step} : s.tree.Change p t → Deed p s [] (s.withTree t)

/-- Deeds in a row, after each of which all is in order. -/
abbrev Story (p : Program) :
    Search ProgramState Step χ → List Entry → Search ProgramState Step χ → Prop :=
  Trail fun s l s' => Deed p s l s' ∧ s'.IsOrderly p

theorem Story.isOrderly {l : List Entry} (hstory : Story p s l s') (h : s.IsOrderly p) :
    s'.IsOrderly p := by
  cases hstory with
  | refl => exact h
  | tail _ hlast => exact hlast.2

/-- What is a story of the exploration is one of the search. -/
theorem story_explore {l : List Entry} {x : Exploration Step χ} (h : s.IsOrderly p)
    (hstory : Exploration.Story p s.tree s.settings s.exploration l x) :
    Story p s l (s.withExploration x) := by
  refine hstory.map (f := s.withExploration) ?_
  rintro y k z ⟨hdeed, hz⟩
  exact ⟨.explore (s := s.withExploration y) hdeed, h.sound, h.closed, hz⟩

end

variable [ChoiceSource χ] [LawfulChoiceSource χ] {s s' : Search ProgramState Step χ}
  {l log : List Entry}

/-- A call is made up of deeds, whether it is answered or refused. -/
theorem IsOrderly.settles_story {call : Exploration.Call} (h : s.IsOrderly p)
    (hnodes : ∀ n ∈ call.nodes, ∃ e, s.tree.node? n = some e) :
    Settles (ask p precision call) s fun s' => ∃ l, Story p s l s' :=
  Search.settles_ask ((h.orderly.settles_story h.sound h.closed hnodes).imp fun _ ⟨l, hl⟩ =>
    ⟨l, story_explore h hl⟩)

/-- A session has a story from its start. -/
theorem Session.story {allowed : Precision → Prop} (h : Session p allowed s) :
    ∃ settings seed choices log,
      Story p (.ofChoices settings seed choices (.singleton p.initialState)) log s := by
  induction h with
  | start settings seed choices => exact ⟨settings, seed, choices, [], .refl⟩
  | @next s s' hsession hperforms ih =>
    obtain ⟨settings, seed, choices, log, hlog⟩ := ih
    have h := hsession.isOrderly
    suffices hnext : ∃ l, Story p s l s' by
      obtain ⟨l, hl⟩ := hnext
      exact ⟨settings, seed, choices, log ++ l, hlog.trans hl⟩
    cases hperforms with
    | call _ hnodes hends => exact (h.settles_story hnodes).of_ends hends
    | clear => exact ⟨_, .single ⟨.clear, path_clear.isOrderly h⟩⟩
    | change hchange => exact ⟨_, .single ⟨.change hchange, (Move.change hchange).isOrderly h⟩⟩

theorem Deed.tells {h : Chronicle} (hs : s.IsOrderly p) (hdeed : Deed p s l s')
    (htells : h.Tells s.exploration) : (l.foldl record h).Tells s'.exploration := by
  cases hdeed with
  | explore hdeed => exact hdeed.tells hs.sound hs.closed hs.orderly htells
  | clear =>
    refine ⟨fun id => ?_, fun _ => ⟨rfl, rfl⟩⟩
    show (DecorationTable.clearRound _).isVisited id ↔ ∃ n ∈ ([] : List NodeId), id = ⟨n.index⟩
    simp
  | change => exact htells

/-- At each moment, the chronicle from the start on tells which states are marked. -/
theorem Story.tells {settings : Settings} {seed : Option UInt64} {choices : χ}
    (hstory : Story p (.ofChoices settings seed choices (.singleton p.initialState)) log s) :
    (Chronicle.of log).Tells s.exploration := by
  induction hstory with
  | refl =>
    refine ⟨fun id => ?_, fun _ => ⟨rfl, rfl⟩⟩
    simp [Chronicle.of, ofChoices, Exploration.ofChoices, DecorationTable.isVisited]
  | tail hbefore hlast ih =>
    rw [Chronicle.of_append]
    exact hlast.1.tells (Story.isOrderly hbefore (isOrderly_ofChoices ..)) ih

/-- Which states are marked as visited. A session has a story, made up of additions, walks, pops and
deeds that mark nothing, and so has whatever a client asks for. At each moment, whatever has happened
since the start, the states that are marked are those of the nodes added since the client last emptied the
stack. So none is marked from then on until a round starts, and after that those of the nodes added in the
round are; and these are the only ones, if no round has started with nodes added since the stack was
emptied by the client. -/
theorem session_marks {allowed : Precision → Prop} (h : Session p allowed s) :
    (∃ settings seed choices log,
      Story p (.ofChoices settings seed choices (.singleton p.initialState)) log s) ∧
    (∀ precision call, (∀ n ∈ call.nodes, ∃ e, s.tree.node? n = some e) →
      Settles (ask p precision call) s fun s' => ∃ l, Story p s l s') ∧
    ∀ settings seed (choices : χ) log s',
      Story p (.ofChoices settings seed choices (.singleton p.initialState)) log s' →
      (∀ id, s'.exploration.table.isVisited id ↔
        ∃ n ∈ (Chronicle.of log).sinceClear, id = ⟨n.index⟩) ∧
      ((Chronicle.of log).round? = none → ∀ id, s'.exploration.table.isVisited id = false) ∧
      ∀ ns, (Chronicle.of log).round? = some ns →
        (∀ n ∈ ns, s'.exploration.table.isVisited ⟨n.index⟩) ∧
        (StartsAfresh log → ∀ id, s'.exploration.table.isVisited id ↔ ∃ n ∈ ns, id = ⟨n.index⟩) := by
  refine ⟨h.story, fun precision call hnodes => h.isOrderly.settles_story hnodes, ?_⟩
  intro settings seed choices log s' hstory
  obtain ⟨hmarked, hunstarted⟩ := hstory.tells
  refine ⟨hmarked, fun hnone id => ?_, fun ns hround => ⟨fun n hn => ?_, fun hfresh => ?_⟩⟩
  · rw [Bool.eq_false_iff, ne_eq, hmarked, (hunstarted hnone).2]
    simp
  · exact (hmarked _).2 ⟨n, mem_sinceClear hround hn, rfl⟩
  · rw [round?_eq hfresh hround] at hmarked
    exact hmarked

/-- A single thread writes once. -/
def soleWriter : Program := Program.empty.thread [.write "x" 1]

/-- The search after the step has been offered at the root and taken, both nodes have been expanded, and
the question for the end of the round has been answered. -/
def soleRound : Option (Search ProgramState Step Seeded) := do
  let s ← enter soleWriter none (ofChoices {} none (.ofSeed 0) (.singleton soleWriter.initialState))
  let s ← answered soleWriter none (.nextAction ⟨0⟩) s
  let s ← enter soleWriter none (← sprout soleWriter s ⟨⟨0⟩, 0, .write "x" 1⟩)
  answered soleWriter none .isEmpty
    (s.withTree ((s.tree.setExpanded ⟨0⟩ true).setExpanded ⟨1⟩ true))

theorem session_soleRound {s : Search ProgramState Step Seeded} (h : soleRound = some s) :
    Session soleWriter (· = none) s := by
  unfold soleRound at h
  obtain ⟨s₁, hs₁, h⟩ := Option.bind_eq_some_iff.1 h
  obtain ⟨s₂, hs₂, h⟩ := Option.bind_eq_some_iff.1 h
  obtain ⟨s₃, hs₃, h⟩ := Option.bind_eq_some_iff.1 h
  obtain ⟨s₄, hs₄, h⟩ := Option.bind_eq_some_iff.1 h
  have hopened : Session soleWriter (· = none) s₁ :=
    (Session.start {} none (Seeded.ofSeed 0)).enter rfl hs₁
  have hoffered := hopened.answered rfl (fun _ hn => by cases hn) hs₂
  have hadded := (hoffered.sprout hs₃).enter rfl hs₄
  have hexpanded := (hadded.next (.change (.mark ⟨0⟩ true))).next (.change (.mark ⟨1⟩ true))
  exact hexpanded.answered rfl (fun _ hn => by cases hn) h

/-- The round has come to its end, and node 1 is still marked. -/
theorem exists_soleRound : ∃ s : Search ProgramState Step Seeded, Session soleWriter (· = none) s ∧
    s.exploration.stack.size = 0 ∧ s.exploration.table.isVisited ⟨1⟩ := by
  have heval : soleRound.any (fun s => s.exploration.stack.size == 0 &&
      s.exploration.table.isVisited ⟨1⟩) = true := by decide +kernel
  obtain ⟨s, hs, heval⟩ := (Option.any_eq_true _ _).1 heval
  simp only [Bool.and_eq_true, beq_iff_eq] at heval
  exact ⟨s, session_soleRound hs, heval⟩

omit [LawfulChoiceSource χ] in
/-- With an empty stack, a round starts at the root. -/
theorem IsOrderly.exists_started (h : s.IsOrderly p) (hempty : s.exploration.stack.size = 0)
    (precision : Precision) :
    ∃ s', explore (p.system precision) (Exploration.add · SearchTree.root) s = .ok true s' ∧
      Story p s [.started] s' := by
  obtain ⟨root, hroot, -⟩ := h.sound.root
  obtain ⟨isNew, x, hadd, ⟨hdeed, hx⟩, hnew, -⟩ :=
    ((h.orderly.addRoot_deed h.sound hempty hroot).both (Ends.addRoot_ends h.sound hempty hroot)).exists_ok
  exact ⟨_, hnew ▸ explore_eq_ok hadd, .single ⟨.explore hdeed, h.sound, h.closed, hx⟩⟩

/-- When the client empties the stack before the next round starts, only the root is marked then. -/
theorem session_marks_soleWriter : ∃ s s' : Search ProgramState Step Seeded,
    Session soleWriter (· = none) s ∧ s.exploration.table.isVisited ⟨1⟩ ∧
    Story soleWriter s [.cleared, .started] s' ∧
    ∀ id, s'.exploration.table.isVisited id ↔ id = ⟨0⟩ := by
  obtain ⟨s, hsession, -, hvisited⟩ := exists_soleRound
  have hclear : Story soleWriter s [.cleared] (s.withExploration s.exploration.clear) :=
    .single ⟨.clear, path_clear.isOrderly hsession.isOrderly⟩
  obtain ⟨s', -, hstart⟩ := (Story.isOrderly hclear hsession.isOrderly).exists_started rfl none
  have hnext := hclear.trans hstart
  obtain ⟨⟨settings, seed, choices, log, hlog⟩, -, hmarks⟩ := session_marks hsession
  refine ⟨s, s', hsession, hvisited, hnext, fun id => ?_⟩
  rw [(hmarks settings seed choices _ s' (hlog.trans hnext)).1, Chronicle.of_append]
  simp [record, SearchTree.root]

/-- When the next round starts on the stack that the last one has left empty, node 1 is marked although
only the root has been added in the round. -/
theorem marks_outlive_round_soleWriter : ∃ s s' : Search ProgramState Step Seeded,
    Session soleWriter (· = none) s ∧ s.exploration.stack.size = 0 ∧
    explore (soleWriter.system none) (Exploration.add · SearchTree.root) s = .ok true s' ∧
    (∃ settings seed choices log,
      Story soleWriter (.ofChoices settings seed choices (.singleton soleWriter.initialState)) log s' ∧
      (Chronicle.of log).round? = some [SearchTree.root]) ∧
    s'.exploration.table.isVisited ⟨1⟩ := by
  obtain ⟨s, hsession, hempty, hvisited⟩ := exists_soleRound
  obtain ⟨s', hadd, hstart⟩ := hsession.isOrderly.exists_started hempty none
  obtain ⟨settings, seed, choices, log, hlog⟩ := hsession.story
  refine ⟨s, s', hsession, hempty, hadd, ⟨settings, seed, choices, log ++ [.started],
    hlog.trans hstart, ?_⟩, ?_⟩
  · rw [Chronicle.of_append]
    rfl
  · -- the mark was there when the round started
    obtain ⟨n, hn, hid⟩ := ((Story.tells hlog).marked ⟨1⟩).1 hvisited
    refine ((Story.tells (hlog.trans hstart)).marked ⟨1⟩).2 ⟨n, ?_, hid⟩
    rw [Chronicle.of_append]
    exact List.mem_cons_of_mem _ hn

end Search

end Interleaving
