import Interleaving.Proofs.Scan

/-!
# Search stacks

What pushing, popping and releasing locks do to the frames of a stack, and stacks whose actions are a
run of the program (`Carries`): each node comes from a node with the state of the one below it
(`Performs`), or from that one itself, so that the stack follows a path of the tree from its root
(`Follows`). What holds of a frame and the run up to it can be kept for all frames together
(`EachFrame`).
-/

namespace Interleaving

/-! ## Frames of a stack -/

namespace SearchStack

variable {s s' : SearchStack Step} {f : Frame Step} {i : Nat} {n : NodeId}

/-- A frame of the stack stands for the node. -/
def Holds (s : SearchStack Step) (n : NodeId) : Prop := ∃ i f, s.frame? i = some f ∧ f.node = n

theorem frame?_lt (h : s.frame? i = some f) : i < s.size := (Array.getElem?_eq_some_iff.1 h).1

theorem exists_frame_of_lt (h : i < s.size) : ∃ f, s.frame? i = some f :=
  ⟨_, Array.getElem?_eq_getElem h⟩

theorem exists_top (h : 0 < s.size) : ∃ f, s.frame? (s.size - 1) = some f :=
  exists_frame_of_lt (Nat.sub_lt h Nat.one_pos)

theorem top?_eq : s.top? = s.frame? (s.size - 1) := Array.back?_eq_getElem?

theorem frame?_push (i : Nat) : (s.push f).frame? i = if i = s.size then some f else s.frame? i := by
  simp only [frame?, push, Array.getElem?_push]
  rfl

@[simp] theorem size_push : (s.push f).size = s.size + 1 := Array.size_push f

theorem holds_push : (s.push f).Holds n ↔ s.Holds n ∨ n = f.node := by
  constructor
  · rintro ⟨i, g, hg, rfl⟩
    rw [frame?_push] at hg
    split at hg
    · exact .inr (by rw [Option.some.inj hg])
    · exact .inl ⟨i, g, hg, rfl⟩
  · rintro (⟨i, g, hg, rfl⟩ | rfl)
    · refine ⟨i, g, ?_, rfl⟩
      rw [frame?_push, if_neg (Nat.ne_of_lt (frame?_lt hg))]
      exact hg
    · exact ⟨s.size, f, by rw [frame?_push, if_pos rfl], rfl⟩

theorem frame?_pop (i : Nat) : s.pop.frame? i = if i < s.size - 1 then s.frame? i else none := by
  simp only [frame?, pop, Array.getElem?_pop]
  rfl

@[simp] theorem size_pop : s.pop.size = s.size - 1 := Array.size_pop

theorem Holds.of_pop (h : s.pop.Holds n) : s.Holds n := by
  obtain ⟨i, f, hf, hn⟩ := h
  rw [frame?_pop] at hf
  split at hf
  · exact ⟨i, f, hf, hn⟩
  · cases hf

theorem Holds.pop_or (h : s.Holds n) : s.pop.Holds n ∨ s.topNode? = some n := by
  obtain ⟨i, f, hf, hn⟩ := h
  have hlt := frame?_lt hf
  rcases Nat.lt_or_ge i (s.size - 1) with hi | hi
  · exact .inl ⟨i, f, by rw [frame?_pop, if_pos hi]; exact hf, hn⟩
  · obtain rfl : i = s.size - 1 := by omega
    right
    rw [topNode?, top?, Array.back?_eq_getElem?, Option.map_eq_some_iff]
    exact ⟨f, hf, hn⟩

theorem isEmpty_iff : s.isEmpty ↔ s.size = 0 := by
  simp [isEmpty, size]

theorem topNode?_eq_some_iff :
    s.topNode? = some n ↔ ∃ f, s.frame? (s.size - 1) = some f ∧ f.node = n := by
  rw [topNode?, top?_eq, Option.map_eq_some_iff]

theorem topNode?_eq_none_iff : s.topNode? = none ↔ s.size = 0 := by
  rw [topNode?, Option.map_eq_none_iff, top?, Array.back?_eq_none_iff, size, Array.size_eq_zero_iff]

theorem size_ne_zero (h : s.topNode? = some n) : s.size ≠ 0 := fun hsize => by
  rw [topNode?_eq_none_iff.2 hsize] at h
  cases h

/-- The current node has one entry: what holds of that, holds of all entries it has. -/
theorem forall_top {t : SearchTree ProgramState Step} {e : SearchTree.Node ProgramState Step}
    {P : SearchTree.Node ProgramState Step → Prop} (h : s.topNode? = some n)
    (hn : t.node? n = some e) (he : P e) :
    ∀ m e, s.topNode? = some m → t.node? m = some e → P e := by
  intro m e' hm he'
  obtain rfl : n = m := Option.some.inj (h.symm.trans hm)
  obtain rfl : e = e' := Option.some.inj (hn.symm.trans he')
  exact he

theorem holds_top (h : s.topNode? = some n) : s.Holds n := by
  obtain ⟨f, hf, hn⟩ := topNode?_eq_some_iff.1 h
  exact ⟨_, f, hf, hn⟩

@[simp] theorem topNode?_push : (s.push f).topNode? = some f.node := by
  rw [topNode?_eq_some_iff, size_push]
  exact ⟨f, (frame?_push _).trans (if_pos rfl), rfl⟩

theorem position?_eq_none_iff : s.position? n = none ↔ ¬s.Holds n := by
  simp only [position?, Array.findIdx?_eq_none_iff, Holds, not_exists, not_and, frame?]
  constructor
  · intro h i f hf hn
    have := h f (Array.mem_of_getElem? hf)
    simp [hn] at this
  · intro h f hf
    obtain ⟨i, hi⟩ := Array.getElem?_of_mem hf
    simpa using h i f hi

/-- A frame below the index stands for the node. -/
def HoldsBelow (s : SearchStack Step) (limit : Nat) (n : NodeId) : Prop :=
  ∃ i f, i < limit ∧ s.frame? i = some f ∧ f.node = n

theorem exists_frame_of_position? (h : s.position? n = some i) : ∃ f, s.frame? i = some f ∧ f.node = n := by
  obtain ⟨hi, hnode, -⟩ := Array.findIdx?_eq_some_iff_getElem.1 h
  exact ⟨_, Array.getElem?_eq_getElem hi, by simpa using hnode⟩

theorem frame?_truncate (size i : Nat) :
    (s.truncate size).frame? i = if i < size then s.frame? i else none := by
  simp only [frame?, truncate, Array.take_eq_extract, Array.getElem?_extract, Nat.sub_zero,
    Nat.zero_add]
  by_cases hi : i < size
  · by_cases hs : i < s.frames.size
    · rw [if_pos (by omega), if_pos hi]
    · rw [if_neg (by omega), if_pos hi, Array.getElem?_eq_none (by omega)]
  · rw [if_neg (by omega), if_neg hi]

theorem size_truncate (size : Nat) : (s.truncate size).size = min size s.size := by
  simp [SearchStack.size, truncate]

/-- `s'` consists of the lowest frames of `s`, of at least `size` of them. -/
structure Prefix (size : Nat) (s s' : SearchStack Step) : Prop where
  size_le : size ≤ s'.size
  frame : ∀ i f, s'.frame? i = some f → s.frame? i = some f
  low : ∀ i < size, s'.frame? i = s.frame? i

namespace Prefix

variable {size : Nat}

theorem refl (h : size ≤ s.size) : Prefix size s s := ⟨h, fun _ _ h => h, fun _ _ => rfl⟩

theorem mono {base : Nat} (h : Prefix size s s') (hle : base ≤ size) : Prefix base s s' :=
  ⟨Nat.le_trans hle h.size_le, h.frame, fun i hi => h.low i (Nat.lt_of_lt_of_le hi hle)⟩

theorem unwind {node : Option NodeId} {excess : Nat} (h : size + excess ≤ s.size) :
    Prefix size s (SearchStack.unwind node excess s) := by
  induction excess generalizing s with
  | zero => exact .refl h
  | succ excess ih =>
    rw [SearchStack.unwind]
    split
    · exact .refl (by omega)
    · have hrest := ih (s := s.pop) (by rw [size_pop]; omega)
      refine ⟨hrest.size_le, fun i f hf => ?_, fun i hi => ?_⟩
      · have hf := hrest.frame i f hf
        rw [frame?_pop] at hf
        split at hf
        · exact hf
        · cases hf
      · rw [hrest.low i hi, frame?_pop, if_pos (by omega)]

theorem unwindTo {node : Option NodeId} (h : size ≤ s.size) :
    Prefix size s (s.unwindTo size node) := .unwind (by omega)

theorem truncate (h : size ≤ s.size) : Prefix size s (s.truncate size) := by
  refine ⟨by rw [size_truncate, Nat.min_eq_left h], fun i f hf => ?_, fun i hi => ?_⟩
  · rw [frame?_truncate] at hf
    split at hf
    · exact hf
    · cases hf
  · rw [frame?_truncate, if_pos hi]

end Prefix

/-- The frames of `s'` are those of `s`, apart from their locks. -/
structure Relocks (s s' : SearchStack Step) : Prop where
  size_eq : s'.size = s.size
  frame : ∀ i f, s.frame? i = some f → ∃ locks, s'.frame? i = some { f with locks }

namespace Relocks

theorem refl (s : SearchStack Step) : s.Relocks s := ⟨rfl, fun _ f h => ⟨f.locks, h⟩⟩

theorem trans {s'' : SearchStack Step} (h : s.Relocks s') (h' : s'.Relocks s'') : s.Relocks s'' := by
  refine ⟨h'.size_eq.trans h.size_eq, fun i f hf => ?_⟩
  obtain ⟨locks, hf'⟩ := h.frame i f hf
  obtain ⟨locks', hf''⟩ := h'.frame i _ hf'
  exact ⟨locks', hf''⟩

theorem exists_frame (h : s.Relocks s') (hf : s'.frame? i = some f) :
    ∃ locks, s.frame? i = some { f with locks } := by
  have hlt := frame?_lt hf
  rw [h.size_eq] at hlt
  obtain ⟨f', hf'⟩ := exists_frame_of_lt hlt
  obtain ⟨locks, hf''⟩ := h.frame i f' hf'
  rw [hf, Option.some.injEq] at hf''
  exact ⟨f'.locks, by rw [hf', hf'']⟩

theorem holds_iff (h : s.Relocks s') : s'.Holds n ↔ s.Holds n := by
  constructor
  · rintro ⟨i, f, hf, hn⟩
    obtain ⟨locks, hf'⟩ := h.exists_frame hf
    exact ⟨i, _, hf', hn⟩
  · rintro ⟨i, f, hf, hn⟩
    obtain ⟨locks, hf'⟩ := h.frame i f hf
    exact ⟨i, _, hf', hn⟩

theorem topNode?_eq (h : s.Relocks s') : s'.topNode? = s.topNode? := by
  apply Option.ext
  intro n
  rw [topNode?_eq_some_iff, topNode?_eq_some_iff, h.size_eq]
  constructor
  · rintro ⟨f, hf, hn⟩
    obtain ⟨locks, hf'⟩ := h.exists_frame hf
    exact ⟨_, hf', hn⟩
  · rintro ⟨f, hf, hn⟩
    obtain ⟨locks, hf'⟩ := h.frame _ f hf
    exact ⟨_, hf', hn⟩

theorem release (s : SearchStack Step) (lock : LockId) : s.Relocks (s.releaseWhereAcquired lock) := by
  unfold releaseWhereAcquired
  split
  · rename_i j _
    refine ⟨Array.size_modify, fun i f hf => ?_⟩
    simp only [frame?, modify, Array.getElem?_modify] at hf ⊢
    split
    · exact ⟨f.locks.erase lock, by rw [hf]; rfl⟩
    · exact ⟨f.locks, hf⟩
  · exact .refl s

theorem releaseAll (s : SearchStack Step) (locks : List LockId) :
    s.Relocks (locks.foldl releaseWhereAcquired s) := by
  induction locks generalizing s with
  | nil => exact .refl s
  | cons lock locks ih => exact (release s lock).trans (ih _)

end Relocks

end SearchStack

/-! ## Stacks that perform a run -/

section Following

variable {p : Program} {t : SearchTree ProgramState Step} {stack stack' : SearchStack Step}
  {w : List Step}

/-- The frames from the root on have the steps of `w`, and `R` holds of each step and the nodes below and
above it. -/
structure Carries (R : NodeId → Step → NodeId → Prop) (stack : SearchStack Step) (w : List Step) :
    Prop where
  size_eq : stack.size = w.length + 1
  bottom : ∃ f, stack.frame? 0 = some f ∧ f.node = SearchTree.root ∧ f.action = none
  next : ∀ i a, w[i]? = some a → ∃ f g, stack.frame? i = some f ∧ stack.frame? (i + 1) = some g ∧
    g.action = some a ∧ R f.node a g.node

namespace Carries

variable {R R' : NodeId → Step → NodeId → Prop} {i : Nat} {f : Frame Step} (h : Carries R stack w)
include h

theorem frame?_lt (hf : stack.frame? i = some f) : i ≤ w.length := by
  have hlt := SearchStack.frame?_lt hf
  have hsize := h.size_eq
  omega

theorem exists_frame (hi : i ≤ w.length) : ∃ f, stack.frame? i = some f :=
  SearchStack.exists_frame_of_lt (h.size_eq ▸ Nat.lt_succ_of_le hi)

theorem action_of_frame (hf : stack.frame? (i + 1) = some f) : f.action = w[i]? := by
  have hlt := h.frame?_lt hf
  have hget : w[i]? = some w[i] := List.getElem?_eq_getElem (by omega)
  obtain ⟨f', g, -, hg, ha, -⟩ := h.next i _ hget
  rw [hf, Option.some.injEq] at hg
  subst hg
  rw [ha, hget]

theorem mono (hR : ∀ m a n, a ∈ w → R m a n → R' m a n) : Carries R' stack w := by
  refine ⟨h.size_eq, h.bottom, fun i a ha => ?_⟩
  obtain ⟨f, g, hf, hg, hga, hnext⟩ := h.next i a ha
  exact ⟨f, g, hf, hg, hga, hR _ _ _ (List.mem_of_getElem? ha) hnext⟩

theorem relocks (hs : stack.Relocks stack') : Carries R stack' w := by
  refine ⟨hs.size_eq.trans h.size_eq, ?_, fun i a ha => ?_⟩
  · obtain ⟨f, hf, hnode, haction⟩ := h.bottom
    obtain ⟨locks, hf'⟩ := hs.frame 0 f hf
    exact ⟨_, hf', hnode, haction⟩
  · obtain ⟨f, g, hf, hg, hga, hnext⟩ := h.next i a ha
    obtain ⟨locks, hf'⟩ := hs.frame i f hf
    obtain ⟨locks', hg'⟩ := hs.frame (i + 1) g hg
    exact ⟨_, _, hf', hg', hga, hnext⟩

/-- The frame of another step is put on top. -/
theorem push {top f : Frame Step} {e : Step} (htop : stack.frame? w.length = some top)
    (hf : f.action = some e) (hnext : R top.node e f.node) :
    Carries R (stack.push f) (w ++ [e]) := by
  have hold : ∀ {i g}, stack.frame? i = some g → (stack.push f).frame? i = some g := by
    intro i g hg
    rw [SearchStack.frame?_push, if_neg (Nat.ne_of_lt (SearchStack.frame?_lt hg))]
    exact hg
  refine ⟨by simp [h.size_eq], ?_, fun i a ha => ?_⟩
  · obtain ⟨b, hb, hbottom⟩ := h.bottom
    exact ⟨b, hold hb, hbottom⟩
  · rcases Nat.lt_or_ge i w.length with hi | hi
    · rw [List.getElem?_append_left hi] at ha
      obtain ⟨b, g, hb, hg, hrest⟩ := h.next i a ha
      exact ⟨b, g, hold hb, hold hg, hrest⟩
    · obtain rfl : i = w.length := by
        have := (List.getElem?_eq_some_iff.1 ha).1
        simp only [List.length_append, List.length_singleton] at this
        omega
      obtain rfl : e = a := by simpa using ha
      refine ⟨top, f, hold htop, ?_, hf, hnext⟩
      rw [SearchStack.frame?_push, if_pos h.size_eq.symm]

end Carries

/-- The steps of the frames are those of `w`. Each of these leads from a node with the state of the one
below, which need not be that one. -/
def Performs (t : SearchTree ProgramState Step) (stack : SearchStack Step) (w : List Step) : Prop :=
  Carries (fun m a n => ∃ k, t.Edge k a n ∧ t.state k = t.state m) stack w

namespace Performs

variable {i : Nat} {f : Frame Step} (h : Performs t stack w)
include h

/-- Up to each frame the steps are a run, which leads to the state of its node. -/
theorem run_of_frame (ht : t.Sound p) (hf : stack.frame? i = some f) :
    p.IsRun p.initialState (w.take i) ∧ t.state f.node = p.initialState.afterAll (w.take i) := by
  induction i generalizing f with
  | zero =>
    obtain ⟨f', hf', hnode, -⟩ := h.bottom
    obtain rfl := Option.some.inj (hf.symm.trans hf')
    rw [hnode, ht.state_root]
    exact ⟨trivial, rfl⟩
  | succ i ih =>
    have hlt := h.frame?_lt hf
    have hget : w[i]? = some w[i] := List.getElem?_eq_getElem (by omega)
    obtain ⟨f', g, hf', hg, -, m, hedge, hstate⟩ := h.next i _ hget
    obtain rfl := Option.some.inj (hf.symm.trans hg)
    obtain ⟨hrun, hbelow⟩ := ih hf'
    have hcan := ht.canRun hedge
    rw [hstate, hbelow] at hcan
    rw [List.take_add_one, hget, Option.toList_some, ProgramState.afterAll_append, ← hbelow, ← hstate]
    exact ⟨Program.isRun_append.2 ⟨hrun, hcan, trivial⟩, ht.state_edge hedge⟩

theorem isRun (ht : t.Sound p) : p.IsRun p.initialState w := by
  obtain ⟨f, hf⟩ := h.exists_frame (Nat.le_refl _)
  rw [← List.take_length (l := w)]
  exact (h.run_of_frame ht hf).1

theorem state_of_frame (ht : t.Sound p) (hf : stack.frame? i = some f) :
    t.state f.node = p.initialState.afterAll (w.take i) := (h.run_of_frame ht hf).2

theorem isGenuine (ht : t.Sound p) : stack.IsGenuine p := by
  rintro (_ | i) f a hf ha
  · obtain ⟨f', hf', -, hnone⟩ := h.bottom
    rw [hf, Option.some.injEq] at hf'
    subst hf'
    rw [hnone] at ha
    cases ha
  · rw [h.action_of_frame hf] at ha
    exact (h.isRun ht).hasStep (List.mem_of_getElem? ha)

end Performs

/-! ## Stacks that follow a path of the tree -/

/-- The stack goes from the root along the steps of `w`. -/
structure Follows (t : SearchTree ProgramState Step) (stack : SearchStack Step) (w : List Step) :
    Prop where
  size_eq : stack.size = w.length + 1
  bottom : ∃ f, stack.frame? 0 = some f ∧ f.node = SearchTree.root ∧ f.action = none
  next : ∀ i a, w[i]? = some a → ∃ f g, stack.frame? i = some f ∧ stack.frame? (i + 1) = some g ∧
    g.action = some a ∧ t.Edge f.node a g.node

theorem follows_iff : Follows t stack w ↔ Carries t.Edge stack w :=
  ⟨fun h => ⟨h.size_eq, h.bottom, h.next⟩, fun h => ⟨h.size_eq, h.bottom, h.next⟩⟩

namespace Follows

theorem performs (h : Follows t stack w) : Performs t stack w :=
  (follows_iff.1 h).mono fun m _ _ _ hedge => ⟨m, hedge, rfl⟩

theorem frame?_lt {i : Nat} {f : Frame Step} (h : Follows t stack w)
    (hf : stack.frame? i = some f) : i ≤ w.length := h.performs.frame?_lt hf

/-- The edges along a stack are all that counts of the tree. -/
theorem mono {t' : SearchTree ProgramState Step} (h : Follows t stack w)
    (hedge : ∀ k a c, t.Edge k a c → t'.Edge k a c) : Follows t' stack w :=
  follows_iff.2 ((follows_iff.1 h).mono fun _ _ _ _ => hedge _ _ _)

/-- The frame at an index has the step before it, and the run leads there. -/
theorem walk_of_frame {i : Nat} {f : Frame Step} (h : Follows t stack w)
    (hf : stack.frame? i = some f) : Walk t.Edge SearchTree.root (w.take i) f.node := by
  induction i generalizing f with
  | zero =>
    obtain ⟨f', hf', hnode, -⟩ := h.bottom
    rw [hf, Option.some.injEq] at hf'
    subst hf'
    rw [hnode]
    exact .nil _
  | succ i ih =>
    have hlt := h.frame?_lt hf
    have hget : w[i]? = some w[i] := List.getElem?_eq_getElem (by omega)
    obtain ⟨f', g, hf', hg, -, hedge⟩ := h.next i _ hget
    rw [hf, Option.some.injEq] at hg
    subst hg
    rw [List.take_add_one, hget]
    exact Walk.snoc_iff.2 ⟨_, ih hf', hedge⟩

theorem action_of_frame {i : Nat} {f : Frame Step} (h : Follows t stack w)
    (hf : stack.frame? (i + 1) = some f) : f.action = w[i]? := h.performs.action_of_frame hf

theorem isRun (ht : t.Sound p) (h : Follows t stack w) : p.IsRun p.initialState w :=
  h.performs.isRun ht

theorem state_of_frame (ht : t.Sound p) (h : Follows t stack w) {i : Nat} {f : Frame Step}
    (hf : stack.frame? i = some f) : t.state f.node = p.initialState.afterAll (w.take i) :=
  h.performs.state_of_frame ht hf

theorem isGenuine (ht : t.Sound p) (h : Follows t stack w) : stack.IsGenuine p :=
  h.performs.isGenuine ht

/-- The actions from an index on. -/
theorem chainedActions (h : Follows t stack w) (i : Nat) :
    Exploration.chainedActions t stack (i + 1) = w.drop i := by
  have hsize := h.size_eq
  unfold Exploration.chainedActions
  have hlength : stack.size - (i + 1) = w.length - i := by omega
  rw [hlength]
  generalize hn : w.length - i = k
  induction k generalizing i with
  | zero => rw [List.drop_eq_nil_of_le (by omega)]; rfl
  | succ k ih =>
    have hget : w[i]? = some w[i] := List.getElem?_eq_getElem (by omega)
    obtain ⟨f, g, hf, hg, ha, hedge⟩ := h.next i _ hget
    rw [List.range'_succ, List.filterMap_cons]
    simp only [hg, Nat.add_sub_cancel, hf, hedge.1, if_true, ha]
    rw [ih (i + 1) (by omega) (by omega), ← List.drop_eq_getElem_cons]

theorem topNode?_eq {f : Frame Step} (h : Follows t stack w)
    (hf : stack.frame? w.length = some f) : stack.topNode? = some f.node := by
  rw [SearchStack.topNode?_eq_some_iff, h.size_eq]
  exact ⟨f, hf, rfl⟩

theorem exists_top {n : NodeId} (h : Follows t stack w) (htop : stack.topNode? = some n) :
    ∃ f, stack.frame? w.length = some f ∧ f.node = n := by
  obtain ⟨f, hf, hn⟩ := SearchStack.topNode?_eq_some_iff.1 htop
  rw [h.size_eq] at hf
  exact ⟨f, hf, hn⟩

/-- A path of the tree that ends at a frame is the last part of the run up to it. -/
theorem exists_split (ht : t.Sound p) (h : Follows t stack w) {i : Nat} {f : Frame Step} {n : NodeId}
    {v : List Step} (hf : stack.frame? i = some f) (hv : Walk t.Edge n v f.node) :
    ∃ u, w.take i = u ++ v ∧ ∃ g, stack.frame? u.length = some g ∧ g.node = n := by
  induction i generalizing f v with
  | zero =>
    obtain ⟨f', hf', hnode, -⟩ := h.bottom
    obtain rfl : f = f' := Option.some.inj (hf.symm.trans hf')
    rcases List.eq_nil_or_concat v with rfl | ⟨v, a, rfl⟩
    · cases hv
      exact ⟨[], by simp, f, hf, rfl⟩
    · -- nothing leads to the root
      rw [List.concat_eq_append] at hv
      obtain ⟨m, -, hedge⟩ := Walk.snoc_iff.1 hv
      have hlt := ht.index_lt hedge
      rw [hnode] at hlt
      exact absurd hlt (Nat.not_lt_zero _)
  | succ i ih =>
    have hlt := h.frame?_lt hf
    have hget : w[i]? = some w[i] := List.getElem?_eq_getElem (by omega)
    obtain ⟨below, f', hbelow, hf', -, hedge⟩ := h.next i _ hget
    obtain rfl : f = f' := Option.some.inj (hf.symm.trans hf')
    rcases List.eq_nil_or_concat v with rfl | ⟨v, a, rfl⟩
    · cases hv
      refine ⟨w.take (i + 1), by simp, f, ?_, rfl⟩
      rw [List.length_take_of_le hlt]
      exact hf
    · -- the last edge of the path is that of the run, since a node is the child of one node only
      rw [List.concat_eq_append] at hv ⊢
      obtain ⟨m, hvm, hedge'⟩ := Walk.snoc_iff.1 hv
      obtain ⟨rfl, rfl⟩ := hedge'.unique hedge
      obtain ⟨u, hu, hg⟩ := ih hbelow hvm
      refine ⟨u, ?_, hg⟩
      rw [List.take_add_one, hget, hu]
      simp

theorem relocks (h : Follows t stack w) (hs : stack.Relocks stack') : Follows t stack' w :=
  follows_iff.2 ((follows_iff.1 h).relocks hs)

theorem push {top f : Frame Step} {e : Step} (h : Follows t stack w)
    (htop : stack.frame? w.length = some top) (hf : f.action = some e)
    (hedge : t.Edge top.node e f.node) : Follows t (stack.push f) (w ++ [e]) :=
  follows_iff.2 ((follows_iff.1 h).push htop hf hedge)

/-- Below the top frame of a run, the stack follows the run without its last step. -/
theorem pop {e : Step} (h : Follows t stack (w ++ [e])) : Follows t stack.pop w := by
  have hsize := h.size_eq
  simp only [List.length_append, List.length_singleton] at hsize
  have hframe : ∀ i f, i ≤ w.length → stack.frame? i = some f → stack.pop.frame? i = some f := by
    intro i f hi hf
    rw [SearchStack.frame?_pop, if_pos (by omega)]
    exact hf
  refine ⟨by simp [hsize], ?_, ?_⟩
  · obtain ⟨f, hf, hnode, haction⟩ := h.bottom
    exact ⟨f, hframe 0 f (by omega) hf, hnode, haction⟩
  · intro i a ha
    have hi := (List.getElem?_eq_some_iff.1 ha).1
    obtain ⟨f, g, hf, hg, hga, hedge⟩ := h.next i a (by rwa [List.getElem?_append_left hi])
    exact ⟨f, g, hframe i f (by omega) hf, hframe (i + 1) g (by omega) hg, hga, hedge⟩

/-- A node stands below those made after it. -/
theorem index_lt (ht : t.Sound p) (h : Follows t stack w) {i j : Nat} {f g : Frame Step} (hij : i < j)
    (hf : stack.frame? i = some f) (hg : stack.frame? j = some g) : f.node.index < g.node.index := by
  induction j generalizing g with
  | zero => omega
  | succ j ih =>
    have hlt := h.frame?_lt hg
    have hget : w[j]? = some w[j] := List.getElem?_eq_getElem (by omega)
    obtain ⟨b, g', hb, hg', -, hedge⟩ := h.next j _ hget
    obtain rfl : g = g' := Option.some.inj (hg.symm.trans hg')
    have hlast := ht.index_lt hedge
    rcases Nat.lt_or_ge i j with hij' | hij'
    · exact Nat.lt_trans (ih hij' hb) hlast
    · obtain rfl : i = j := by omega
      obtain rfl : f = b := Option.some.inj (hf.symm.trans hb)
      exact hlast

/-- No node on the stack is younger than the current one. -/
theorem index_le_top {n c : NodeId} (ht : t.Sound p) (h : Follows t stack w)
    (htop : stack.topNode? = some n) (hc : stack.Holds c) : c.index ≤ n.index := by
  obtain ⟨f, hf, rfl⟩ := h.exists_top htop
  obtain ⟨i, g, hg, rfl⟩ := hc
  rcases Nat.lt_or_eq_of_le (h.frame?_lt hg) with hlt | rfl
  · exact Nat.le_of_lt (h.index_lt ht hlt hg hf)
  · rw [Option.some.inj (hg.symm.trans hf)]

/-- A child of the current node is not on the stack. -/
theorem not_holds_child {n c : NodeId} {a : Step} (ht : t.Sound p) (h : Follows t stack w)
    (htop : stack.topNode? = some n) (hedge : t.Edge n a c) : ¬stack.Holds c := fun hc =>
  absurd (h.index_le_top ht htop hc) (Nat.not_le_of_lt (ht.index_lt hedge))

end Follows

/-! ## What holds of each frame -/

/-- The stack is empty, or it follows a run, and `R` holds of each frame and the run up to it. -/
def EachFrame (R : List Step → Frame Step → Prop) (t : SearchTree ProgramState Step)
    (stack : SearchStack Step) : Prop :=
  stack.size = 0 ∨ ∃ w, Follows t stack w ∧ ∀ i f, stack.frame? i = some f → R (w.take i) f

namespace EachFrame

variable {R : List Step → Frame Step → Prop} (hlocks : ∀ w f locks, R w { f with locks } → R w f)

include hlocks in
/-- Locks may be released and a frame may be put on top, if `R` holds of that. -/
theorem forall_push {f : Frame Step} {e : Step} (hsize : stack.size = w.length + 1)
    (hframes : ∀ i f, stack.frame? i = some f → R (w.take i) f) (hrelocks : stack.Relocks stack')
    (hR : R (w ++ [e]) f) {i : Nat} {g : Frame Step} (hg : (stack'.push f).frame? i = some g) :
    R ((w ++ [e]).take i) g := by
  have hsize' : stack'.size = w.length + 1 := hrelocks.size_eq.trans hsize
  rw [SearchStack.frame?_push] at hg
  split at hg
  · rename_i hi
    obtain rfl := Option.some.inj hg
    rwa [hi, hsize', List.take_of_length_le (by simp)]
  · obtain ⟨locks, hg'⟩ := hrelocks.exists_frame hg
    have hlt := SearchStack.frame?_lt hg'
    rw [List.take_append_of_le_length (by omega)]
    exact hlocks _ g locks (hframes i _ hg')

/-- Where there is a current node, there is a run. -/
theorem exists_follows {n : NodeId} (h : EachFrame R t stack) (htop : stack.topNode? = some n) :
    ∃ w, Follows t stack w ∧ ∀ i f, stack.frame? i = some f → R (w.take i) f :=
  h.resolve_left (SearchStack.size_ne_zero htop)

include hlocks in
/-- Locks may be released, if they do not count. -/
theorem relocks (h : EachFrame R t stack) (hs : stack.Relocks stack') : EachFrame R t stack' := by
  refine h.imp (fun hsize => hs.size_eq.trans hsize) fun ⟨w, hfollows, hframes⟩ => ?_
  refine ⟨w, hfollows.relocks hs, fun i f hf => ?_⟩
  obtain ⟨locks, hf'⟩ := hs.exists_frame hf
  exact hlocks _ f locks (hframes i _ hf')

theorem pop (h : EachFrame R t stack) : EachFrame R t stack.pop := by
  rcases h with hsize | ⟨w, hfollows, hframes⟩
  · exact .inl (by rw [SearchStack.size_pop, hsize])
  rcases List.eq_nil_or_concat w with rfl | ⟨w, a, rfl⟩
  · exact .inl (by rw [SearchStack.size_pop, hfollows.size_eq]; rfl)
  rw [List.concat_eq_append] at hfollows hframes
  refine .inr ⟨w, hfollows.pop, fun i f hf => ?_⟩
  have hi := hfollows.pop.frame?_lt hf
  rw [SearchStack.frame?_pop] at hf
  split at hf
  · have hR := hframes i f hf
    rwa [List.take_append_of_le_length hi] at hR
  · cases hf

/-- The frame of the root. -/
theorem root (hroot : R [] (.root SearchTree.root)) (hsize : stack.size = 0) :
    EachFrame R t (stack.push (.root SearchTree.root)) := by
  have hframe : ∀ i f, (stack.push (.root SearchTree.root)).frame? i = some f →
      i = 0 ∧ f = .root SearchTree.root := by
    intro i f hf
    rw [SearchStack.frame?_push, hsize] at hf
    split at hf
    · rename_i hi
      exact ⟨hi, (Option.some.inj hf).symm⟩
    · have := SearchStack.frame?_lt hf
      omega
  refine .inr ⟨[], ⟨by rw [SearchStack.size_push, hsize]; rfl, ?_, by simp⟩, fun i f hf => ?_⟩
  · exact ⟨.root SearchTree.root, by rw [SearchStack.frame?_push, if_pos hsize.symm], rfl, rfl⟩
  · obtain ⟨-, rfl⟩ := hframe i f hf
    rwa [List.take_nil]

include hlocks in
/-- The frame of a step from the current node is put on top, and locks are released. -/
theorem push {last f : Frame Step} {e : Step} (hfollows : Follows t stack w)
    (hframes : ∀ i f, stack.frame? i = some f → R (w.take i) f) (hrelocks : stack.Relocks stack')
    (htop : stack.frame? w.length = some last) (hf : f.action = some e)
    (hedge : t.Edge last.node e f.node) (hR : R (w ++ [e]) f) : EachFrame R t (stack'.push f) := by
  obtain ⟨locks, htop'⟩ := hrelocks.frame _ _ htop
  exact .inr ⟨w ++ [e], (hfollows.relocks hrelocks).push htop' hf hedge, fun i g hg =>
    forall_push hlocks hfollows.size_eq hframes hrelocks hR hg⟩

/-- The tree may change, as long as its edges stay. -/
theorem retree {t' : SearchTree ProgramState Step} (h : EachFrame R t stack)
    (hedges : ∀ m a n, t.Edge m a n → t'.Edge m a n) : EachFrame R t' stack := by
  exact h.imp_right fun ⟨w, hfollows, hframes⟩ => ⟨w, hfollows.mono hedges, hframes⟩

end EachFrame

end Following

end Interleaving
