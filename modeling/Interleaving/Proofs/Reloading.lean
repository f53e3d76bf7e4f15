import Interleaving.Program.Format
import Interleaving.Proofs.Enumeration

/-!
# States that are written and read back

The locks of a state are written by their texts, and the lock of atomic blocks has a text that a mutex may
have as its name. So a table of locks reads back as it was exactly if no mutex of that name is held
(`ProgramState.reread_eq_iff`).
-/

namespace Interleaving

open Std (TransOrd LawfulEqOrd)

/-! ## Maps of lists of pairs -/

namespace SortedMap

variable {κ β : Type} [Ord κ] [TransOrd κ] [LawfulEqOrd κ] [DecidableEq κ] {l : List (κ × β)} {k : κ}
  {v : β}

theorem get?_foldl_put_pairs (m : SortedMap κ β) :
    get? (l.foldl (fun m e => put m e.1 e.2) m) k = (get? (ofPairs l) k).or (get? m k) := by
  have hstart : ∀ (l : List (κ × β)) (m : SortedMap κ β),
      get? (l.foldl (fun m e => put m e.1 e.2) m) k =
        (get? (l.foldl (fun m e => put m e.1 e.2) (∅ : Keyed _)) k).or (get? m k) := by
    intro l
    induction l with
    | nil => exact fun m => rfl
    | cons e l ih =>
      intro m
      rw [List.foldl_cons, List.foldl_cons, ih, ih (put _ _ _), get?_put, get?_put, Option.or_assoc]
      split <;> rfl
  exact hstart l m

/-- A later pair of the same key counts. -/
theorem get?_ofPairs_cons (e : κ × β) : get? (ofPairs (e :: l)) k =
    (get? (ofPairs l) k).or (if k = e.1 then some e.2 else none) := by
  show get? (l.foldl _ (put _ e.1 e.2)) k = _
  rw [get?_foldl_put_pairs, get?_put]
  rfl

theorem get?_ofPairs_eq_none_iff : get? (ofPairs l) k = none ↔ ∀ e ∈ l, e.1 ≠ k := by
  induction l with
  | nil => exact ⟨fun _ e he => (List.not_mem_nil he).elim, fun _ => rfl⟩
  | cons e l ih =>
    rw [get?_ofPairs_cons, Option.or_eq_none_iff, ih, List.forall_mem_cons, and_comm]
    simp [eq_comm]

/-- The map of a list of pairs has the last pair of each key. -/
theorem get?_ofPairs_eq_some_iff :
    get? (ofPairs l) k = some v ↔ ∃ y z, l = y ++ (k, v) :: z ∧ ∀ e ∈ z, e.1 ≠ k := by
  induction l with
  | nil =>
    constructor
    · intro h
      cases h
    · rintro ⟨y, z, h, -⟩
      simp at h
  | cons e l ih =>
    rw [get?_ofPairs_cons, Option.or_eq_some_iff, ih, get?_ofPairs_eq_none_iff]
    constructor
    · -- the last pair of the key is in the rest of the list, or it is the first one
      rintro (⟨y, z, rfl, hz⟩ | ⟨hl, he⟩)
      · exact ⟨e :: y, z, rfl, hz⟩
      · obtain ⟨hk, hv⟩ := Option.ite_none_right_eq_some.1 he
        cases hv
        exact ⟨[], l, by rw [hk]; rfl, hl⟩
    · rintro ⟨y, z, h, hz⟩
      cases y with
      | nil =>
        obtain ⟨rfl, rfl⟩ := List.cons.inj h
        exact .inr ⟨hz, if_pos rfl⟩
      | cons d y =>
        obtain ⟨rfl, rfl⟩ := List.cons.inj h
        exact .inl ⟨y, z, rfl, hz⟩

/-- If no key occurs twice, the map has just the pairs of the list. -/
theorem get?_ofPairs_of_pairwise (h : l.Pairwise fun e f => e.1 ≠ f.1) :
    get? (ofPairs l) k = some v ↔ (k, v) ∈ l := by
  rw [get?_ofPairs_eq_some_iff]
  constructor
  · rintro ⟨y, z, rfl, -⟩
    simp
  · intro hmem
    obtain ⟨y, z, rfl⟩ := List.append_of_mem hmem
    obtain ⟨-, hz, -⟩ := List.pairwise_append.1 h
    exact ⟨y, z, rfl, fun e he => ((List.pairwise_cons.1 hz).1 e he).symm⟩

omit [TransOrd κ] [DecidableEq κ] in
theorem pairwise_fst_ne (m : SortedMap κ β) : m.toList.Pairwise fun e f => e.1 ≠ f.1 :=
  List.pairwise_map.1 m.nodup_keys

/-- A map is the map of its pairs. -/
theorem ofPairs_toList (m : SortedMap κ β) : ofPairs m.toList = m := by
  refine ext_get? fun k => Option.ext fun v => ?_
  rw [get?_ofPairs_of_pairwise m.pairwise_fst_ne, get?_eq_some_iff]

end SortedMap

/-! ## Locks and their texts -/

namespace LockId

variable {m x : String}

theorem ofText_eq_named_iff : ofText x = named m ↔ x = m ∧ m ≠ atomicText := by
  unfold ofText
  split
  · rename_i h
    simp [h, eq_comm]
  · rename_i h
    simp only [named.injEq]
    exact ⟨fun hx => ⟨hx, hx ▸ h⟩, And.left⟩

theorem ofText_eq_atomic_iff : ofText x = atomic ↔ x = atomicText := by
  unfold ofText
  split <;> simp [*]

theorem ofText_injective {x y : String} (h : ofText x = ofText y) : x = y := by
  cases hy : ofText y with
  | named m =>
    rw [hy] at h
    exact (ofText_eq_named_iff.1 h).1.trans (ofText_eq_named_iff.1 hy).1.symm
  | atomic =>
    rw [hy] at h
    exact (ofText_eq_atomic_iff.1 h).trans (ofText_eq_atomic_iff.1 hy).symm

/-- The lock of atomic blocks comes after all others. -/
theorem compare_atomic_ne_lt (lock : LockId) : compare atomic lock ≠ .lt := by
  cases lock with
  | named m => simp [compare, compareLex, compareOn, isAtomic]
  | atomic => simp

end LockId

namespace ProgramState

variable {s : ProgramState} {locks : SortedMap LockId ProcessId} {q : ProcessId} {x : String}

/-- The pair written for a text is that of the last lock with this text. -/
theorem get?_lockTexts_eq_some_iff : SortedMap.get? (lockTexts locks) x = some q ↔
    ∃ y lock z, locks.toList = y ++ (lock, q) :: z ∧ lock.text = x ∧ ∀ e ∈ z, e.1.text ≠ x := by
  unfold lockTexts
  rw [SortedMap.get?_ofPairs_eq_some_iff]
  constructor
  · rintro ⟨y, z, h, hz⟩
    obtain ⟨y, w, hlocks, rfl, hw⟩ := List.map_eq_append_iff.1 h
    obtain ⟨⟨lock, r⟩, z, rfl, hpair, rfl⟩ := List.map_eq_cons_iff.1 hw
    cases hpair
    exact ⟨y, lock, z, hlocks, rfl, fun e he => hz _ (List.mem_map_of_mem he)⟩
  · rintro ⟨y, lock, z, h, rfl, hz⟩
    refine ⟨_, _, by rw [h, List.map_append, List.map_cons], fun _ hmem => ?_⟩
    obtain ⟨e, he, rfl⟩ := List.mem_map.1 hmem
    exact hz e he

/-- The locks of a table come in order. -/
theorem lt_of_split {lock : LockId} {y z : List (LockId × ProcessId)}
    (h : locks.toList = y ++ (lock, q) :: z) :
    (∀ e ∈ y, compare e.1 lock = .lt) ∧ ∀ e ∈ z, compare lock e.1 = .lt := by
  have hincreasing := locks.increasing
  rw [h, List.pairwise_append, List.pairwise_cons] at hincreasing
  obtain ⟨-, ⟨hz, -⟩, hy⟩ := hincreasing
  exact ⟨fun e he => hy e he _ List.mem_cons_self, hz⟩

/-- At the text of the lock of atomic blocks, that lock counts before a mutex of this name. -/
theorem get?_lockTexts : SortedMap.get? (lockTexts locks) x =
    (if x = LockId.atomicText then SortedMap.get? locks .atomic else none).or
      (SortedMap.get? locks (.named x)) := by
  apply Option.ext
  intro q
  rw [get?_lockTexts_eq_some_iff, Option.or_eq_some_iff]
  constructor
  · rintro ⟨y, lock, z, h, htext, hz⟩
    have hheld : SortedMap.get? locks lock = some q := SortedMap.get?_eq_some_iff.2 (by simp [h])
    cases lock with
    | atomic =>
      have hx : x = LockId.atomicText := htext.symm
      exact .inl (by rw [if_pos hx, hheld])
    | named m =>
      obtain rfl : m = x := htext
      refine .inr ⟨Option.eq_none_iff_forall_ne_some.2 fun r hr => ?_, hheld⟩
      obtain ⟨hm, hr⟩ := Option.ite_none_right_eq_some.1 hr
      have hmem := SortedMap.get?_eq_some_iff.1 hr
      rw [h, List.mem_append, List.mem_cons] at hmem
      rcases hmem with hmem | hmem | hmem
      · -- nothing stands before the lock of atomic blocks
        exact LockId.compare_atomic_ne_lt _ ((lt_of_split h).1 _ hmem)
      · cases hmem
      · exact hz _ hmem hm.symm
  · rintro (h | ⟨hnone, h⟩)
    · obtain ⟨rfl, h⟩ := Option.ite_none_right_eq_some.1 h
      obtain ⟨y, z, h⟩ := List.append_of_mem (SortedMap.get?_eq_some_iff.1 h)
      exact ⟨y, .atomic, z, h, rfl, fun e he =>
        absurd ((lt_of_split h).2 e he) (LockId.compare_atomic_ne_lt _)⟩
    · obtain ⟨y, z, h⟩ := List.append_of_mem (SortedMap.get?_eq_some_iff.1 h)
      refine ⟨y, .named x, z, h, rfl, fun e he htext => ?_⟩
      obtain ⟨lock, r⟩ := e
      have hlt := (lt_of_split h).2 _ he
      cases lock with
      | named m =>
        obtain rfl : m = x := htext
        simp at hlt
      | atomic =>
        have hx : x = LockId.atomicText := htext.symm
        have hheld : SortedMap.get? locks .atomic = some r :=
          SortedMap.get?_eq_some_iff.2 (by simp [h, he])
        rw [if_pos hx, hheld] at hnone
        cases hnone

/-! ## Tables that are read back -/

/-- A table of locks as it reads back. -/
def reread (locks : SortedMap LockId ProcessId) : SortedMap LockId ProcessId :=
  locksOfTexts (lockTexts locks).toList

theorem get?_reread_eq_some_iff {lock : LockId} : SortedMap.get? (reread locks) lock = some q ↔
    ∃ x, LockId.ofText x = lock ∧ SortedMap.get? (lockTexts locks) x = some q := by
  have hdistinct : ((lockTexts locks).toList.map fun e => (LockId.ofText e.1, e.2)).Pairwise
      fun e f => e.1 ≠ f.1 :=
    (SortedMap.pairwise_fst_ne _).map _ fun _ _ hne h => hne (LockId.ofText_injective h)
  unfold reread locksOfTexts
  rw [SortedMap.get?_ofPairs_of_pairwise hdistinct, List.mem_map]
  constructor
  · rintro ⟨⟨x, r⟩, hmem, hpair⟩
    cases hpair
    exact ⟨x, rfl, SortedMap.get?_eq_some_iff.2 hmem⟩
  · rintro ⟨x, rfl, hx⟩
    exact ⟨(x, q), SortedMap.get?_eq_some_iff.1 hx, rfl⟩

theorem get?_reread_named (m : String) : SortedMap.get? (reread locks) (.named m) =
    if m = LockId.atomicText then none else SortedMap.get? locks (.named m) := by
  apply Option.ext
  intro q
  simp only [get?_reread_eq_some_iff, LockId.ofText_eq_named_iff, get?_lockTexts]
  constructor
  · rintro ⟨x, ⟨rfl, hx⟩, h⟩
    rw [if_neg hx, Option.none_or] at h
    rw [if_neg hx, h]
  · intro h
    obtain ⟨hm, h⟩ := Option.ite_none_left_eq_some.1 h
    exact ⟨m, ⟨rfl, hm⟩, by rw [if_neg hm, Option.none_or, h]⟩

theorem get?_reread_atomic : SortedMap.get? (reread locks) .atomic =
    (SortedMap.get? locks .atomic).or (SortedMap.get? locks (.named LockId.atomicText)) := by
  apply Option.ext
  intro q
  simp [get?_reread_eq_some_iff, LockId.ofText_eq_atomic_iff, get?_lockTexts]

/-- A table reads back as it was exactly if it has no mutex with the text of the lock of atomic blocks. -/
theorem reread_eq_iff :
    reread locks = locks ↔ SortedMap.get? locks (.named LockId.atomicText) = none := by
  constructor
  · intro h
    rw [← h, get?_reread_named, if_pos rfl]
  · intro h
    refine SortedMap.ext_get? fun lock => ?_
    cases lock with
    | atomic => rw [get?_reread_atomic, h, Option.or_none]
    | named m =>
      rw [get?_reread_named]
      split
      · rename_i hm
        rw [hm, h]
      · rfl

end ProgramState

/-! ## Numbers that fit into words -/

/-- A number that fits into 64 bits with a sign. -/
def IsSigned (v : Int) : Prop := Int64.minValue.toInt ≤ v ∧ v ≤ Int64.maxValue.toInt

/-- Values are of 64 bits, and threads have numbers of 32 bits. -/
def Instr.FitsWords : Instr → Prop
  | write _ v => IsSigned v
  | spawn r => r.index < UInt32.size
  | _ => True

/-- The numbers in a program fit into words. -/
structure Program.FitsWords (p : Program) : Prop where
  active : ∀ q, p.initiallyActive.hasKey q → q.index < UInt32.size
  length : ∀ thread ∈ p.threads, thread.length < UInt64.size
  instr : ∀ thread ∈ p.threads, ∀ i ∈ thread, i.FitsWords

namespace ProgramState

/-- The numbers in a state fit into words. -/
structure FitsWords (s : ProgramState) : Prop where
  counter : ∀ (i : Nat) k, s.pcs[i]? = some k → k < UInt64.size
  active : ∀ q, s.active.hasKey q → q.index < UInt32.size
  value : ∀ x v, SortedMap.get? s.vars x = some v → IsSigned v
  observed : ∀ (i : Nat) l, s.observed[i]? = some l → ∀ v ∈ l, IsSigned v
  holder : ∀ lock q, s.holder lock = some q → q.index < UInt32.size

theorem FitsWords.var {s : ProgramState} (h : s.FitsWords) (x : String) : IsSigned (s.var x) := by
  unfold ProgramState.var SortedMap.getD
  cases hx : SortedMap.get? s.vars x with
  | none => exact ⟨by decide, by decide⟩
  | some v => exact h.value x v hx

end ProgramState

namespace Program

variable {p : Program} {s : ProgramState} {a : Step}

theorem HasStep.exists_thread (h : p.HasStep a) :
    ∃ thread ∈ p.threads, a.pc < thread.length ∧ a.instr ∈ thread := by
  obtain ⟨thread, hthread, hinstr⟩ := Option.bind_eq_some_iff.1 h
  exact ⟨thread, List.mem_of_getElem? hthread, (List.getElem?_eq_some_iff.1 hinstr).1,
    List.mem_of_getElem? hinstr⟩

theorem FitsWords.initialState (hp : p.FitsWords) : p.initialState.FitsWords where
  counter i k hk := by
    rw [List.eq_of_mem_replicate (List.mem_of_getElem? hk)]
    decide
  active := hp.active
  value x v h := nomatch h
  observed i l hl v hv := by
    rw [List.eq_of_mem_replicate (List.mem_of_getElem? hl)] at hv
    cases hv
  holder lock q h := nomatch h

/-- Steps of a program whose numbers fit into words keep a state so. -/
theorem FitsWords.after (hp : p.FitsWords) (hs : s.FitsWords) (ha : p.CanRun s a) :
    (s.after a).FitsWords := by
  obtain ⟨thread, hthread, hpc, hinstr⟩ := ha.hasStep.exists_thread
  have hlength := hp.length thread hthread
  have hfits := hp.instr thread hthread _ hinstr
  constructor
  case counter =>
    intro i k hk
    rw [getElem?_pcs_after] at hk
    split at hk
    · -- a counter does not pass the end of its thread
      rename_i hi
      subst hi
      rw [ha.counter, Option.map_some, Option.some.injEq] at hk
      omega
    · exact hs.counter i k hk
  case active =>
    intro q hq
    rcases (ProgramState.hasKey_active_after s a).1 hq with hq | hq
    · exact hs.active q hq
    · rw [hq] at hfits
      exact hfits
  case value =>
    intro x v hx
    rw [ProgramState.get?_vars_after] at hx
    split at hx
    · rename_i y w hwrite
      split at hx
      · cases hx
        rw [hwrite] at hfits
        exact hfits
      · exact hs.value x v hx
    · exact hs.value x v hx
  case observed =>
    intro i l hl v hv
    rw [ProgramState.observed_after] at hl
    split at hl
    · rw [List.getElem?_modify] at hl
      obtain ⟨l', hl', rfl⟩ := Option.map_eq_some_iff.1 hl
      split at hv
      · rcases List.mem_append.1 hv with hv | hv
        · exact hs.observed i l' hl' v hv
        · rw [List.mem_singleton.1 hv]
          exact hs.var _
      · exact hs.observed i l' hl' v hv
    · exact hs.observed i l hl v hv
  case holder =>
    intro lock q hq
    rcases ProgramState.holder_of_after s a hq with ⟨-, rfl⟩ | hq
    · exact hs.active _ ha.active
    · exact hs.holder lock q hq

theorem IsReachable.fitsWords (h : p.IsReachable s) (hp : p.FitsWords) : s.FitsWords :=
  h.induction hp.initialState fun _ _ hs ha => hp.after hs ha

/-- A mutex that no thread locks is never held. -/
theorem IsReachable.holder_eq_none {m : String} (h : p.IsReachable s)
    (hnever : ∀ thread ∈ p.threads, .lock m ∉ thread) : s.holder (.named m) = none := by
  refine h.induction (P := fun s => s.holder (.named m) = none) rfl fun s a hs ha => ?_
  refine Option.eq_none_iff_forall_ne_some.2 fun q hq => ?_
  rcases ProgramState.holder_of_after s a hq with ⟨hneeded, -⟩ | hq
  · obtain ⟨thread, hthread, -, hinstr⟩ := ha.hasStep.exists_thread
    have hlock : a.instr = .lock m := by
      cases hi : a.instr <;> simp_all [Instr.neededLock]
    exact hnever thread hthread (hlock ▸ hinstr)
  · rw [hs] at hq
    cases hq

end Program

/-! ## States as JSON -/

/-- What was written item by item is read item by item. -/
theorem mapM_map_eq_some {α β : Type} {f : β → Option α} {g : α → β} {l : List α}
    (h : ∀ a ∈ l, f (g a) = some a) : (l.map g).mapM f = some l := by
  induction l with
  | nil => rfl
  | cons a l ih =>
    rw [List.map_cons, List.mapM_cons, h a (by simp), ih fun b hb => h b (by simp [hb])]
    rfl

namespace Json

theorem nat?_nat {n bound : Nat} (h : n < bound) : (nat n).nat? bound = some n := by
  have hrange : (0 : Int) ≤ n ∧ (n : Int) ≤ bound - 1 := by omega
  show Option.map Int.toNat (if _ then _ else _) = some n
  rw [if_pos hrange]
  rfl

theorem signed?_int {v : Int} (h : IsSigned v) : (int v).signed? = some v := if_pos h

theorem list?_ofList {α : Type} {f : Json → Option α} {g : α → Json} {l : List α}
    (h : ∀ a ∈ l, f (g a) = some a) : (ofList g l).list? f = some l := mapM_map_eq_some h

end Json

theorem ProcessId.ofJson?_toJson {q : ProcessId} (h : q.index < UInt32.size) :
    ofJson? q.toJson = some q := by
  rw [ofJson?, toJson, Json.nat?_nat h]
  rfl

namespace ProgramState

variable {s : ProgramState}

theorem entries?_obj {α : Type} {f : Json → Option α} {g : α → Json} {l : List (String × α)}
    (h : ∀ e ∈ l, f (g e.2) = some e.2) :
    entries? f (.obj (l.map fun e => (e.1, g e.2))) = some l := by
  refine mapM_map_eq_some (g := fun e : String × α => (e.1, g e.2)) fun e he => ?_
  rw [h e he]
  rfl

/-- A state as it reads back, if its numbers fit into words. -/
def reload (s : ProgramState) : ProgramState := { s with locks := reread s.locks }

theorem FitsWords.lockTexts (h : s.FitsWords) {e : String × ProcessId}
    (he : e ∈ (lockTexts s.locks).toList) : e.2.index < UInt32.size := by
  obtain ⟨y, lock, z, hsplit, -⟩ := get?_lockTexts_eq_some_iff.1 (SortedMap.get?_eq_some_iff.2 he)
  exact h.holder lock e.2 (SortedMap.get?_eq_some_iff.2 (by simp [hsplit]))

theorem ofJson?_toJson (h : s.FitsWords) : ofJson? s.toJson = some s.reload := by
  have hpcs : Json.list? (Json.nat? UInt64.size) (.ofList .nat s.pcs) = some s.pcs := by
    refine Json.list?_ofList fun k hk => Json.nat?_nat ?_
    obtain ⟨i, hi⟩ := List.mem_iff_getElem?.1 hk
    exact h.counter i k hi
  have hactive : Json.list? ProcessId.ofJson? (.ofList ProcessId.toJson s.active.toList) =
      some s.active.toList :=
    Json.list?_ofList fun q hq => ProcessId.ofJson?_toJson (h.active q (Keyed.hasKey_of_mem hq))
  have hvars : entries? Json.signed? (.obj (s.vars.toList.map fun e => (e.1, .int e.2))) =
      some s.vars.toList :=
    entries?_obj fun e he => Json.signed?_int (h.value _ _ (SortedMap.get?_eq_some_iff.2 he))
  have hobserved : Json.list? (Json.list? Json.signed?) (.ofList (Json.ofList .int) s.observed) =
      some s.observed := by
    refine Json.list?_ofList fun l hl => Json.list?_ofList fun v hv => Json.signed?_int ?_
    obtain ⟨i, hi⟩ := List.mem_iff_getElem?.1 hl
    exact h.observed i l hi v hv
  have hlocks : entries? ProcessId.ofJson?
      (.obj ((ProgramState.lockTexts s.locks).toList.map fun e => (e.1, e.2.toJson))) =
      some (ProgramState.lockTexts s.locks).toList :=
    entries?_obj fun e he => ProcessId.ofJson?_toJson (h.lockTexts he)
  have hset : (Keyed.ofList s.active.toList : SortedSet ProcessId) = s.active :=
    Keyed.ext_of_mem fun q => Keyed.mem_ofList fun a _ b _ hab => hab
  simp [ofJson?, toJson, Json.fields?, Json.required?, Json.lookup, hpcs, hactive, hvars, hobserved,
    hlocks, hset, SortedMap.ofPairs_toList, reload, reread]

end ProgramState

/-! ## Reachable states -/

namespace Program

variable {p : Program} {s : ProgramState}

/-- What becomes of a state that a run leads to when it is written and read back. Mutexes are held by the
threads that held them, except that none of the name `<atomic>` is held; who held that one is inside an
atomic block, unless another thread is. So the table of locks is the same again exactly if no mutex of this
name is held, which is always so if no thread locks one; then the same steps can run. If it is held and no
thread is in an atomic block, only steps of its holder can run any more. -/
theorem reload_reachable (h : p.IsReachable s) :
    (∀ m, s.reload.holder (.named m) = if m = "<atomic>" then none else s.holder (.named m)) ∧
    s.reload.holder .atomic = (s.holder .atomic).or (s.holder (.named "<atomic>")) ∧
    (ProgramState.reread s.locks = s.locks ↔ s.holder (.named "<atomic>") = none) ∧
    ((∀ thread ∈ p.threads, .lock "<atomic>" ∉ thread) → ProgramState.reread s.locks = s.locks) ∧
    (p.FitsWords → ProgramState.ofJson? s.toJson = some s.reload) ∧
    (s.holder (.named "<atomic>") = none → p.enabled s.reload = p.enabled s) ∧
    ∀ q, s.holder (.named "<atomic>") = some q → s.holder .atomic = none →
      ∀ a ∈ p.enabled s.reload, a.process = q := by
  have hatomic : s.reload.holder .atomic = (s.holder .atomic).or (s.holder (.named "<atomic>")) :=
    ProgramState.get?_reread_atomic
  have hsame : ProgramState.reread s.locks = s.locks ↔ s.holder (.named "<atomic>") = none :=
    ProgramState.reread_eq_iff
  refine ⟨ProgramState.get?_reread_named, hatomic, hsame, fun hnever => ?_, fun hp => ?_, fun hnone => ?_,
    fun q hq hfree a ha => ?_⟩
  · exact hsame.2 (h.holder_eq_none hnever)
  · exact ProgramState.ofJson?_toJson (h.fitsWords hp)
  · rw [ProgramState.reload, hsame.2 hnone]
  · rw [hfree, hq, Option.none_or] at hatomic
    exact ((mem_enabled_iff.1 ha).free q hatomic).symm

/-- A thread is inside an atomic block while another one holds a mutex of the name `<atomic>`. -/
def bothHeld : Program :=
  (Program.empty.thread [.lock "<atomic>"]).thread [.lock "m", .atomicBegin, .atomicEnd]

/-- The mutex of that name is lost; the other locks are where they were. -/
theorem reload_reachable_bothHeld :
    let w : List Step := [⟨⟨0⟩, 0, .lock "<atomic>"⟩, ⟨⟨1⟩, 0, .lock "m"⟩, ⟨⟨1⟩, 1, .atomicBegin⟩]
    let s := bothHeld.initialState.afterAll w
    bothHeld.IsReachable s ∧ s.holder (.named "<atomic>") = some ⟨0⟩ ∧
      s.reload.holder (.named "<atomic>") = none ∧ s.reload.holder .atomic = some ⟨1⟩ ∧
      s.reload.holder (.named "m") = some ⟨1⟩ ∧ ProgramState.ofJson? s.toJson = some s.reload := by
  intro w s
  have hrun : bothHeld.IsRun bothHeld.initialState w := by
    refine ⟨mem_enabled_iff.1 ?_, mem_enabled_iff.1 ?_, mem_enabled_iff.1 ?_, trivial⟩ <;> decide
  have hfits : bothHeld.FitsWords := by
    have hactive : ∀ q ∈ bothHeld.initiallyActive.toList, q.index < UInt32.size := by decide
    refine ⟨fun q hq => ?_, by decide, ?_⟩
    · obtain ⟨r, hr, rfl⟩ := Keyed.hasKey_iff.1 hq
      exact hactive r hr
    · simp [bothHeld, thread, empty, Instr.FitsWords]
  obtain ⟨hnamed, hatomic, -, -, hread, -⟩ := reload_reachable ⟨w, hrun, rfl⟩
  refine ⟨⟨w, hrun, rfl⟩, by decide, ?_, ?_, ?_, hread hfits⟩
  · rw [hnamed, if_pos rfl]
  · rw [hatomic]
    decide
  · rw [hnamed, if_neg (by decide)]
    decide

/-- A thread holds a mutex of the name `<atomic>`, and another one has nothing to do with it. -/
def namedAtomic : Program :=
  (Program.empty.thread [.lock "<atomic>", .unlock "<atomic>"]).thread [.idle]

/-- Both threads can go on; but in the state that is read back, neither can. -/
theorem reload_blocks_namedAtomic :
    let s := namedAtomic.initialState.after ⟨⟨0⟩, 0, .lock "<atomic>"⟩
    namedAtomic.IsReachable s ∧ ProgramState.ofJson? s.toJson = some s.reload ∧
      ProgramState.reread s.locks ≠ s.locks ∧
      namedAtomic.enabled s = [⟨⟨0⟩, 1, .unlock "<atomic>"⟩, ⟨⟨1⟩, 0, .idle⟩] ∧
      namedAtomic.enabled s.reload = [] := by
  intro s
  have hrun : namedAtomic.IsRun namedAtomic.initialState [⟨⟨0⟩, 0, .lock "<atomic>"⟩] :=
    ⟨mem_enabled_iff.1 (by decide), trivial⟩
  refine ⟨⟨_, hrun, rfl⟩, ?_, by decide, by decide, by decide⟩
  rfl

end Program

end Interleaving
