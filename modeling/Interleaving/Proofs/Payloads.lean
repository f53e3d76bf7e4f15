import Mathlib.Data.List.Perm.Subperm
import Mathlib.Data.Set.Basic
import Mathlib.Logic.Function.Basic
import Interleaving.Action.Set
import Interleaving.Keyed.Lemmas

/-!
# Payloads in sets of actions

Several named sets are changed by edits, one after the other (`run`). Every set is then a finite map
from keys to payloads: what an edit does to the keys of a set is what the operation of its name does to
sets of keys (`keySet_run_cons`), and a key carries the payload that was inserted first since the key
was last absent (`mem_run_iff`). Payloads have no say in anything else: two histories that differ in
payloads only lead to sets of the same keys (`keys_run_eq_of_alike`), and these give the same answers
(`SameAnswers.of_keys_eq`).
-/

namespace Interleaving

open Std (LawfulEqOrd)

/-! ## Keys of a collection -/

/-- Of two collections of one size, one has all keys of the other only if both have the same. -/
theorem Keyed.hasKey_iff_of_isSubset {α κ : Type} [Ord κ] [LawfulEqOrd κ] {key : α → κ}
    {s t : Keyed key} {k : κ} (hsize : s.size = t.size) (hsub : s.isSubset t) :
    s.hasKey k ↔ t.hasKey k := by
  have hkeys : s.keys ⊆ t.keys := fun k hk => mem_keys.2 (isSubset_iff.1 hsub k (mem_keys.1 hk))
  have hlength : t.keys.length ≤ s.keys.length := by
    rw [length_keys, length_keys, hsize]
  have hperm := (List.subperm_of_subset s.nodup_keys hkeys).perm_of_length_le hlength
  rw [← mem_keys, ← mem_keys, hperm.mem_iff]

namespace ActionSet

/-! ## Sets of keys -/

section Keys

variable {α : Type} [Action α] {s t s' t' : ActionSet α} {a b : α}

/-- The keys of a set. -/
def keySet (s : ActionSet α) : Set (ActionKey (Action.Operation α)) := {k | s.hasKey k}

theorem keys_eq_iff_keySet : s.keys = t.keys ↔ s.keySet = t.keySet :=
  Keyed.keys_eq_iff.trans Set.ext_iff.symm

/-- Keys are ordered by the process, and those of one process by the operation. -/
theorem compare_key_eq_lt_iff :
    compare (Action.key a) (Action.key b) = .lt ↔
      (Action.process a).index < (Action.process b).index ∨
        Action.process a = Action.process b ∧
          compare (Action.operation a) (Action.operation b) = .lt := by
  show (compare (Action.process a).index (Action.process b).index).then
    (compare (Action.operation a) (Action.operation b)) = .lt ↔ _
  rw [Ordering.then_eq_lt, Nat.compare_eq_lt, Nat.compare_eq_eq]
  have hprocess : (Action.process a).index = (Action.process b).index ↔
      Action.process a = Action.process b :=
    ⟨fun h => congrArg ProcessId.mk h, congrArg _⟩
  rw [hprocess]

theorem isSubset_iff_keySet : s.isSubset t ↔ s.keySet ⊆ t.keySet := Keyed.isSubset_iff

theorem intersects_iff_keySet : s.intersects t ↔ (s.keySet ∩ t.keySet).Nonempty :=
  Keyed.intersects_iff

theorem sameKeys_iff_keySet : s.sameKeys t ↔ s.keySet = t.keySet := by
  simp only [sameKeys, Bool.and_eq_true, beq_iff_eq]
  constructor
  · rintro ⟨hsize, hsub⟩
    exact Set.ext fun k => Keyed.hasKey_iff_of_isSubset hsize hsub
  · intro h
    have hkeys := keys_eq_iff_keySet.2 h
    rw [← s.length_keys, ← t.length_keys, hkeys]
    exact ⟨rfl, isSubset_iff_keySet.2 h.subset⟩

theorem sameKeys_equivalence : Equivalence fun s t : ActionSet α => (s.sameKeys t : Prop) := by
  simp only [sameKeys_iff_keySet]
  exact ⟨fun _ => rfl, .symm, .trans⟩

theorem intersects_comm (s t : ActionSet α) : s.intersects t = t.intersects s := by
  rw [Bool.eq_iff_iff, intersects_iff_keySet, intersects_iff_keySet, Set.inter_comm]

/-- What two sets answer does not tell them from two others. Payloads apart, this is everything there
is to ask: what an insertion or a removal answers is whether the key is in the set. -/
structure SameAnswers (s t s' t' : ActionSet α) : Prop where
  keys : s.keys = s'.keys
  hasKey k : s.hasKey k = s'.hasKey k
  contains (a b : α) : Action.key a = Action.key b → s.contains a = s'.contains b
  size : s.size = s'.size
  isEmpty : s.isEmpty = s'.isEmpty
  isSubset : s.isSubset t = s'.isSubset t'
  intersects : s.intersects t = s'.intersects t'
  sameKeys : s.sameKeys t = s'.sameKeys t'
  /-- A source picks the same key, and goes on in the same way. -/
  choose {χ : Type} [ChoiceSource χ] (source : χ) :
    (s.choose source).1.map Action.key = (s'.choose source).1.map Action.key ∧
      (s.choose source).2 = (s'.choose source).2

theorem SameAnswers.of_keys_eq (hs : s.keys = s'.keys) (ht : t.keys = t'.keys) :
    SameAnswers s t s' t' := by
  have hsset := keys_eq_iff_keySet.1 hs
  have htset := keys_eq_iff_keySet.1 ht
  have hhas (k) : s.hasKey k = s'.hasKey k := Bool.eq_iff_iff.2 (Keyed.keys_eq_iff.1 hs k)
  have hsize : s.size = s'.size := by
    rw [← s.length_keys, hs, s'.length_keys]
  have hempty : s.isEmpty = s'.isEmpty := by
    rw [Keyed.isEmpty, Keyed.isEmpty, ← List.isEmpty_map (f := Action.key), ← Keyed.keys, hs,
      Keyed.keys, List.isEmpty_map]
  refine ⟨hs, hhas, fun a b h => ?_, hsize, hempty, ?_, ?_, ?_, fun source => ?_⟩
  · rw [ActionSet.contains, ActionSet.contains, h, hhas]
  · rw [Bool.eq_iff_iff, isSubset_iff_keySet, isSubset_iff_keySet, hsset, htset]
  · rw [Bool.eq_iff_iff, intersects_iff_keySet, intersects_iff_keySet, hsset, htset]
  · rw [Bool.eq_iff_iff, sameKeys_iff_keySet, sameKeys_iff_keySet, hsset, htset]
  · rw [ActionSet.choose, ActionSet.choose, hempty, hsize]
    split
    · exact ⟨rfl, rfl⟩
    · refine ⟨?_, rfl⟩
      show Option.map _ _[_]? = Option.map _ _[_]?
      rw [← List.getElem?_map, ← List.getElem?_map]
      exact congrArg (·[_]?) hs

/-- A source that answers in range chooses the action of that place in the order of keys. -/
theorem choose_eq_of_lt {χ : Type} [ChoiceSource χ] {source : χ}
    (h : (ChoiceSource.pick source s.size).1 < s.size) :
    s.choose source =
      (some (s.toList[(ChoiceSource.pick source s.size).1]), (ChoiceSource.pick source s.size).2) := by
  have hempty : s.isEmpty = false := by
    rw [Keyed.isEmpty, List.isEmpty_eq_false_iff_exists_mem]
    exact ⟨_, List.getElem_mem h⟩
  rw [choose, hempty]
  exact Prod.ext (List.getElem?_eq_getElem h) rfl

end Keys

/-! ## Histories of several sets -/

/-- An edit of one of the sets that are named by `ρ`. -/
inductive Edit (ρ α : Type) where
  | insert (r : ρ) (a : α)
  | remove (r : ρ) (a : α)
  /-- The actions of a list are inserted from left to right. -/
  | extend (r : ρ) (l : List α)
  /-- The actions of the set `q` are inserted in order. -/
  | absorb (r q : ρ)
  /-- The set `r` becomes what `q` has and `t` has not. -/
  | difference (r q t : ρ)
  /-- Only the actions that satisfy `keep` stay. -/
  | retain (r : ρ) (keep : α → Bool)
  /-- The set `r` becomes the same as `q`. -/
  | copy (r q : ρ)

namespace Edit

variable {ρ α : Type} [Action α]

/-- The set that is changed. -/
def target : Edit ρ α → ρ
  | insert r _ | remove r _ | extend r _ | absorb r _ | difference r _ _ | retain r _ | copy r _ => r

/-- The set that the changed one is made from. -/
def source : Edit ρ α → ρ
  | insert r _ | remove r _ | extend r _ | absorb r _ | retain r _ => r
  | difference _ q _ | copy _ q => q

/-- The changed set. -/
def result (sets : ρ → ActionSet α) : Edit ρ α → ActionSet α
  | insert r a => (sets r).insert a
  | remove r a => (sets r).remove a
  | extend r l => (sets r).insertAll l
  | absorb r q => (sets r).union (sets q)
  | difference _ q t => (sets q).difference (sets t)
  | retain r keep => (sets r).filter keep
  | copy _ q => sets q

/-- The actions that are inserted, in this order. -/
def inserted (sets : ρ → ActionSet α) : Edit ρ α → List α
  | insert _ a => [a]
  | extend _ l => l
  | absorb _ q => (sets q).toList
  | remove .. | difference .. | retain .. | copy .. => []

/-- The keys of the changed set, by operations on sets of keys. A payload matters only to an edit that
looks at it. -/
def keysAfter (sets : ρ → ActionSet α) : Edit ρ α → Set (ActionKey (Action.Operation α))
  | insert r a => (sets r).keySet ∪ {Action.key a}
  | remove r a => (sets r).keySet \ {Action.key a}
  | extend r l => (sets r).keySet ∪ {k | ∃ a ∈ l, Action.key a = k}
  | absorb r q => (sets r).keySet ∪ (sets q).keySet
  | difference _ q t => (sets q).keySet \ (sets t).keySet
  | retain r keep => {k | ∃ a ∈ (sets r).toList, Action.key a = k ∧ keep a}
  | copy _ q => (sets q).keySet

/-- Two edits that differ in payloads only, of which neither looks at a payload. -/
inductive Alike : Edit ρ α → Edit ρ α → Prop
  | insert {r a b} : Action.key a = Action.key b → Alike (insert r a) (insert r b)
  | remove {r a b} : Action.key a = Action.key b → Alike (remove r a) (remove r b)
  | extend {r l m} : l.map Action.key = m.map Action.key → Alike (extend r l) (extend r m)
  | absorb {r q} : Alike (absorb r q) (absorb r q)
  | difference {r q t} : Alike (difference r q t) (difference r q t)
  | retain {r keep keep'} : (∀ a b, Action.key a = Action.key b → keep a = keep' b) →
      Alike (retain r keep) (retain r keep')
  | copy {r q} : Alike (copy r q) (copy r q)

variable {sets sets' : ρ → ActionSet α} {e e' : Edit ρ α} {a : α}

theorem Alike.target_eq (h : Alike e e') : e.target = e'.target := by
  cases h <;> rfl

theorem keySet_result (sets : ρ → ActionSet α) (e : Edit ρ α) :
    (e.result sets).keySet = e.keysAfter sets := by
  ext k
  cases e with
  | insert r a => exact Keyed.hasKey_insert
  | remove r a => exact Keyed.hasKey_erase
  | extend r l => exact Keyed.hasKey_insertAll
  | absorb r q => exact Keyed.hasKey_insertAll.trans (or_congr_right Keyed.hasKey_iff.symm)
  | difference r q t => exact Keyed.hasKey_difference
  | retain r keep => exact Keyed.hasKey_filter
  | copy r q => exact .rfl

/-- The changed set has what the set that it is made from has, as far as its key stays, and what is
inserted first of a new key. -/
theorem mem_result_iff :
    a ∈ (e.result sets).toList ↔
      a ∈ (sets e.source).toList ∧ (e.result sets).hasKey (Action.key a) ∨
        ¬(sets e.source).hasKey (Action.key a) ∧
          (e.inserted sets).find? (fun b => Action.key b = Action.key a) = some a := by
  have extended {s : ActionSet α} {l : List α} :
      a ∈ (s.insertAll l).toList ↔
        a ∈ s.toList ∧ (s.insertAll l).hasKey (Action.key a) ∨
          ¬s.hasKey (Action.key a) ∧ l.find? (fun b => Action.key b = Action.key a) = some a := by
    rw [and_iff_left_of_imp fun ha => Keyed.hasKey_of_mem (Keyed.mem_insertAll_of_mem ha)]
    exact Keyed.mem_insertAll
  have reduced {s t : ActionSet α} (h : ∀ b ∈ t.toList, b ∈ s.toList) :
      a ∈ t.toList ↔
        a ∈ s.toList ∧ t.hasKey (Action.key a) ∨
          ¬s.hasKey (Action.key a) ∧ [].find? (fun b => Action.key b = Action.key a) = some a := by
    rw [Keyed.mem_iff_of_subset h]
    simp
  cases e with
  | insert r b => exact extended (l := [b])
  | remove r b => exact reduced fun b hb => (Keyed.mem_erase.1 hb).1
  | extend r l => exact extended
  | absorb r q => exact extended
  | difference r q t => exact reduced fun b hb => (Keyed.mem_difference.1 hb).1
  | retain r keep => exact reduced fun b hb => (Keyed.mem_filter.1 hb).1
  | copy r q => exact reduced fun b hb => hb

/-- Alike edits of sets with the same keys lead to sets with the same keys. -/
theorem Alike.keysAfter_eq (h : Alike e e') (hsets : ∀ r, (sets r).keySet = (sets' r).keySet) :
    e.keysAfter sets = e'.keysAfter sets' := by
  cases h with
  | insert h | remove h => simp only [keysAfter, hsets, h]
  | @extend r l m h =>
    have hkeys (k) : (∃ a ∈ l, Action.key a = k) ↔ ∃ b ∈ m, Action.key b = k := by
      rw [← List.mem_map, ← List.mem_map, h]
    simp only [keysAfter, hsets, hkeys]
  | absorb | difference | copy => simp only [keysAfter, hsets]
  | @retain r keep keep' h =>
    ext k
    constructor
    · rintro ⟨a, ha, rfl, hkeep⟩
      have hkey : Action.key a ∈ (sets' r).keySet := hsets r ▸ Keyed.hasKey_of_mem ha
      obtain ⟨b, hb, hba⟩ := Keyed.hasKey_iff.1 hkey
      exact ⟨b, hb, hba, h a b hba.symm ▸ hkeep⟩
    · rintro ⟨b, hb, rfl, hkeep⟩
      have hkey : Action.key b ∈ (sets r).keySet := hsets r ▸ Keyed.hasKey_of_mem hb
      obtain ⟨a, ha, hab⟩ := Keyed.hasKey_iff.1 hkey
      exact ⟨a, ha, hab, h a b hab ▸ hkeep⟩

end Edit

section Histories

variable {ρ α : Type} [DecidableEq ρ] [Action α]

/-- The sets after the edits of a list, the last of which comes first in it. All sets are empty at
first. -/
def run : List (Edit ρ α) → ρ → ActionSet α
  | [] => fun _ => ∅
  | e :: h => Function.update (run h) e.target (e.result (run h))

/-- After a history, `a` has been in the set `r` since it was the first to be inserted with its key,
which was not there. -/
inductive Entered : List (Edit ρ α) → ρ → α → Prop
  /-- The last edit inserts `a`, before any other action of the key. -/
  | first {h e r a} : e.target = r → ¬(run h e.source).hasKey (Action.key a) →
      (e.inserted (run h)).find? (fun b => Action.key b = Action.key a) = some a →
      Entered (e :: h) r a
  /-- The last edit makes the set from one that `a` had entered, and the key is still there. -/
  | since {h e r a} : e.target = r → Entered h e.source a →
      (run (e :: h) r).hasKey (Action.key a) → Entered (e :: h) r a
  /-- The last edit is of another set. -/
  | aside {h e r a} : e.target ≠ r → Entered h r a → Entered (e :: h) r a

variable {h h' : List (Edit ρ α)} {e : Edit ρ α} {r : ρ} {a : α}

theorem run_cons_target : run (e :: h) e.target = e.result (run h) := Function.update_self ..

theorem run_cons_of_ne (hr : e.target ≠ r) : run (e :: h) r = run h r :=
  Function.update_of_ne hr.symm ..

/-- An edit changes the keys of its target as the operation on sets of keys does, and no other set. -/
theorem keySet_run_cons (e : Edit ρ α) (h : List (Edit ρ α)) (r : ρ) :
    (run (e :: h) r).keySet =
      if e.target = r then e.keysAfter (run h) else (run h r).keySet := by
  split
  · rename_i hr
    rw [← hr, run_cons_target, Edit.keySet_result]
  · rename_i hr
    rw [run_cons_of_ne hr]

theorem mem_run_iff : a ∈ (run h r).toList ↔ Entered h r a := by
  induction h generalizing r a with
  | nil =>
    refine iff_of_false (fun ha => ?_) (fun ha => ?_)
    · cases ha
    · cases ha
  | cons e h ih =>
    -- only an edit of `r` itself can take an action into it
    by_cases hr : e.target = r
    · have hrun : run (e :: h) r = e.result (run h) := hr ▸ run_cons_target
      rw [hrun, Edit.mem_result_iff, ih]
      constructor
      · rintro (⟨ha, hkey⟩ | ⟨hnew, hfirst⟩)
        · exact .since hr ha (hrun ▸ hkey)
        · exact .first hr hnew hfirst
      · rintro (⟨-, hnew, hfirst⟩ | ⟨-, ha, hkey⟩ | ⟨hne, -⟩)
        · exact .inr ⟨hnew, hfirst⟩
        · exact .inl ⟨ha, hrun ▸ hkey⟩
        · exact absurd hr hne
    · rw [run_cons_of_ne hr, ih]
      constructor
      · exact .aside hr
      · rintro (⟨heq, -, -⟩ | ⟨heq, -, -⟩ | ⟨-, ha⟩)
        · exact absurd heq hr
        · exact absurd heq hr
        · exact ha

theorem keys_run_eq_of_alike (hh : List.Forall₂ Edit.Alike h h') (r : ρ) :
    (run h r).keys = (run h' r).keys := by
  rw [keys_eq_iff_keySet]
  induction hh generalizing r with
  | nil => rfl
  | cons he hh ih =>
    have htarget := he.target_eq
    rw [keySet_run_cons, keySet_run_cons, htarget, he.keysAfter_eq ih, ih]

/-- Whatever is done to sets of actions, they are finite maps from keys to first payloads. They are
iterated in the order of process and operation; an action in a set is the first that was inserted with
its key since the key was last absent; edits and comparisons are those of the sets of keys; a source
that answers in range chooses the action of that place. Beyond the payloads themselves, the answers
are the same for all histories that differ in payloads only. -/
theorem run_firstPayloads (h : List (Edit ρ α)) :
    (∀ r, (run h r).toList.Pairwise fun a b =>
      (Action.process a).index < (Action.process b).index ∨
        Action.process a = Action.process b ∧
          compare (Action.operation a) (Action.operation b) = .lt) ∧
    (∀ r a, a ∈ (run h r).toList ↔ Entered h r a) ∧
    (∀ e r, (run (e :: h) r).keySet =
      if e.target = r then e.keysAfter (run h) else (run h r).keySet) ∧
    (∀ s t : ActionSet α,
      keySet (s.difference t) = s.keySet \ t.keySet ∧
      (s.isSubset t ↔ s.keySet ⊆ t.keySet) ∧
      (s.intersects t ↔ (s.keySet ∩ t.keySet).Nonempty) ∧
      s.intersects t = t.intersects s ∧
      (s.sameKeys t ↔ s.keySet = t.keySet)) ∧
    Equivalence (fun s t : ActionSet α => (s.sameKeys t : Prop)) ∧
    (∀ r (χ : Type) [ChoiceSource χ] (source : χ)
      (hi : (ChoiceSource.pick source (run h r).size).1 < (run h r).size),
      (run h r).choose source =
        (some ((run h r).toList[(ChoiceSource.pick source (run h r).size).1]),
          (ChoiceSource.pick source (run h r).size).2)) ∧
    ∀ h', List.Forall₂ Edit.Alike h h' →
      ∀ q r, SameAnswers (run h q) (run h r) (run h' q) (run h' r) := by
  refine ⟨fun r => (run h r).increasing.imp compare_key_eq_lt_iff.1, fun r a => mem_run_iff,
    fun e r => keySet_run_cons e h r, fun s t => ⟨?_, isSubset_iff_keySet, intersects_iff_keySet,
      intersects_comm s t, sameKeys_iff_keySet⟩, sameKeys_equivalence,
    fun r χ _ source hi => choose_eq_of_lt hi, fun h' hh q r => ?_⟩
  · exact Set.ext fun k => Keyed.hasKey_difference
  · exact .of_keys_eq (keys_run_eq_of_alike hh q) (keys_run_eq_of_alike hh r)

/-- A set gets its only action from another set, and then one with the same key. -/
def copied (first second : String) : List (Edit Bool Labelled) :=
  [.insert true ⟨⟨0⟩, 1, second⟩, .copy true false, .insert false ⟨⟨0⟩, 1, first⟩]

theorem run_firstPayloads_copied :
    (run (copied "a" "b") true).choose (Script.ofList .literal [0]) =
        (some ⟨⟨0⟩, 1, "a"⟩, ⟨[0], .literal, 1⟩) ∧
      SameAnswers (run (copied "a" "b") true) (run (copied "a" "b") false)
        (run (copied "c" "d") true) (run (copied "c" "d") false) := by
  obtain ⟨-, -, -, -, -, hchoose, hblind⟩ := run_firstPayloads (copied "a" "b")
  have halike : List.Forall₂ Edit.Alike (copied "a" "b") (copied "c" "d") :=
    .cons (.insert rfl) (.cons .copy (.cons (.insert rfl) .nil))
  exact ⟨hchoose true Script (.ofList .literal [0]) (by decide), hblind _ halike true false⟩

end Histories

end ActionSet

end Interleaving
