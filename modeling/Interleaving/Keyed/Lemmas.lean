import Interleaving.Keyed

/-!
# Laws of `Keyed`

A collection is seen through two views: which elements it has (`a ∈ s.toList`) and which keys
(`s.hasKey k`). Each operation is described in both. A collection is determined by its elements
(`ext_of_mem`), and no two of its elements share a key (`eq_of_key_eq`).
-/

namespace Interleaving
namespace Keyed

open Std (TransOrd LawfulEqOrd)

variable {α κ : Type} [Ord κ] {key : α → κ}

/-! ## Elements and keys -/

@[simp] theorem toList_empty : (∅ : Keyed key).toList = [] := rfl

@[simp] theorem hasKey_empty (k : κ) : (∅ : Keyed key).hasKey k = false := rfl

theorem length_keys (s : Keyed key) : s.keys.length = s.size := List.length_map _

@[simp] theorem mem_filter {s : Keyed key} {p : α → Bool} {a : α} :
    a ∈ (s.filter p).toList ↔ a ∈ s.toList ∧ p a := List.mem_filter

@[simp] theorem mem_difference {s t : Keyed key} {a : α} :
    a ∈ (s.difference t).toList ↔ a ∈ s.toList ∧ t.hasKey (key a) = false := by
  simp [difference]

section Lawful

variable [LawfulEqOrd κ]

theorem hasKey_iff {s : Keyed key} {k : κ} : s.hasKey k ↔ ∃ a ∈ s.toList, key a = k := by
  simp [hasKey]

theorem hasKey_of_mem {s : Keyed key} {a : α} (h : a ∈ s.toList) : s.hasKey (key a) :=
  hasKey_iff.2 ⟨a, h, rfl⟩

/-- No two elements share a key. -/
theorem eq_of_key_eq {s : Keyed key} {a b : α} (ha : a ∈ s.toList) (hb : b ∈ s.toList)
    (h : key a = key b) : a = b := by
  obtain ⟨l, hl⟩ := s
  induction l with
  | nil => cases ha
  | cons c rest ih =>
    obtain ⟨hc, hrest⟩ := List.pairwise_cons.1 hl
    rcases List.mem_cons.1 ha with hac | ha <;> rcases List.mem_cons.1 hb with hbc | hb
    · rw [hac, hbc]
    · have := hc b hb
      simp [← hac, h] at this
    · have := hc a ha
      simp [← hbc, h] at this
    · exact ih hrest ha hb

/-- What is left of a collection is what has a key there. -/
theorem mem_iff_of_subset {s t : Keyed key} {a : α} (h : ∀ b ∈ t.toList, b ∈ s.toList) :
    a ∈ t.toList ↔ a ∈ s.toList ∧ t.hasKey (key a) := by
  constructor
  · exact fun ha => ⟨h a ha, hasKey_of_mem ha⟩
  · rintro ⟨ha, hkey⟩
    obtain ⟨b, hb, hba⟩ := hasKey_iff.1 hkey
    rwa [← eq_of_key_eq (h b hb) ha hba]

theorem find?_eq_some_iff {s : Keyed key} {k : κ} {a : α} :
    s.find? k = some a ↔ a ∈ s.toList ∧ key a = k := by
  constructor
  · intro h
    exact ⟨List.mem_of_find?_eq_some h, by simpa using List.find?_some h⟩
  · rintro ⟨ha, rfl⟩
    cases h : s.find? (key a) with
    | none => simpa [LawfulEqOrd.compare_eq_iff_eq] using List.find?_eq_none.1 h a ha
    | some b =>
      have hb : key b = key a := by simpa using List.find?_some h
      rw [eq_of_key_eq (List.mem_of_find?_eq_some h) ha hb]

theorem find?_eq_none_iff {s : Keyed key} {k : κ} : s.find? k = none ↔ s.hasKey k = false := by
  simp [find?, hasKey]

@[simp] theorem mem_erase {s : Keyed key} {k : κ} {a : α} :
    a ∈ (s.erase k).toList ↔ a ∈ s.toList ∧ key a ≠ k := by
  simp [erase]

theorem hasKey_erase {s : Keyed key} {k k' : κ} : (s.erase k).hasKey k' ↔ s.hasKey k' ∧ k' ≠ k := by
  simp only [hasKey_iff, mem_erase]
  constructor
  · rintro ⟨a, ⟨ha, hne⟩, rfl⟩
    exact ⟨⟨a, ha, rfl⟩, hne⟩
  · rintro ⟨⟨a, ha, rfl⟩, hne⟩
    exact ⟨a, ⟨ha, hne⟩, rfl⟩

theorem mem_keys {s : Keyed key} {k : κ} : k ∈ s.keys ↔ s.hasKey k := by
  rw [keys, List.mem_map, hasKey_iff]

theorem nodup_keys (s : Keyed key) : s.keys.Nodup := by
  refine List.pairwise_map.2 (s.increasing.imp fun {a b} hab heq => ?_)
  rw [heq, LawfulEqOrd.compare_eq_iff_eq.2 rfl] at hab
  cases hab

theorem hasKey_filter {s : Keyed key} {k : κ} {p : α → Bool} :
    (s.filter p).hasKey k ↔ ∃ a ∈ s.toList, key a = k ∧ p a := by
  rw [hasKey_iff]
  simp only [mem_filter, and_assoc, and_comm]

theorem hasKey_difference {s t : Keyed key} {k : κ} :
    (s.difference t).hasKey k ↔ s.hasKey k ∧ ¬t.hasKey k := by
  rw [hasKey_iff, hasKey_iff]
  constructor
  · rintro ⟨a, ha, rfl⟩
    obtain ⟨ha, ht⟩ := mem_difference.1 ha
    exact ⟨⟨a, ha, rfl⟩, by rw [ht]; exact Bool.false_ne_true⟩
  · rintro ⟨⟨a, ha, rfl⟩, ht⟩
    exact ⟨a, mem_difference.2 ⟨ha, Bool.eq_false_iff.2 ht⟩, rfl⟩

theorem isSubset_iff {s t : Keyed key} : s.isSubset t ↔ ∀ k, s.hasKey k → t.hasKey k := by
  simp only [isSubset, List.all_eq_true]
  constructor
  · intro h k hk
    obtain ⟨a, ha, rfl⟩ := hasKey_iff.1 hk
    exact h a ha
  · exact fun h a ha => h _ (hasKey_of_mem ha)

/-- Which of the two collections is searched makes no difference. -/
theorem intersects_iff {s t : Keyed key} : s.intersects t ↔ ∃ k, s.hasKey k ∧ t.hasKey k := by
  have any_iff (s t : Keyed key) :
      (s.toList.any fun a => t.hasKey (key a)) ↔ ∃ k, s.hasKey k ∧ t.hasKey k := by
    simp only [List.any_eq_true]
    constructor
    · rintro ⟨a, ha, ht⟩
      exact ⟨key a, hasKey_of_mem ha, ht⟩
    · rintro ⟨k, hs, ht⟩
      obtain ⟨a, ha, rfl⟩ := hasKey_iff.1 hs
      exact ⟨a, ha, ht⟩
  unfold intersects
  split
  rename_i small large hsides
  split at hsides
  · obtain ⟨rfl, rfl⟩ := Prod.mk.inj hsides
    exact any_iff s t
  · obtain ⟨rfl, rfl⟩ := Prod.mk.inj hsides
    exact (any_iff t s).trans (exists_congr fun _ => and_comm)

end Lawful

/-! ## Insertion -/

section Ordered

variable [TransOrd κ] [LawfulEqOrd κ]

/-- Two collections with the same elements are equal. -/
theorem ext_of_mem {s t : Keyed key} (h : ∀ a, a ∈ s.toList ↔ a ∈ t.toList) : s = t := by
  have nodup (u : Keyed key) : u.toList.Nodup :=
    u.increasing.imp fun hab heq => by simp [heq] at hab
  refine ext (List.Perm.eq_of_pairwise (fun a b _ _ hab hba => ?_) s.increasing t.increasing
    ((List.perm_ext_iff_of_nodup (nodup s) (nodup t)).2 h))
  exact absurd (Std.TransCmp.lt_trans hab hba) (by simp)

/-- The list of keys of a collection says which keys it has and nothing else. -/
theorem keys_eq_iff {s t : Keyed key} : s.keys = t.keys ↔ ∀ k, s.hasKey k ↔ t.hasKey k := by
  constructor
  · intro h k
    rw [← mem_keys, ← mem_keys, h]
  · intro h
    have increasing (u : Keyed key) : u.keys.Pairwise fun j k => compare j k = .lt :=
      List.pairwise_map.2 u.increasing
    have hsets : (⟨s.keys, increasing s⟩ : SortedSet κ) = ⟨t.keys, increasing t⟩ := by
      refine ext_of_mem fun k => ?_
      rw [mem_keys, mem_keys, h k]
    exact congrArg toList hsets

theorem mem_place {a b : α} {l : List α}
    (hl : l.Pairwise fun a b => compare (key a) (key b) = .lt) :
    b ∈ place key a l ↔ b ∈ l ∨ b = a ∧ ∀ c ∈ l, key c ≠ key a := by
  induction l with
  | nil => simp [place]
  | cons c rest ih =>
    obtain ⟨hc, hrest⟩ := List.pairwise_cons.1 hl
    unfold place
    -- the new element stands before `c`, is left out for it, or goes further down
    split
    · rename_i hac
      have new : ∀ d ∈ c :: rest, key d ≠ key a := by
        intro d hd heq
        rcases List.mem_cons.1 hd with rfl | hd
        · simp [heq] at hac
        · have := Std.TransCmp.lt_trans hac (hc d hd)
          simp [heq] at this
      rw [List.mem_cons, or_comm]
      simp only [and_iff_left new]
    · rename_i hac
      have hac : key a = key c := LawfulEqOrd.eq_of_compare hac
      simp [hac]
    · rename_i hac
      have hne : key c ≠ key a := by
        intro heq
        simp [heq] at hac
      simp [ih hrest, hne, or_assoc]

@[simp] theorem mem_insert {s : Keyed key} {a b : α} :
    b ∈ (s.insert a).toList ↔ b ∈ s.toList ∨ b = a ∧ s.hasKey (key a) = false := by
  simp [insert, mem_place s.increasing, Bool.eq_false_iff, hasKey_iff]

@[simp] theorem hasKey_insert {s : Keyed key} {a : α} {k : κ} :
    (s.insert a).hasKey k ↔ s.hasKey k ∨ k = key a := by
  simp only [hasKey_iff, mem_insert]
  constructor
  · rintro ⟨b, hb | ⟨rfl, _⟩, rfl⟩
    · exact .inl ⟨b, hb, rfl⟩
    · exact .inr rfl
  · rintro (⟨b, hb, rfl⟩ | rfl)
    · exact ⟨b, .inl hb, rfl⟩
    · cases h : s.hasKey (key a) with
      | true =>
        obtain ⟨b, hb, hk⟩ := hasKey_iff.1 h
        exact ⟨b, .inl hb, hk⟩
      | false => exact ⟨a, .inr ⟨rfl, rfl⟩, rfl⟩

/-- The first element of a key stays. -/
theorem insert_of_hasKey {s : Keyed key} {a : α} (h : s.hasKey (key a)) : s.insert a = s :=
  ext_of_mem fun b => by simp [h]

@[simp] theorem mem_replace {s : Keyed key} {a b : α} :
    b ∈ (s.replace a).toList ↔ b = a ∨ b ∈ s.toList ∧ key b ≠ key a := by
  have : (s.erase (key a)).hasKey (key a) = false := by
    simp [Bool.eq_false_iff, hasKey_iff]
  simp [replace, this, or_comm]

theorem hasKey_insertAll {s : Keyed key} {l : List α} {k : κ} :
    (s.insertAll l).hasKey k ↔ s.hasKey k ∨ ∃ a ∈ l, key a = k := by
  induction l generalizing s with
  | nil => simp [insertAll]
  | cons a rest ih =>
    show ((s.insert a).insertAll rest).hasKey k ↔ _
    rw [ih, hasKey_insert, or_assoc, @eq_comm _ k]
    simp

/-- An element is inserted if its key is new and it comes first among those of its key. -/
theorem mem_insertAll [DecidableEq κ] {s : Keyed key} {a : α} {l : List α} :
    a ∈ (s.insertAll l).toList ↔
      a ∈ s.toList ∨ ¬s.hasKey (key a) ∧ l.find? (fun b => key b = key a) = some a := by
  induction l generalizing s with
  | nil => simp [insertAll]
  | cons b rest ih =>
    show a ∈ ((s.insert b).insertAll rest).toList ↔ _
    rw [ih, mem_insert, hasKey_insert, List.find?_cons]
    by_cases hba : key b = key a
    · rw [decide_eq_true hba, hba]
      simp [@eq_comm _ b a, and_comm]
    · have hab : a ≠ b := fun h => hba (h ▸ rfl)
      rw [decide_eq_false hba]
      simp [hab, Ne.symm hba]

theorem mem_of_mem_insertAll {s : Keyed key} {l : List α} {a : α}
    (h : a ∈ (s.insertAll l).toList) : a ∈ s.toList ∨ a ∈ l := by
  classical
  exact (mem_insertAll.1 h).imp_right fun hnew => List.mem_of_find?_eq_some hnew.2

theorem mem_insertAll_of_mem {s : Keyed key} {l : List α} {a : α} (h : a ∈ s.toList) :
    a ∈ (s.insertAll l).toList := by
  classical
  exact mem_insertAll.2 (.inl h)

/-- A list without two elements of one key keeps all its elements. -/
theorem mem_ofList {l : List α} (hl : ∀ a ∈ l, ∀ b ∈ l, key a = key b → a = b) {a : α} :
    a ∈ (ofList l : Keyed key).toList ↔ a ∈ l := by
  constructor
  · intro h
    rcases mem_of_mem_insertAll h with h | h
    · simp at h
    · exact h
  · intro h
    have hkey : (ofList l : Keyed key).hasKey (key a) := by
      simp only [ofList, hasKey_insertAll]
      exact .inr ⟨a, h, rfl⟩
    obtain ⟨b, hb, hba⟩ := hasKey_iff.1 hkey
    rcases mem_of_mem_insertAll hb with hb' | hb'
    · simp at hb'
    · rwa [← hl b hb' a h hba]

theorem hasKey_ofList {l : List α} {k : κ} :
    (ofList l : Keyed key).hasKey k ↔ ∃ a ∈ l, key a = k := by
  simp [ofList, hasKey_insertAll]

end Ordered

end Keyed

/-! ## Maps -/

namespace SortedMap

open Std (TransOrd LawfulEqOrd)

variable {κ β : Type} [Ord κ]

theorem get?_eq_some_iff [LawfulEqOrd κ] {m : SortedMap κ β} {k : κ} {v : β} :
    get? m k = some v ↔ (k, v) ∈ m.toList := by
  simp only [get?, Option.map_eq_some_iff, Keyed.find?_eq_some_iff]
  constructor
  · rintro ⟨⟨k', v'⟩, ⟨h, rfl⟩, rfl⟩
    exact h
  · exact fun h => ⟨(k, v), ⟨h, rfl⟩, rfl⟩

/-- The value last put at a key is the value there, and other keys keep theirs. -/
theorem get?_put [TransOrd κ] [LawfulEqOrd κ] [DecidableEq κ] (m : SortedMap κ β) (k k' : κ)
    (v : β) : get? (put m k v) k' = if k' = k then some v else get? m k' := by
  apply Option.ext
  intro w
  rw [get?_eq_some_iff]
  split
  · rename_i h
    subst h
    simp [put, eq_comm]
  · rename_i h
    rw [get?_eq_some_iff]
    simp [put, h]

end SortedMap

end Interleaving
