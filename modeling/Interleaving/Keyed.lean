/-!
# `Keyed`: finite collections ordered by a key

`Keyed key` is a list of elements whose keys strictly increase. Sets, maps and sets of actions are
all instances: a set is keyed by the elements themselves, a map by the first component of its
entries, a set of actions by the identity of an action. Because the order is strict, a collection
has exactly one representation, so two collections with the same elements are equal.
-/

namespace Interleaving

open Std (TransOrd)

/-- A finite collection whose elements stand in strictly increasing order of their keys. -/
structure Keyed {α κ : Type} [Ord κ] (key : α → κ) where
  /-- The elements, in key order. -/
  toList : List α
  /-- Each element has a smaller key than every later one. -/
  increasing : toList.Pairwise fun a b => compare (key a) (key b) = .lt

namespace Keyed

variable {α κ : Type} [Ord κ] {key : α → κ}

@[ext] theorem ext {s t : Keyed key} (h : s.toList = t.toList) : s = t := by
  cases s; cases t; cases h; rfl

instance [DecidableEq α] : DecidableEq (Keyed key) := fun s t =>
  decidable_of_iff (s.toList = t.toList) ⟨ext, fun h => h ▸ rfl⟩

/-! ## Looking up -/

/-- The collection without elements. -/
def empty : Keyed key := ⟨[], .nil⟩

instance : EmptyCollection (Keyed key) := ⟨empty⟩

instance : Inhabited (Keyed key) := ⟨empty⟩

/-- Whether there is no element. -/
def isEmpty (s : Keyed key) : Bool := s.toList.isEmpty

/-- The number of elements. -/
def size (s : Keyed key) : Nat := s.toList.length

/-- The element with key `k`. -/
def find? (s : Keyed key) (k : κ) : Option α :=
  s.toList.find? fun a => compare (key a) k == .eq

/-- Whether some element has key `k`. -/
def hasKey (s : Keyed key) (k : κ) : Bool :=
  s.toList.any fun a => compare (key a) k == .eq

/-- The keys, in order. -/
def keys (s : Keyed key) : List κ := s.toList.map key

/-! ## Removing -/

/-- The elements that satisfy `p`. -/
def filter (s : Keyed key) (p : α → Bool) : Keyed key :=
  ⟨s.toList.filter p, s.increasing.filter _⟩

/-- The collection without the element of key `k`. -/
def erase (s : Keyed key) (k : κ) : Keyed key :=
  s.filter fun a => compare (key a) k != .eq

/-- The elements of `s` whose key does not occur in `t`. -/
def difference {β : Type} {key' : β → κ} (s : Keyed key) (t : Keyed key') : Keyed key :=
  s.filter fun a => !t.hasKey (key a)

/-! ## Comparing the keys of two collections -/

/-- Whether every key of `s` occurs in `t`. -/
def isSubset (s t : Keyed key) : Bool := s.toList.all fun a => t.hasKey (key a)

/-- Whether some key of `s` occurs in `t`. The keys of the smaller collection are looked up in the
larger one. -/
def intersects (s t : Keyed key) : Bool :=
  let (small, large) := if s.size ≤ t.size then (s, t) else (t, s)
  small.toList.any fun a => large.hasKey (key a)

/-! ## Inserting -/

/-- Places `a` into a list in key order; an element with the same key stays and `a` is dropped. -/
def place (key : α → κ) (a : α) : List α → List α
  | [] => [a]
  | b :: rest =>
    match compare (key a) (key b) with
    | .lt => a :: b :: rest
    | .eq => b :: rest
    | .gt => b :: place key a rest

theorem mem_of_mem_place {a b : α} {l : List α} (h : b ∈ place key a l) : b = a ∨ b ∈ l := by
  induction l with
  | nil => simpa [place] using h
  | cons c rest ih =>
    unfold place at h
    split at h
    · simpa using h
    · exact .inr h
    · rcases List.mem_cons.1 h with rfl | h
      · simp
      · rcases ih h with h | h <;> simp [h]

section Ordered

variable [TransOrd κ]

theorem pairwise_place (a : α) {l : List α}
    (h : l.Pairwise fun a b => compare (key a) (key b) = .lt) :
    (place key a l).Pairwise fun a b => compare (key a) (key b) = .lt := by
  induction l with
  | nil => simp [place]
  | cons b rest ih =>
    obtain ⟨hb, hrest⟩ := List.pairwise_cons.1 h
    unfold place
    split
    · rename_i hab
      refine List.pairwise_cons.2 ⟨fun c hc => ?_, h⟩
      rcases List.mem_cons.1 hc with rfl | hc
      · exact hab
      · exact Std.TransCmp.lt_trans hab (hb c hc)
    · exact h
    · rename_i hab
      refine List.pairwise_cons.2 ⟨fun c hc => ?_, ih hrest⟩
      rcases mem_of_mem_place hc with rfl | hc
      · exact Std.OrientedCmp.lt_of_gt hab
      · exact hb c hc

/-- Adds `a`, unless an element with its key is present: the first element of a key stays. -/
def insert (s : Keyed key) (a : α) : Keyed key :=
  ⟨place key a s.toList, pairwise_place a s.increasing⟩

/-- Adds `a` in place of the element with its key, if there is one. -/
def replace (s : Keyed key) (a : α) : Keyed key :=
  (s.erase (key a)).insert a

/-- Adds the elements of a list from left to right, the first element of a key staying. -/
def insertAll (s : Keyed key) (l : List α) : Keyed key := l.foldl insert s

/-- The elements of a list in key order, the first element of a key standing for it. -/
def ofList (l : List α) : Keyed key := (∅ : Keyed key).insertAll l

/-- The elements of `s`, and those of `t` whose key does not occur in `s`. -/
def union (s t : Keyed key) : Keyed key := s.insertAll t.toList

end Ordered

end Keyed

/-! ## Sets and maps -/

/-- A finite set in increasing order. -/
abbrev SortedSet (α : Type) [Ord α] : Type := Keyed (@id α)

/-- A finite map in increasing order of its keys. -/
abbrev SortedMap (κ β : Type) [Ord κ] : Type := Keyed (@Prod.fst κ β)

namespace SortedMap

variable {κ β : Type} [Ord κ]

/-- The value at `k`. -/
def get? (m : SortedMap κ β) (k : κ) : Option β := (m.find? k).map Prod.snd

/-- The value at `k`, or `default` where there is none. -/
def getD (m : SortedMap κ β) (k : κ) (default : β) : β := (m.get? k).getD default

variable [TransOrd κ]

/-- Sets the value at `k`. -/
def put (m : SortedMap κ β) (k : κ) (v : β) : SortedMap κ β := Keyed.replace m (k, v)

/-- The map of a list of pairs, a later pair counting over an earlier one of the same key. -/
def ofPairs (l : List (κ × β)) : SortedMap κ β :=
  l.foldl (fun m e => put m e.1 e.2) (∅ : Keyed _)

end SortedMap

end Interleaving
