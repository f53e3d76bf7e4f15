import Interleaving.Random.SplitMix

/-!
# Sources of choices

Wherever an exploration is free to choose, it asks a source for one of `n` possibilities. A seeded
source makes runs repeatable; a scripted source lets a caller prescribe every choice.
-/

namespace Interleaving

/-- A source of choices. -/
class ChoiceSource (χ : Type) where
  /-- A choice among the given number of possibilities, and the source after it. A source is expected
  to answer below that number, if it is positive; a script may fail to. -/
  pick : χ → Nat → Nat × χ
  /-- The name of this kind of source in messages. -/
  label : χ → String

/-- Sources that answer below the number of possibilities, if there are any. -/
class LawfulChoiceSource (χ : Type) [ChoiceSource χ] : Prop where
  pick_lt (source : χ) {count : Nat} (h : 0 < count) : (ChoiceSource.pick source count).1 < count

/-! ## Seeded choices -/

/-- Choices drawn from a generator, with the seed that it started from. -/
structure Seeded where
  seed : UInt64
  generator : SplitMix
deriving DecidableEq, Inhabited

namespace Seeded

/-- The choices that belong to a seed. -/
def ofSeed (seed : UInt64) : Seeded := ⟨seed, ⟨seed⟩⟩

/-- The next word of the generator. -/
def next (c : Seeded) : UInt64 × Seeded :=
  (c.generator.next.1, { c with generator := c.generator.next.2 })

/-- A choice among `bound` possibilities. -/
def nextBelow (c : Seeded) (bound : Nat) : Nat × Seeded :=
  let (i, g) := c.generator.nextBelow bound
  (i, { c with generator := g })

/-- A choice among `bound` possibilities; there is none among zero. -/
def nextBelow? (c : Seeded) (bound : Nat) : Option (Nat × Seeded) :=
  if bound = 0 then none else some (c.nextBelow bound)

instance : ChoiceSource Seeded where
  pick := nextBelow
  label _ := "deterministic"

instance : LawfulChoiceSource Seeded where
  pick_lt _ _ h := SplitMix.drawBelow_lt h _ _

end Seeded

/-! ## Scripted choices -/

/-- How a scripted value becomes a choice. -/
inductive Script.Reading where
  /-- The remainder of the value by the number of possibilities. -/
  | reduced
  /-- The value itself, which may be out of range. -/
  | literal
deriving DecidableEq, Inhabited

/-- Choices taken in turn from a list, which starts over at its end. -/
structure Script where
  values : List Nat
  reading : Script.Reading
  /-- How many choices have been made. -/
  position : Nat
deriving DecidableEq, Inhabited

namespace Script

/-- The script that has made no choice yet. -/
def ofList (reading : Reading) (values : List Nat) : Script := ⟨values, reading, 0⟩

/-- The next value of the script; an empty script reads as zeros. -/
def current (s : Script) : Nat := s.values.getD (s.position % s.values.length) 0

instance : ChoiceSource Script where
  pick s count :=
    let index := match s.reading with
      | .reduced => s.current % count
      | .literal => s.current
    (index, { s with position := s.position + 1 })
  label _ := "script"

end Script

/-! ## Either kind -/

/-- A source of choices of either kind. -/
inductive Choices where
  | seeded (source : Seeded)
  | scripted (source : Script)
deriving Inhabited

instance : ChoiceSource Choices where
  pick
    | .seeded c, count => let (i, c) := ChoiceSource.pick c count; (i, .seeded c)
    | .scripted s, count => let (i, s) := ChoiceSource.pick s count; (i, .scripted s)
  label
    | .seeded c => ChoiceSource.label c
    | .scripted s => ChoiceSource.label s

end Interleaving
