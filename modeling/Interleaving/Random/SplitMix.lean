/-!
# `SplitMix`: a seeded generator of 64-bit words

The state is a counter that advances by an odd constant; the word drawn is the counter after two
rounds of xor-shift and multiplication by an odd constant, and a last xor-shift. Each of these
steps is injective, so the draw is a permutation of the 64-bit words.

A draw below a bound takes the first word below the largest usable multiple of the bound and
reduces it. At most `rejections bound + 1` words lie at or above that multiple, and successive words
are distinct, so the number of refused words is bounded by a number known beforehand.
-/

namespace Interleaving

/-- A generator, given by its counter. -/
structure SplitMix where
  counter : UInt64
deriving DecidableEq, Inhabited

namespace SplitMix

/-- The step of the counter. It is odd, so the counter passes through all words. -/
def increment : UInt64 := 0x9e3779b97f4a7c15

/-- Spreads the bits of a counter value over a word. -/
def finalize (z : UInt64) : UInt64 :=
  let z := (z ^^^ (z >>> 30)) * 0xbf58476d1ce4e5b9
  let z := (z ^^^ (z >>> 27)) * 0x94d049bb133111eb
  z ^^^ (z >>> 31)

/-- The next word, and the generator after it. -/
def next (g : SplitMix) : UInt64 × SplitMix :=
  let counter := g.counter + increment
  (finalize counter, ⟨counter⟩)

/-! ## Draws below a bound -/

/-- The largest word. -/
def maxWord : Nat := UInt64.size - 1

/-- The excess of the largest word over the words in use: words above `maxWord - excess bound` would
favour small remainders. -/
def excess (bound : Nat) : Nat := maxWord % bound

/-- The words below this multiple of `bound` are in use. -/
def zone (bound : Nat) : Nat := maxWord - excess bound

/-- How many words can be refused: those from `zone bound` to `maxWord`. -/
def rejections (bound : Nat) : Nat := 1 + excess bound

/-- A number below `bound` from the first word in use, refusing at most as many words as given;
after those, the next word is in use whatever it is. -/
def drawBelow (bound : Nat) : Nat → SplitMix → Nat × SplitMix
  | 0, g => (g.next.1.toNat % bound, g.next.2)
  | refusals + 1, g =>
    if g.next.1.toNat < zone bound then (g.next.1.toNat % bound, g.next.2)
    else drawBelow bound refusals g.next.2

/-- A number below `bound`, all of them equally frequent over the generators. -/
def nextBelow (g : SplitMix) (bound : Nat) : Nat × SplitMix :=
  drawBelow bound (rejections bound) g

/-- A number below `bound`; there is none below zero. -/
def nextBelow? (g : SplitMix) (bound : Nat) : Option (Nat × SplitMix) :=
  if bound = 0 then none else some (g.nextBelow bound)

/-- A draw below a positive bound is below it. -/
theorem drawBelow_lt {bound : Nat} (h : 0 < bound) (refusals : Nat) (g : SplitMix) :
    (drawBelow bound refusals g).1 < bound := by
  induction refusals generalizing g with
  | zero => exact Nat.mod_lt _ h
  | succ n ih =>
    unfold drawBelow
    split
    · exact Nat.mod_lt _ h
    · exact ih _

end SplitMix

end Interleaving
