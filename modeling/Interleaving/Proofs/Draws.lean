import Mathlib.Data.Int.CardIntervalMod
import Mathlib.Data.FinEnum
import Mathlib.Data.UInt
import Mathlib.SetTheory.Cardinal.Finite
import Interleaving.Random.SplitMix

/-!
# Draws below a bound

The words of a generator are a permutation of its counters (`SplitMix.bijective_next`): the words can be
traced back through each xor-shift and each multiplication. The counter does not come back to a value for
`2 ^ 64` draws, so the words in a row are different ones and cannot all be among the few that a draw
refuses. So a draw that goes on until a word is in use (`SplitMix.Draws`) ends after a number of refusals
known beforehand, and it favours no remainder (`SplitMix.nextBelow_unbiased`).
-/

namespace Interleaving

namespace SplitMix

variable {g : SplitMix} {bound i j n : Nat}

/-! ## The words are a permutation -/

/-- A word that a shift to the right leaves as it is has no bits. -/
theorem eq_zero_of_shiftRight_eq {x s : UInt64} (hs : 0 < s.toNat % 64) (h : x >>> s = x) : x = 0 := by
  have hnat : x.toNat / 2 ^ (s.toNat % 64) = x.toNat := by
    rw [← Nat.shiftRight_eq_div_pow, ← UInt64.toNat_shiftRight, h]
  have hpow : 1 < 2 ^ (s.toNat % 64) := Nat.one_lt_two_pow (by omega)
  by_contra hx
  have hpos : 0 < x.toNat := by
    refine Nat.pos_of_ne_zero fun hzero => hx (UInt64.toNat_inj.1 ?_)
    rw [hzero, UInt64.toNat_zero]
  exact absurd hnat (Nat.div_lt_self hpos hpow).ne

theorem xorShift_injective {s : UInt64} (hs : 0 < s.toNat % 64) :
    Function.Injective fun z : UInt64 => z ^^^ (z >>> s) := by
  intro x y hxy
  -- the bits in which two such words differ are left as they are by the shift
  have hdiff : (x ^^^ y) >>> s = x ^^^ y := by
    have hxy : x ^^^ (x >>> s) = y ^^^ (y >>> s) := hxy
    calc (x ^^^ y) >>> s = x ^^^ (x ^^^ x >>> s) ^^^ y >>> s := by
          rw [UInt64.shiftRight_xor, ← UInt64.xor_assoc x x, UInt64.xor_self, UInt64.zero_xor]
      _ = x ^^^ y := by
          rw [hxy, UInt64.xor_assoc, UInt64.xor_assoc, UInt64.xor_self, UInt64.xor_zero]
  exact UInt64.xor_eq_zero_iff.1 (eq_zero_of_shiftRight_eq hs hdiff)

/-- Multiplication by a word that has an inverse loses nothing. -/
theorem mul_injective {c : UInt64} (inverse : UInt64) (h : c * inverse = 1) :
    Function.Injective fun z : UInt64 => z * c := by
  intro x y hxy
  have hback : ∀ z : UInt64, z * c * inverse = z := by
    intro z
    rw [UInt64.mul_assoc, h, UInt64.mul_one]
  rw [← hback x, ← hback y]
  exact congrArg (· * inverse) hxy

theorem finalize_injective : Function.Injective finalize := by
  have hfirst : Function.Injective fun z : UInt64 => (z ^^^ (z >>> 30)) * 0xbf58476d1ce4e5b9 :=
    (mul_injective 0x96de1b173f119089 (by decide)).comp (xorShift_injective (by decide))
  have hsecond : Function.Injective fun z : UInt64 => (z ^^^ (z >>> 27)) * 0x94d049bb133111eb :=
    (mul_injective 0x319642b2d24d8ec3 (by decide)).comp (xorShift_injective (by decide))
  exact (xorShift_injective (s := 31) (by decide)).comp (hsecond.comp hfirst)

/-- The next word, as a function of the generator, is a permutation. -/
theorem bijective_next : Function.Bijective fun g : SplitMix => g.next.1 := by
  have hfinalize : Function.Bijective finalize := Finite.injective_iff_bijective.1 finalize_injective
  constructor
  · rintro ⟨c⟩ ⟨d⟩ h
    exact congrArg mk ((UInt64.add_left_inj increment).1 (finalize_injective h))
  · intro w
    obtain ⟨c, hc⟩ := hfinalize.2 w
    refine ⟨⟨c - increment⟩, ?_⟩
    show finalize (c - increment + increment) = w
    rw [UInt64.sub_add_cancel, hc]

/-! ## Words in a row -/

/-- The generator after a number of draws. -/
def afterDraws (n : Nat) (g : SplitMix) : SplitMix := (fun g => g.next.2)^[n] g

/-- The word drawn after `i` others. -/
def word (g : SplitMix) (i : Nat) : Nat := (afterDraws i g).next.1.toNat

theorem word_succ (g : SplitMix) (i : Nat) : g.word (i + 1) = g.next.2.word i := by
  rw [word, word, afterDraws, Function.iterate_succ_apply, ← afterDraws]

theorem counter_afterDraws (n : Nat) (g : SplitMix) :
    (afterDraws n g).counter = g.counter + .ofNat n * increment := by
  induction n generalizing g with
  | zero => simp [afterDraws]
  | succ n ih =>
    have hnext : g.next.2.counter = g.counter + increment := rfl
    rw [afterDraws, Function.iterate_succ_apply, ← afterDraws, ih, hnext, UInt64.ofNat_add,
      UInt64.add_mul, UInt64.add_assoc, UInt64.add_comm increment]
    simp

/-- No word comes up twice before all have. -/
theorem eq_of_word_eq (hi : i < 2 ^ 64) (hj : j < 2 ^ 64) (h : g.word i = g.word j) : i = j := by
  have hstate : afterDraws i g = afterDraws j g := bijective_next.1 (UInt64.toNat_inj.1 h)
  have hcounter := congrArg counter hstate
  rw [counter_afterDraws, counter_afterDraws, UInt64.add_right_inj] at hcounter
  have hodd : increment * 0xf1de83e19937733d = 1 := by decide
  have hword : UInt64.ofNat i = .ofNat j := mul_injective _ hodd hcounter
  have hnat := congrArg UInt64.toNat hword
  rwa [UInt64.toNat_ofNat_of_lt' hi, UInt64.toNat_ofNat_of_lt' hj] at hnat

/-! ## Draws that come to an end -/

/-- A draw below `bound` that refuses `n` words and then takes one: the number drawn, and the generator
after it. -/
inductive Draws (bound : Nat) : SplitMix → Nat → Nat × SplitMix → Prop
  | take {g : SplitMix} (h : g.next.1.toNat < zone bound) :
    Draws bound g 0 (g.next.1.toNat % bound, g.next.2)
  | refuse {g : SplitMix} {n : Nat} {result : Nat × SplitMix} (h : zone bound ≤ g.next.1.toNat)
    (rest : Draws bound g.next.2 n result) : Draws bound g (n + 1) result

theorem Draws.lt {result : Nat × SplitMix} (h : Draws bound g n result) (hpos : 0 < bound) :
    result.1 < bound := by
  induction h with
  | take => exact Nat.mod_lt _ hpos
  | refuse _ _ ih => exact ih

/-- A draw that may refuse so many words goes on until one is in use, unless it refuses all of them and
one more is not in use either. -/
theorem drawBelow_draws (bound refusals : Nat) (g : SplitMix) :
    (∃ n ≤ refusals, Draws bound g n (drawBelow bound refusals g)) ∨
      ∀ i ≤ refusals, zone bound ≤ g.word i := by
  induction refusals generalizing g with
  | zero =>
    by_cases hused : g.next.1.toNat < zone bound
    · exact .inl ⟨0, Nat.le_refl 0, .take hused⟩
    · refine .inr fun i hi => ?_
      obtain rfl := Nat.le_zero.1 hi
      exact Nat.le_of_not_lt hused
  | succ refusals ih =>
    unfold drawBelow
    split
    · rename_i hused
      exact .inl ⟨0, Nat.zero_le _, .take hused⟩
    · rename_i hrefused
      have hrefused := Nat.le_of_not_lt hrefused
      rcases ih g.next.2 with ⟨n, hn, hdraws⟩ | hall
      · exact .inl ⟨n + 1, Nat.succ_le_succ hn, .refuse hrefused hdraws⟩
      · refine .inr fun i hi => ?_
        cases i with
        | zero => exact hrefused
        | succ i =>
          rw [word_succ]
          exact hall i (Nat.le_of_succ_le_succ hi)

theorem rejections_le (hpos : 0 < bound) : rejections bound ≤ bound := by
  have := Nat.mod_lt maxWord hpos
  unfold rejections excess
  omega

theorem zone_add_rejections (bound : Nat) : zone bound + rejections bound = 2 ^ 64 := by
  have hle : excess bound ≤ maxWord := Nat.mod_le _ _
  have hmax : maxWord = 2 ^ 64 - 1 := by
    rw [maxWord, UInt64.size]
    norm_num
  unfold zone rejections
  omega

/-- Among one more word in a row than can be refused, one is in use. -/
theorem exists_word_lt_zone (hpos : 0 < bound) (hbound : bound < 2 ^ 64) (g : SplitMix) :
    ∃ i ≤ rejections bound, g.word i < zone bound := by
  -- the words do not repeat, so there would be more of them than values that are refused
  by_contra hnone
  push Not at hnone
  have hfew := rejections_le hpos
  have hzone := zone_add_rejections bound
  have hmaps : ∀ i ∈ Finset.range (rejections bound + 1), g.word i ∈ Finset.Ico (zone bound) (2 ^ 64) := by
    intro i hi
    exact Finset.mem_Ico.2 ⟨hnone i (Nat.lt_succ_iff.1 (Finset.mem_range.1 hi)), UInt64.toNat_lt _⟩
  have hdistinct : Set.InjOn g.word (Finset.range (rejections bound + 1)) := by
    intro i hi j hj hij
    have hi := Finset.mem_range.1 hi
    have hj := Finset.mem_range.1 hj
    exact eq_of_word_eq (by omega) (by omega) hij
  have hcard := Finset.card_le_card_of_injOn g.word hmaps hdistinct
  rw [Finset.card_range, Nat.card_Ico] at hcard
  omega

/-! ## All remainders alike -/

theorem zone_eq : zone bound = maxWord / bound * bound := by
  have := Nat.div_add_mod' maxWord bound
  unfold zone excess
  omega

/-- The next words of all generators are the numbers below `2 ^ 64`, each of them once. -/
theorem card_next (P : Nat → Prop) [DecidablePred P] :
    Nat.card {g : SplitMix // P g.next.1.toNat} = ((Finset.range (2 ^ 64)).filter P).card := by
  let value (g : {g : SplitMix // P g.next.1.toNat}) : {n // n < 2 ^ 64 ∧ P n} :=
    ⟨g.1.next.1.toNat, UInt64.toNat_lt _, g.2⟩
  have hvalue : Function.Bijective value := by
    constructor
    · intro g h hgh
      exact Subtype.ext (bijective_next.1 (UInt64.toNat_inj.1 (congrArg Subtype.val hgh)))
    · rintro ⟨n, hn, hP⟩
      obtain ⟨g, hg⟩ := bijective_next.2 (.ofNat n)
      have hnat : g.next.1.toNat = n := by
        rw [show g.next.1 = .ofNat n from hg, UInt64.toNat_ofNat_of_lt' hn]
      exact ⟨⟨g, hnat ▸ hP⟩, Subtype.ext hnat⟩
  rw [Nat.card_congr (.ofBijective value hvalue)]
  refine Nat.subtype_card _ fun n => ?_
  rw [Finset.mem_filter, Finset.mem_range]

/-- Each remainder is left by the same number of words in use. -/
theorem card_accepted (hpos : 0 < bound) {r : Nat} (hr : r < bound) :
    Nat.card {g : SplitMix // g.next.1.toNat < zone bound ∧ g.next.1.toNat % bound = r} =
      maxWord / bound := by
  have hzone : zone bound ≤ 2 ^ 64 := by
    have := zone_add_rejections bound
    omega
  have hfilter : (Finset.range (2 ^ 64)).filter (fun n => n < zone bound ∧ n % bound = r) =
      (Finset.range (zone bound)).filter fun n => n ≡ r [MOD bound] := by
    ext n
    simp only [Finset.mem_filter, Finset.mem_range, Nat.ModEq, Nat.mod_eq_of_lt hr]
    omega
  rw [card_next fun n => n < zone bound ∧ n % bound = r, hfilter, ← Nat.count_eq_card_filter_range,
    Nat.count_modEq_card _ hpos, zone_eq, Nat.mul_div_cancel _ hpos, Nat.mul_mod_left]
  simp

/-! ## Fair draws -/

theorem drawBelow_of_lt_zone {refusals : Nat} (h : g.next.1.toNat < zone bound) :
    drawBelow bound refusals g = (g.next.1.toNat % bound, g.next.2) := by
  cases refusals with
  | zero => rfl
  | succ refusals => rw [drawBelow, if_pos h]

/-- For every positive bound that is a word: a draw below it refuses words until one is in use, at most
`1 + (2 ^ 64 - 1) % bound` of them, and its result is below the bound. The next word, as a function of the
generator, is a permutation of the words; and each number below the bound is what equally many generators
draw without a refusal. -/
theorem nextBelow_unbiased (hpos : 1 ≤ bound) (hbound : bound < 2 ^ 64) :
    (∀ g, ∃ n ≤ 1 + (2 ^ 64 - 1) % bound, Draws bound g n (g.nextBelow bound) ∧
      (g.nextBelow bound).1 < bound) ∧
    Function.Bijective (fun g : SplitMix => g.next.1) ∧
    ∀ r < bound, ∀ r' < bound,
      Nat.card {g : SplitMix // g.next.1.toNat < zone bound ∧ (g.nextBelow bound).1 = r} =
        Nat.card {g : SplitMix // g.next.1.toNat < zone bound ∧ (g.nextBelow bound).1 = r'} := by
  refine ⟨fun g => ?_, bijective_next, fun r hr r' hr' => ?_⟩
  · rcases drawBelow_draws bound (rejections bound) g with ⟨n, hn, hdraws⟩ | hall
    · exact ⟨n, hn, hdraws, hdraws.lt hpos⟩
    · obtain ⟨i, hi, hused⟩ := exists_word_lt_zone hpos hbound g
      exact absurd hused (Nat.not_lt.2 (hall i hi))
  · have hfirst : ∀ r < bound,
        Nat.card {g : SplitMix // g.next.1.toNat < zone bound ∧ (g.nextBelow bound).1 = r} =
          maxWord / bound := by
      intro r hr
      rw [← card_accepted hpos hr]
      refine Nat.card_congr (Equiv.subtypeEquivRight fun g => and_congr_right fun hused => ?_)
      rw [nextBelow, drawBelow_of_lt_zone hused]
    rw [hfirst r hr, hfirst r' hr']

/-- Below a bound just above half of the words, nearly every second word is refused; still the smallest
and the largest number come up equally often. -/
theorem nextBelow_unbiased_halfway :
    let bound := 2 ^ 63 + 1
    1 ≤ bound ∧ bound < 2 ^ 64 ∧ zone bound = bound ∧
      (∀ g, ∃ n ≤ 2 ^ 63 - 1, Draws bound g n (g.nextBelow bound) ∧ (g.nextBelow bound).1 < bound) ∧
      Nat.card {g : SplitMix // g.next.1.toNat < zone bound ∧ (g.nextBelow bound).1 = 0} =
        Nat.card {g : SplitMix // g.next.1.toNat < zone bound ∧ (g.nextBelow bound).1 = 2 ^ 63} := by
  intro bound
  have hpos : 1 ≤ bound := by decide
  have hbound : bound < 2 ^ 64 := by decide
  obtain ⟨hends, -, hfair⟩ := nextBelow_unbiased hpos hbound
  have hrejections : 1 + (2 ^ 64 - 1) % bound = 2 ^ 63 - 1 := by decide
  rw [hrejections] at hends
  exact ⟨hpos, hbound, by decide, hends, hfair 0 hpos (2 ^ 63) (Nat.lt_succ_self _)⟩

end SplitMix

end Interleaving
