import Lindenmayer.Decimal.Dyadic
import Mathlib.Algebra.Order.Field.Power
import Mathlib.Algebra.Order.Ring.Rat
import Mathlib.Order.Monotone.Basic
import Mathlib.Tactic.FieldSimp
import Mathlib.Tactic.Linarith
import Mathlib.Tactic.NormNum
import Mathlib.Tactic.Positivity
import Mathlib.Tactic.Ring

/-!
# Rounding to the nearest double

Which double a fraction is rounded to is settled by the points half-way between neighbours.
`Rounds` says it in this way: a fraction is rounded to at most some pattern of bits if it is
less than the midpoint above that pattern, or is the midpoint and the pattern is even. Since
patterns are in the order of what they encode, this determines the pattern, and rounding is
monotone and a matter of the value alone. The pattern of infinity stands where the next
double would be, so what is too large is nothing special.

`Dyadic.nearestBits` rounds in this sense (`rounds_nearestBits`): it takes the grid of the
binade that the fraction is in, where patterns go up by one from each multiple to the next.
Doubles below are no further apart than that, and those above are no closer.
-/

namespace Lindenmayer

theorem pow2_eq (n : ℕ) : pow2 n = 2 ^ n := rfl

theorem pow10_eq (n : ℕ) : pow10 n = 10 ^ n := rfl

namespace Dyadic

theorem hiddenBit_eq : hiddenBit = 2 ^ 52 := by norm_num [hiddenBit]

theorem infinityBits_eq : infinityBits = 2047 * hiddenBit := by norm_num [infinityBits, hiddenBit]

/-! ## What patterns encode -/

/-- The magnitude that a pattern of bits without a sign encodes, as a multiple of the least
double above zero. The pattern of infinity goes on with the series. -/
def multiple (bits : ℕ) : ℕ :=
  if bits < hiddenBit then bits
  else (hiddenBit + bits % hiddenBit) * 2 ^ (bits / hiddenBit - 1)

/-- A pattern from within one binade, both of its ends included. -/
theorem multiple_add {k m : ℕ} (hm : hiddenBit ≤ m ∨ k = 0) (hm' : m ≤ 2 * hiddenBit) :
    multiple (k * hiddenBit + m) = m * 2 ^ k := by
  have hpos : 0 < hiddenBit := by decide
  rw [multiple]
  by_cases hlow : m < hiddenBit
  · obtain rfl : k = 0 := hm.resolve_left (Nat.not_le.2 hlow)
    rw [Nat.zero_mul, Nat.zero_add, if_pos hlow, Nat.pow_zero, Nat.mul_one]
  · obtain ⟨r, rfl⟩ := Nat.exists_eq_add_of_le (Nat.le_of_not_lt hlow)
    have hbits : k * hiddenBit + (hiddenBit + r) = r + hiddenBit * (k + 1) := by ring
    rw [hbits, if_neg (by nlinarith), Nat.add_mul_mod_self_left, Nat.add_mul_div_left _ _ hpos]
    rcases Nat.lt_or_ge r hiddenBit with hr | hr
    · rw [Nat.mod_eq_of_lt hr, Nat.div_eq_of_lt hr, Nat.zero_add, Nat.add_sub_cancel]
    · obtain rfl : r = hiddenBit := by omega
      rw [Nat.mod_self, Nat.div_self hpos, Nat.add_zero]
      have hk : 1 + (k + 1) - 1 = k + 1 := by omega
      rw [hk, Nat.pow_succ]
      ring

theorem exists_binade (bits : ℕ) : ∃ k m, bits = k * hiddenBit + m ∧
    (hiddenBit ≤ m ∨ k = 0) ∧ m < 2 * hiddenBit := by
  have hpos : 0 < hiddenBit := by decide
  have hdiv := Nat.div_add_mod bits hiddenBit
  have hmod := Nat.mod_lt bits hpos
  rcases Nat.eq_zero_or_pos (bits / hiddenBit) with hzero | hk
  · refine ⟨0, bits, by omega, .inr rfl, ?_⟩
    rw [hzero] at hdiv
    omega
  · obtain ⟨k, hk⟩ : ∃ k, bits / hiddenBit = k + 1 := ⟨bits / hiddenBit - 1, by omega⟩
    refine ⟨k, hiddenBit + bits % hiddenBit, ?_, .inl (Nat.le_add_right _ _), by omega⟩
    rw [hk, Nat.mul_add, Nat.mul_one, Nat.mul_comm] at hdiv
    omega

theorem multiple_strictMono : StrictMono multiple := by
  refine strictMono_nat_of_lt_succ fun bits => ?_
  obtain ⟨k, m, rfl, hm, hm'⟩ := exists_binade bits
  rw [multiple_add hm hm'.le, Nat.add_assoc, multiple_add (hm.imp_left Nat.le_succ_of_le) hm']
  exact Nat.mul_lt_mul_of_pos_right (Nat.lt_succ_self m) (by positivity)

/-- The magnitude that a pattern encodes. -/
def magnitude (bits : ℕ) : ℚ := multiple bits * 2 ^ leastExponent

theorem magnitude_strictMono : StrictMono magnitude := fun _ _ h =>
  mul_lt_mul_of_pos_right (Nat.cast_lt.2 (multiple_strictMono h)) (by positivity)

/-- On the grid of a binade, from its lower end to its upper one. -/
theorem magnitude_add {k m : ℕ} (hm : hiddenBit ≤ m ∨ k = 0) (hm' : m ≤ 2 * hiddenBit) :
    magnitude (k * hiddenBit + m) = m * 2 ^ (k + leastExponent) := by
  rw [magnitude, multiple_add hm hm', zpow_add₀ (by norm_num), zpow_natCast, Nat.cast_mul,
    Nat.cast_pow, Nat.cast_ofNat, mul_assoc]

/-- The point half-way between a pattern and the next one. -/
def midpoint (bits : ℕ) : ℚ := (magnitude bits + magnitude (bits + 1)) / 2

theorem magnitude_lt_midpoint (bits : ℕ) : magnitude bits < midpoint bits := by
  have h := magnitude_strictMono (Nat.lt_succ_self bits)
  rw [midpoint]
  linarith

theorem midpoint_lt_magnitude {bits bits' : ℕ} (h : bits < bits') :
    midpoint bits < magnitude bits' := by
  have hnext := magnitude_strictMono (Nat.lt_succ_self bits)
  have hle : magnitude (bits + 1) ≤ magnitude bits' := magnitude_strictMono.monotone h
  rw [midpoint]
  linarith

theorem midpoint_add {k m : ℕ} (hm : hiddenBit ≤ m ∨ k = 0) (hm' : m < 2 * hiddenBit) :
    midpoint (k * hiddenBit + m) = (m + 1 / 2) * 2 ^ (k + leastExponent) := by
  rw [midpoint, Nat.add_assoc, magnitude_add hm hm'.le,
    magnitude_add (hm.imp_left Nat.le_succ_of_le) hm', Nat.cast_succ]
  ring

/-! ## Rounding -/

/-- Whether a fraction is rounded to at most this pattern: it is below the midpoint above
it, or at that point and the pattern is even. -/
def RoundsBelow (q : ℚ) (bits : ℕ) : Prop := q < midpoint bits ∨ q = midpoint bits ∧ bits % 2 = 0

/-- Whether a pattern is that of the double nearest to a fraction, or of infinity if there
is no double as large as that. -/
structure Rounds (q : ℚ) (bits : ℕ) : Prop where
  le : bits ≤ infinityBits
  le_iff : ∀ bound < infinityBits, bits ≤ bound ↔ RoundsBelow q bound

namespace Rounds

variable {q q' : ℚ} {bits bits' : ℕ}

theorem mono (h : Rounds q bits) (h' : Rounds q' bits') (hle : q ≤ q') : bits ≤ bits' := by
  rcases Nat.lt_or_ge bits' infinityBits with hlt | hge
  · refine (h.le_iff _ hlt).2 ?_
    rcases (h'.le_iff _ hlt).1 le_rfl with hbelow | ⟨heq, heven⟩
    · exact .inl (hle.trans_lt hbelow)
    · rcases (hle.trans_eq heq).lt_or_eq with hbelow | hmid
      · exact .inl hbelow
      · exact .inr ⟨hmid, heven⟩
  · exact h.le.trans hge

theorem unique (h : Rounds q bits) (h' : Rounds q bits') : bits = bits' :=
  Nat.le_antisymm (h.mono h' le_rfl) (h'.mono h le_rfl)

/-- A fraction between the midpoints around a pattern is rounded to it, and so are these
if the pattern is even. -/
theorem of_between (hbits : bits < infinityBits) (habove : RoundsBelow q bits)
    (hbelow : ∀ before, bits = before + 1 → ¬ RoundsBelow q before) : Rounds q bits := by
  refine ⟨hbits.le, fun bound _ => ⟨fun hle => ?_, fun hrounds => ?_⟩⟩
  · rcases hle.eq_or_lt with rfl | hlt
    · exact habove
    · have hmid : midpoint bits < midpoint bound :=
        (midpoint_lt_magnitude hlt).trans (magnitude_lt_midpoint bound)
      rcases habove with hq | ⟨hq, _⟩
      · exact .inl (hq.trans hmid)
      · exact .inl (hq.trans_lt hmid)
  · refine Nat.le_of_not_lt fun hlt => ?_
    obtain ⟨before, rfl⟩ : ∃ before, bits = before + 1 := ⟨bits - 1, by omega⟩
    refine hbelow before rfl ?_
    rcases (Nat.le_of_lt_succ hlt).eq_or_lt with rfl | hlt
    · exact hrounds
    · have hmid : midpoint bound < midpoint before :=
        (midpoint_lt_magnitude hlt).trans (magnitude_lt_midpoint before)
      rcases hrounds with hq | ⟨hq, _⟩
      · exact .inl (hq.trans hmid)
      · exact .inl (hq.trans_lt hmid)

/-- What a pattern encodes is rounded to that pattern. -/
theorem magnitude (hbits : bits < infinityBits) : Rounds (magnitude bits) bits := by
  refine of_between hbits (.inl (magnitude_lt_midpoint bits)) fun before hbefore hrounds => ?_
  have hlt : midpoint before < Dyadic.magnitude bits := midpoint_lt_magnitude (by omega)
  rcases hrounds with h | ⟨h, _⟩
  · exact lt_asymm hlt h
  · exact hlt.ne' h

/-- Infinity is for what is at or beyond the midpoint above the greatest double, the pattern
of which is odd. -/
theorem lt_infinityBits_iff (h : Rounds q bits) :
    bits < infinityBits ↔ q < midpoint (infinityBits - 1) := by
  have hodd : ¬ (infinityBits - 1) % 2 = 0 := by decide
  rw [Nat.lt_iff_le_pred (by decide), h.le_iff _ (by decide), RoundsBelow]
  exact or_iff_left fun hmid => hodd hmid.2

end Rounds

/-! ## Rounding to a natural number -/

theorem roundToEven_le_iff {num den : ℕ} (hden : 0 < den) (j : ℕ) : roundToEven num den ≤ j ↔
    (num / den : ℚ) < j + 1 / 2 ∨ (num / den : ℚ) = j + 1 / 2 ∧ j % 2 = 0 := by
  have hdiv := Nat.div_add_mod num den
  have hmod := Nat.mod_lt num hden
  have hdenQ : (0 : ℚ) < den := Nat.cast_pos.2 hden
  have hlt : (num / den : ℚ) < j + 1 / 2 ↔ 2 * num < (2 * j + 1) * den := by
    rw [div_lt_iff₀ hdenQ, ← Nat.cast_lt (α := ℚ)]
    push_cast
    constructor <;> intro h <;> linarith
  have heq : (num / den : ℚ) = j + 1 / 2 ↔ 2 * num = (2 * j + 1) * den := by
    rw [div_eq_iff hdenQ.ne', ← Nat.cast_inj (R := ℚ)]
    push_cast
    constructor <;> intro h <;> linarith
  rw [hlt, heq, roundToEven]
  generalize num / den = floor at hdiv
  generalize num % den = rest at hdiv hmod
  subst hdiv
  rcases Nat.lt_trichotomy floor j with hfloor | rfl | hfloor
  · have hbelow : 2 * (den * floor + rest) < (2 * j + 1) * den := by nlinarith
    split <;> omega
  · have hbelow : 2 * (den * floor + rest) < (2 * floor + 1) * den ↔ 2 * rest < den := by
      constructor <;> intro h <;> nlinarith
    have hmid : 2 * (den * floor + rest) = (2 * floor + 1) * den ↔ 2 * rest = den := by
      constructor <;> intro h <;> nlinarith
    rw [hbelow, hmid]
    simp only [Bool.or_eq_true, decide_eq_true_eq, Bool.and_eq_true, beq_iff_eq]
    split <;> omega
  · have habove : (2 * j + 1) * den < 2 * (den * floor + rest) := by nlinarith
    split <;> omega

/-! ## Rounding to a double -/

theorem cast_scaled {num den : ℕ} (e : ℤ) :
    ((num * pow2 (-e).toNat : ℕ) : ℚ) / (den * pow2 e.toNat : ℕ) = num / den / 2 ^ e := by
  rw [pow2_eq, pow2_eq, Nat.cast_mul, Nat.cast_mul, Nat.cast_pow, Nat.cast_pow, Nat.cast_ofNat]
  rcases le_total 0 e with he | he
  · obtain ⟨n, rfl⟩ := Int.eq_ofNat_of_zero_le he
    rw [Int.toNat_of_nonpos (by omega), Int.toNat_natCast, zpow_natCast, pow_zero, mul_one,
      div_div]
  · obtain ⟨n, hn⟩ := Int.eq_ofNat_of_zero_le (Int.neg_nonneg.2 he)
    obtain rfl : e = -n := by omega
    rw [Int.toNat_of_nonpos he, neg_neg, Int.toNat_natCast, zpow_neg, zpow_natCast, pow_zero,
      mul_one, div_inv_eq_mul, div_mul_eq_mul_div]

/-- The binary order of a fraction is the binade it is in. -/
theorem binaryOrder_spec {num den : ℕ} (hnum : 0 < num) (hden : 0 < den) :
    (2 : ℚ) ^ binaryOrder num den ≤ num / den ∧
      (num / den : ℚ) < 2 ^ (binaryOrder num den + 1) := by
  have hnumLow : (2 : ℚ) ^ num.log2 ≤ num := by exact_mod_cast Nat.log2_self_le hnum.ne'
  have hnumHigh : (num : ℚ) < 2 ^ (num.log2 + 1) := by exact_mod_cast Nat.lt_log2_self
  have hdenLow : (2 : ℚ) ^ den.log2 ≤ den := by exact_mod_cast Nat.log2_self_le hden.ne'
  have hdenHigh : (den : ℚ) < 2 ^ (den.log2 + 1) := by exact_mod_cast Nat.lt_log2_self
  have hdenQ : (0 : ℚ) < den := Nat.cast_pos.2 hden
  have hlow : (2 : ℚ) ^ ((num.log2 : ℤ) - den.log2 - 1) ≤ num / den := by
    rw [le_div_iff₀ hdenQ]
    calc (2 : ℚ) ^ ((num.log2 : ℤ) - den.log2 - 1) * den
        ≤ 2 ^ ((num.log2 : ℤ) - den.log2 - 1) * 2 ^ (den.log2 + 1) := by gcongr
      _ = 2 ^ num.log2 := by
          rw [← zpow_natCast, ← zpow_natCast, ← zpow_add₀ (by norm_num)]
          congr 1
          push_cast
          ring
      _ ≤ num := hnumLow
  have hhigh : (num / den : ℚ) < 2 ^ ((num.log2 : ℤ) - den.log2 + 1) := by
    rw [div_lt_iff₀ hdenQ]
    calc (num : ℚ) < 2 ^ (num.log2 + 1) := hnumHigh
      _ = 2 ^ ((num.log2 : ℤ) - den.log2 + 1) * 2 ^ den.log2 := by
          rw [← zpow_natCast, ← zpow_natCast, ← zpow_add₀ (by norm_num)]
          congr 1
          push_cast
          ring
      _ ≤ 2 ^ ((num.log2 : ℤ) - den.log2 + 1) * den := by gcongr
  have htest : den * pow2 ((num.log2 : ℤ) - den.log2).toNat ≤
      num * pow2 (-((num.log2 : ℤ) - den.log2)).toNat ↔
        (2 : ℚ) ^ ((num.log2 : ℤ) - den.log2) ≤ num / den := by
    have hpos : (0 : ℚ) < ((den * pow2 ((num.log2 : ℤ) - den.log2).toNat : ℕ) : ℚ) := by
      rw [pow2_eq]
      positivity
    have hpow : (0 : ℚ) < 2 ^ ((num.log2 : ℤ) - den.log2) := by positivity
    rw [← one_le_div₀ hpow, ← cast_scaled, one_le_div₀ hpos, Nat.cast_le]
  rw [binaryOrder]
  split
  · next h => exact ⟨htest.1 h, hhigh⟩
  · next h =>
      rw [Int.sub_add_cancel]
      exact ⟨hlow, not_le.1 (mt htest.2 h)⟩

/-- What is rounded on the grid of the binade it is in is rounded. -/
theorem le_iff_roundsBelow {q : ℚ} {k m : ℕ}
    (hstart : k ≠ 0 → magnitude (k * hiddenBit + hiddenBit) ≤ q)
    (hstop : q < magnitude (k * hiddenBit + 2 * hiddenBit))
    (hround : ∀ j : ℕ, m ≤ j ↔ q < (j + 1 / 2) * 2 ^ (k + leastExponent) ∨
      q = (j + 1 / 2) * 2 ^ (k + leastExponent) ∧ j % 2 = 0) (bound : ℕ) :
    k * hiddenBit + m ≤ bound ↔ RoundsBelow q bound := by
  have hgrid : (0 : ℚ) < 2 ^ (k + leastExponent) := by positivity
  rcases Nat.lt_or_ge bound (k * hiddenBit + 2 * hiddenBit) with hupper | hupper
  · by_cases hlower : k ≠ 0 ∧ bound < k * hiddenBit + hiddenBit
    · -- Everything below the binade is too far away.
      obtain ⟨hk, hlower⟩ := hlower
      have hq := hstart hk
      have hfar : ¬ RoundsBelow q bound := by
        have hmid := (midpoint_lt_magnitude hlower).trans_le hq
        rintro (h | ⟨h, _⟩)
        · exact lt_asymm h hmid
        · exact hmid.ne' h
      have hm : hiddenBit ≤ m := by
        refine Nat.le_of_not_lt fun hlt => ?_
        rw [magnitude_add (.inl le_rfl) (by omega)] at hq
        have hcast : ((hiddenBit - 1 : ℕ) : ℚ) + 1 / 2 < hiddenBit := by
          rw [Nat.cast_sub (by decide), Nat.cast_one]
          linarith
        have hbelow := mul_lt_mul_of_pos_right hcast hgrid
        rcases (hround (hiddenBit - 1)).1 (by omega) with h | ⟨h, _⟩
        · linarith
        · linarith
      exact ⟨fun h => absurd h (by omega), fun h => absurd h hfar⟩
    · obtain ⟨j, rfl, hj, hj'⟩ : ∃ j, bound = k * hiddenBit + j ∧ (hiddenBit ≤ j ∨ k = 0) ∧
          j < 2 * hiddenBit := by
        rcases Nat.eq_zero_or_pos k with rfl | hk
        · exact ⟨bound, by omega, .inr rfl, by omega⟩
        · exact ⟨bound - k * hiddenBit, by omega, .inl (by omega), by omega⟩
      have heven : (k * hiddenBit + j) % 2 = j % 2 := by
        have htwo : hiddenBit % 2 = 0 := by decide
        rw [Nat.add_mod, Nat.mul_mod, htwo, Nat.mul_zero, Nat.zero_mod, Nat.zero_add, Nat.mod_mod]
      rw [Nat.add_le_add_iff_left, hround, RoundsBelow, midpoint_add hj hj', heven]
  · -- The upper end of the binade, and everything beyond it, is not too near.
    have hmid : q < midpoint bound := calc
      q < magnitude (k * hiddenBit + 2 * hiddenBit) := hstop
      _ ≤ magnitude bound := magnitude_strictMono.monotone hupper
      _ < midpoint bound := magnitude_lt_midpoint bound
    have hm : m ≤ 2 * hiddenBit := by
      rw [magnitude_add (.inl (by omega)) le_rfl] at hstop
      refine (hround _).2 (.inl (hstop.trans ?_))
      exact mul_lt_mul_of_pos_right (by linarith) hgrid
    exact ⟨fun _ => .inl hmid, fun _ => by omega⟩

/-- The pattern that is computed for a fraction is the one it is rounded to. -/
theorem rounds_nearestBits (num : ℕ) {den : ℕ} (hden : 0 < den) :
    Rounds (num / den) (nearestBits num den) := by
  rcases Nat.eq_zero_or_pos num with rfl | hnum
  · have hzero := @Rounds.magnitude 0 (by decide)
    have hvalue : magnitude 0 = 0 := by
      rw [magnitude, multiple, if_pos (by decide), Nat.cast_zero, zero_mul]
    rw [hvalue] at hzero
    rw [nearestBits, if_pos rfl, Nat.cast_zero, zero_div]
    exact hzero
  obtain ⟨hlow, hhigh⟩ := binaryOrder_spec hnum hden
  obtain ⟨k, hk⟩ : ∃ k : ℕ, max (binaryOrder num den - 52) leastExponent = k + leastExponent :=
    ⟨(max (binaryOrder num den - 52) leastExponent - leastExponent).toNat, by omega⟩
  have hgrid : (0 : ℚ) < 2 ^ (k + leastExponent) := by positivity
  have hstart : k ≠ 0 → magnitude (k * hiddenBit + hiddenBit) ≤ (num / den : ℚ) := by
    intro hpos
    have horder : binaryOrder num den = 52 + (k + leastExponent) := by omega
    rw [magnitude_add (.inl le_rfl) (by omega), hiddenBit_eq]
    rw [horder, zpow_add₀ (by norm_num)] at hlow
    exact_mod_cast hlow
  have hstop : (num / den : ℚ) < magnitude (k * hiddenBit + 2 * hiddenBit) := by
    have hle : binaryOrder num den + 1 ≤ 53 + (k + leastExponent) := by omega
    have hpow : (2 : ℚ) ^ (binaryOrder num den + 1) ≤ 2 ^ (53 + (k + leastExponent)) :=
      zpow_le_zpow_right₀ (by norm_num) hle
    have htwice : ((2 * hiddenBit : ℕ) : ℚ) = 2 ^ (53 : ℤ) := by norm_num [hiddenBit]
    rw [magnitude_add (.inl (by omega)) le_rfl, htwice, ← zpow_add₀ (by norm_num)]
    exact hhigh.trans_le hpow
  rw [nearestBits, if_neg hnum.ne', hk]
  dsimp only
  rw [Int.add_sub_cancel, Int.toNat_natCast]
  refine ⟨Nat.min_le_right _ _, fun bound hbound => ?_⟩
  rw [min_le_iff, or_iff_left (Nat.not_le.2 hbound)]
  refine le_iff_roundsBelow hstart hstop (fun j => ?_) bound
  rw [roundToEven_le_iff (by rw [pow2_eq]; positivity), cast_scaled, div_lt_iff₀ hgrid,
    div_eq_iff hgrid.ne']

end Dyadic

end Lindenmayer
