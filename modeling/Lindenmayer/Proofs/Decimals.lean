import Lindenmayer.Proofs.Literals
import Lindenmayer.Proofs.Rounding

/-!
# Decimals between text and doubles

A decimal has an exact value, and both ways between a double and its text pass through it.

On the way in, digits around a point are read as a decimal, and the double is the one that
its value is rounded to; that powers of ten far out of range are not computed makes no
difference (`exists_rounds_nearest`). On the way out, the digits are those of a decimal whose
value is rounded to the double (`rounds_shortest`), since candidates are compared with the
very midpoints that rounding goes by, and the exact value is there if all of them fail.
Written in place, digits around a point have that value again (`exists_inPlace`).
-/

namespace Lindenmayer

open Lindenmayer.Text (isDigit)

/-- The positive and the negative part of an exponent. -/
theorem pow_toNat {b : ℚ} (hb : b ≠ 0) (e : ℤ) : b ^ e.toNat = b ^ e * b ^ (-e).toNat := by
  have hparts : (e.toNat : ℤ) = e + (-e).toNat := by omega
  rw [← zpow_natCast, ← zpow_natCast, hparts, zpow_add₀ hb]

namespace Decimal

/-- What a decimal stands for. -/
def value (d : Decimal) : ℚ := d.digits * 10 ^ d.exponent

theorem value_eq_div (d : Decimal) : d.value =
    (d.digits * pow10 d.exponent.toNat : ℕ) / (pow10 (-d.exponent).toNat : ℕ) := by
  have hpos : (0 : ℚ) < 10 ^ (-d.exponent).toNat := by positivity
  rw [pow10_eq, pow10_eq, Nat.cast_mul, Nat.cast_pow, Nat.cast_pow, Nat.cast_ofNat,
    pow_toNat (by norm_num) d.exponent, ← mul_assoc, mul_div_cancel_right₀ _ hpos.ne', value]

/-! ## Size -/

theorem digitCount_pos (n : ℕ) : 0 < digitCount n :=
  List.length_pos_of_ne_nil Nat.toDigits_ne_nil

theorem lt_pow_digitCount (n : ℕ) : n < 10 ^ digitCount n :=
  (Nat.length_toDigits_le_iff (by decide) (digitCount_pos n)).1 le_rfl

theorem pow_digitCount_le {n : ℕ} (hn : 0 < n) : 10 ^ (digitCount n - 1) ≤ n := by
  rcases Nat.eq_zero_or_pos (digitCount n - 1) with hzero | hpos
  · rwa [hzero, Nat.pow_zero]
  · refine Nat.le_of_not_lt fun hlt => ?_
    have hle : digitCount n ≤ digitCount n - 1 :=
      (Nat.length_toDigits_le_iff (by decide) hpos).2 hlt
    omega

/-- A decimal is between the powers of ten around its first digit. -/
theorem pow_le_value {d : Decimal} (hd : d.digits ≠ 0) :
    10 ^ (d.exponent + (digitCount d.digits - 1 : ℕ)) ≤ d.value := by
  have hle : ((10 ^ (digitCount d.digits - 1) : ℕ) : ℚ) ≤ d.digits :=
    Nat.cast_le.2 (pow_digitCount_le (Nat.pos_of_ne_zero hd))
  rw [zpow_add₀ (by norm_num), zpow_natCast, value, mul_comm]
  push_cast at hle
  gcongr

theorem value_lt_pow (d : Decimal) : d.value < 10 ^ (d.exponent + digitCount d.digits) := by
  have hlt : (d.digits : ℚ) < (10 ^ digitCount d.digits : ℕ) :=
    Nat.cast_lt.2 (lt_pow_digitCount d.digits)
  rw [zpow_add₀ (by norm_num), zpow_natCast, value, mul_comm (10 ^ d.exponent)]
  push_cast at hlt
  gcongr

theorem pow_le_value_iff {d : Decimal} (hd : d.digits ≠ 0) (n : ℤ) :
    10 ^ n ≤ d.value ↔ n ≤ d.exponent + (digitCount d.digits - 1 : ℕ) := by
  constructor
  · intro hle
    have hlt : n < d.exponent + digitCount d.digits :=
      (zpow_lt_zpow_iff_right₀ (by norm_num)).1 (hle.trans_lt d.value_lt_pow)
    have hcount := digitCount_pos d.digits
    omega
  · exact fun hle => (zpow_le_zpow_right₀ (by norm_num) hle).trans (pow_le_value hd)

end Decimal

/-! ## Reading -/

namespace Dyadic.Rounds

variable {q : ℚ}

theorem zero (h : q < midpoint 0) : Rounds q 0 :=
  of_between (by decide) (.inl h) nofun

theorem infinity (h : Dyadic.magnitude infinityBits ≤ q) : Rounds q infinityBits := by
  refine ⟨le_rfl, fun bound hbound => ⟨fun hle => absurd hbound (Nat.not_lt.2 hle), ?_⟩⟩
  have hmid : midpoint bound < q := (midpoint_lt_magnitude hbound).trans_le h
  rintro (hlt | ⟨heq, _⟩)
  · exact absurd hmid (lt_asymm hlt)
  · exact absurd heq hmid.ne'

end Dyadic.Rounds

theorem Dyadic.magnitude_infinityBits : magnitude infinityBits = 2 ^ 1024 := by
  have hbits : infinityBits = 2046 * hiddenBit + 2 ^ 52 := by
    rw [infinityBits_eq, hiddenBit_eq]
    norm_num
  rw [hbits, magnitude_add (.inl hiddenBit_eq.le) (by rw [hiddenBit_eq]; norm_num), leastExponent,
    Nat.cast_pow, Nat.cast_ofNat, ← zpow_natCast, ← zpow_natCast, ← zpow_add₀ (by norm_num)]
  rfl

theorem Dyadic.midpoint_zero : midpoint 0 = 2 ^ (-1075 : ℤ) := by
  have hzero := @midpoint_add 0 0 (.inr rfl) (by decide)
  have hhalf : ((0 : ℕ) : ℚ) + 1 / 2 = 2 ^ (-1 : ℤ) := by norm_num
  rw [Nat.zero_mul] at hzero
  rw [hzero, hhalf, leastExponent, ← zpow_add₀ (by norm_num)]
  rfl

/-- From here on all is infinite. -/
theorem Dyadic.magnitude_infinityBits_le : magnitude infinityBits ≤ 10 ^ (310 : ℤ) := by
  have hle : 2 ^ 1024 ≤ 10 ^ 310 := by decide +kernel
  rw [magnitude_infinityBits]
  exact_mod_cast hle

/-- Below this all is zero. -/
theorem Dyadic.lt_midpoint_zero : 10 ^ (-325 : ℤ) < midpoint 0 := by
  have hlt : 2 ^ 1075 < 10 ^ 325 := by decide +kernel
  rw [midpoint_zero, zpow_neg, zpow_neg]
  exact inv_strictAnti₀ (by positivity) (by exact_mod_cast hlt)

namespace Numeral

/-- The double that is computed for a decimal is the one that its value is rounded to. -/
theorem exists_rounds_nearest (negative : Bool) (d : Decimal) :
    ∃ bits, Dyadic.Rounds d.value bits ∧ nearest negative d = ofMagnitude negative bits := by
  refine ⟨_, ?_, rfl⟩
  split
  · next hsmall =>
      have hpos : (0 : ℚ) < Dyadic.midpoint 0 :=
        lt_of_le_of_lt (by rw [Dyadic.magnitude]; positivity) (Dyadic.magnitude_lt_midpoint 0)
      refine .zero ?_
      by_cases hd : d.digits = 0
      · rwa [Decimal.value, hd, Nat.cast_zero, zero_mul]
      · rw [Bool.or_eq_true, decide_eq_true_eq, decide_eq_true_eq] at hsmall
        have horder : d.exponent + Decimal.digitCount d.digits ≤ -325 := by
          have := hsmall.resolve_left hd
          omega
        calc d.value
            < 10 ^ (d.exponent + Decimal.digitCount d.digits) := d.value_lt_pow
          _ ≤ 10 ^ (-325 : ℤ) := zpow_le_zpow_right₀ (by norm_num) horder
          _ < Dyadic.midpoint 0 := Dyadic.lt_midpoint_zero
  · next hsmall =>
      split
      · next hlarge =>
          have hd : d.digits ≠ 0 := by
            intro hd
            rw [hd] at hsmall
            exact hsmall rfl
          have hcount := Decimal.digitCount_pos d.digits
          refine .infinity ?_
          calc Dyadic.magnitude Dyadic.infinityBits
              ≤ 10 ^ (310 : ℤ) := Dyadic.magnitude_infinityBits_le
            _ ≤ 10 ^ (d.exponent + (Decimal.digitCount d.digits - 1 : ℕ)) :=
                zpow_le_zpow_right₀ (by norm_num) (by omega)
            _ ≤ d.value := Decimal.pow_le_value hd
      · rw [d.value_eq_div]
        exact Dyadic.rounds_nearestBits _ (Nat.pow_pos (by decide))

theorem natural_append (front back : List Char) :
    natural (front ++ back) = 10 ^ back.length * natural front + natural back := by
  have happend := @Nat.ofDigitChars_append 10 front back 0
  have hback := @Nat.ofDigitChars_eq_ofDigitChars_zero back (natural front)
  exact happend.trans hback

theorem natural_replicate_zero (n : ℕ) : natural (List.replicate n '0') = 0 :=
  Nat.ofDigitChars_replicate_zero

/-- The decimal of the digits in front of a point and those behind it. -/
def decimal (whole fraction : List Char) : Decimal :=
  ⟨natural (whole ++ fraction), -fraction.length⟩

theorem toLower_of_isDigit {c : Char} (h : isDigit c = true) : c.toLower = c := by
  rw [isDigit, Bool.and_eq_true, decide_eq_true_eq, decide_eq_true_eq] at h
  have hc : c.val ≤ 57 := h.2
  have hupper : ¬ (65 ≤ c.val ∧ c.val ≤ 90) := by
    rintro ⟨hle, _⟩
    exact absurd (UInt32.le_trans hle hc) (by decide)
  exact dif_neg hupper

/-- Digits around a point are read as a decimal. -/
theorem readFloat_of_digits {s : String} {whole fraction : List Char} (hne : whole ≠ [])
    (hwhole : ∀ c ∈ whole, isDigit c = true) (hfraction : ∀ c ∈ fraction, isDigit c = true)
    (hs : s.toList = whole ++ '.' :: fraction) :
    readFloat s = some (nearest false (decimal whole fraction)) := by
  have hpoint : ∀ c ∈ ('.' :: fraction).head?, isDigit c = false := by
    intro c hc
    cases hc
    decide
  have htake : s.toList.takeWhile isDigit = whole := by
    rw [hs, Token.takeWhile_append_of_head hpoint, List.takeWhile_eq_self_iff.2 hwhole]
  have hdrop : s.toList.dropWhile isDigit = '.' :: fraction := by
    rw [hs, Token.dropWhile_append_of_head hpoint, List.dropWhile_eq_nil_iff.2 hwhole,
      List.nil_append]
  have hdecimal : decimal? s.toList = some (decimal whole fraction) := by
    rw [decimal?, htake, hdrop]
    simp only [List.takeWhile_eq_self_iff.2 hfraction, List.dropWhile_eq_nil_iff.2 hfraction]
    rw [if_neg (by simp [hne]), exponent?, Option.map_some, Int.zero_sub, decimal]
  obtain ⟨c, cs, rfl⟩ := List.exists_cons_of_ne_nil hne
  have hc := hwhole c List.mem_cons_self
  -- No name of a number starts with a digit.
  have hword : ∀ name : String, name.toList.head?.any isDigit = false →
      (String.ofList (s.toList.map Char.toLower) == name) = false := by
    intro name hname
    rw [beq_eq_false_iff_ne]
    rintro rfl
    rw [String.toList_ofList, hs, List.cons_append, List.map_cons, List.head?_cons,
      Option.any_some, toLower_of_isDigit hc, hc] at hname
    cases hname
  rw [readFloat, hs, List.cons_append, splitSign_of_isDigit hc, ← List.cons_append, ← hs]
  dsimp only
  rw [hword "inf" (by decide), hword "infinity" (by decide), hword "nan" (by decide), hdecimal]
  rfl

end Numeral

/-! ## Writing in place -/

namespace FloatStyle

/-- The digits of a decimal with the point where it belongs have its value. -/
theorem exists_inPlace (d : Decimal) : ∃ whole fraction, whole ≠ [] ∧ fraction ≠ [] ∧
    (∀ c ∈ whole ++ fraction, isDigit c = true) ∧ inPlace true d = whole ++ '.' :: fraction ∧
    (Numeral.decimal whole fraction).value = d.value := by
  have hdigits : ∀ c ∈ Nat.toDigits 10 d.digits, isDigit c = true :=
    fun c hc => isDigit_of_mem_toDigits hc
  have hzeros : ∀ n, ∀ c ∈ List.replicate n '0', isDigit c = true := by
    intro n c hc
    rw [List.eq_of_mem_replicate hc]
    decide
  have hnatural := natural_toDigits d.digits
  have hcount : 0 < (Nat.toDigits 10 d.digits).length := Decimal.digitCount_pos d.digits
  rw [inPlace]
  generalize Nat.toDigits 10 d.digits = digits at hdigits hnatural hcount
  split
  · next hpoint =>
      generalize hzero : (-(digits.length + d.exponent)).toNat = zeros
      refine ⟨['0'], List.replicate zeros '0' ++ digits, List.cons_ne_nil _ _, ?_, ?_, rfl, ?_⟩
      · exact List.append_ne_nil_of_right_ne_nil _ (List.ne_nil_of_length_pos hcount)
      · simp only [List.mem_append, List.mem_singleton]
        rintro c (rfl | hc | hc)
        · decide
        · exact hzeros _ c hc
        · exact hdigits c hc
      · rw [Numeral.decimal, ← List.append_assoc, ← List.replicate_one, ← List.replicate_add,
          Numeral.natural_append, Numeral.natural_replicate_zero, Nat.mul_zero, Nat.zero_add,
          hnatural, List.length_append, List.length_replicate]
        congr 2
        omega
  · next hpoint =>
      split
      · next hexponent =>
          obtain ⟨zeros, hzeros'⟩ := Int.eq_ofNat_of_zero_le hexponent
          refine ⟨digits ++ List.replicate d.exponent.toNat '0', ['0'], ?_,
            List.cons_ne_nil _ _, ?_, rfl, ?_⟩
          · exact List.append_ne_nil_of_left_ne_nil (List.ne_nil_of_length_pos hcount) _
          · simp only [List.mem_append, List.mem_singleton]
            rintro c ((hc | hc) | rfl)
            · exact hdigits c hc
            · exact hzeros _ c hc
            · decide
          · rw [hzeros', Int.toNat_natCast, Numeral.decimal, List.append_assoc,
              ← List.replicate_one, ← List.replicate_add, Numeral.natural_append,
              Numeral.natural_replicate_zero, hnatural, List.length_replicate,
              List.length_replicate, Nat.add_zero, Decimal.value, Decimal.value, hzeros',
              zpow_natCast, zpow_neg, zpow_natCast, Nat.pow_add]
            push_cast
            field_simp
      · next hexponent =>
          refine ⟨digits.take (digits.length + d.exponent).toNat,
            digits.drop (digits.length + d.exponent).toNat, ?_, ?_, ?_, rfl, ?_⟩
          · rw [← List.length_pos_iff, List.length_take]
            omega
          · rw [← List.length_pos_iff, List.length_drop]
            omega
          · rwa [List.take_append_drop]
          · rw [Numeral.decimal, List.take_append_drop, hnatural, List.length_drop]
            congr 2
            omega

end FloatStyle

/-! ## The fewest digits -/

namespace Decimal

theorem compareScaled_eq (a : ℕ) (i : ℤ) (n : ℕ) (j : ℤ) :
    compareScaled a i n j = compare ((a : ℚ) * 10 ^ i) (n * 2 ^ j) := by
  have hcommon : (0 : ℚ) < 10 ^ (-i).toNat * 2 ^ (-j).toNat := by positivity
  have hleft : ((a * pow10 i.toNat * pow2 (-j).toNat : ℕ) : ℚ) =
      a * 10 ^ i * (10 ^ (-i).toNat * 2 ^ (-j).toNat) := by
    rw [pow10_eq, pow2_eq]
    push_cast
    rw [pow_toNat (by norm_num) i]
    ring
  have hright : ((n * pow2 j.toNat * pow10 (-i).toNat : ℕ) : ℚ) =
      n * 2 ^ j * (10 ^ (-i).toNat * 2 ^ (-j).toNat) := by
    rw [pow10_eq, pow2_eq]
    push_cast
    rw [pow_toNat (by norm_num) j]
    ring
  rw [compareScaled, ← cmp_eq_compare, ← cmp_eq_compare,
    ← (Nat.strictMono_cast (α := ℚ)).cmp_map_eq, hleft, hright, cmp_mul_pos_right hcommon]

theorem value_strip (fuel digits : ℕ) (exponent : ℤ) :
    (normalize.strip fuel digits exponent).value = (⟨digits, exponent⟩ : Decimal).value := by
  induction fuel generalizing digits exponent with
  | zero => rfl
  | succ fuel ih =>
      rw [normalize.strip]
      split
      · next hzero =>
          simp only [Bool.and_eq_true, beq_iff_eq] at hzero
          have hdigits : digits = digits / 10 * 10 := by omega
          rw [ih, value, value, zpow_add_one₀ (by norm_num)]
          conv_rhs => rw [hdigits]
          push_cast
          ring
      · rfl

theorem value_normalize (d : Decimal) : d.normalize.value = d.value := value_strip _ _ _

end Decimal

namespace Dyadic

variable {k m : ℕ} {d : Decimal}

/-- A midpoint, on a grid four times as fine as that of its binade. -/
theorem midpoint_eq_quarters (hm : hiddenBit ≤ m ∨ k = 0) (hm' : m < 2 * hiddenBit) :
    midpoint (k * hiddenBit + m) = (4 * m + 2 : ℕ) * 2 ^ (k + leastExponent - 2) := by
  rw [midpoint_add hm hm', zpow_sub₀ (by norm_num)]
  push_cast
  ring

theorem even_iff : (k * hiddenBit + m) % 2 = 0 ↔ m % 2 = 0 := by
  have htwo : k * hiddenBit = 2 * (k * (hiddenBit / 2)) := by
    rw [Nat.mul_left_comm]
    rfl
  omega

theorem narrowBelow_iff : narrowBelow ⟨m, k + leastExponent⟩ = true ↔ m = hiddenBit ∧ 0 < k := by
  rw [narrowBelow, Bool.and_eq_true, beq_iff_eq, decide_eq_true_eq]
  dsimp only
  omega

/-- The lower of the two points that candidates for a double are compared with is the
midpoint below it. -/
theorem lower_eq_midpoint (hm : hiddenBit ≤ m ∨ k = 0) (hm' : m < 2 * hiddenBit) {before : ℕ}
    (hbefore : k * hiddenBit + m = before + 1) :
    ((if narrowBelow ⟨m, k + leastExponent⟩ then 4 * m - 1 else 4 * m - 2 : ℕ) : ℚ) *
      2 ^ (k + leastExponent - 2) = midpoint before := by
  have hpos : 0 < hiddenBit := by decide
  by_cases hnarrow : m = hiddenBit ∧ 0 < k
  · -- The double below is in the next lower binade.
    rw [if_pos (narrowBelow_iff.2 hnarrow)]
    obtain ⟨rfl, hk⟩ := hnarrow
    obtain ⟨k, rfl⟩ : ∃ j, k = j + 1 := ⟨k - 1, by omega⟩
    obtain rfl : before = k * hiddenBit + (2 * hiddenBit - 1) := by
      rw [Nat.succ_mul] at hbefore
      omega
    have hexponent : ((k + 1 : ℕ) : ℤ) + leastExponent - 2 = k + leastExponent + -1 := by
      push_cast
      ring
    rw [midpoint_add (.inl (by omega)) (by omega), hexponent, zpow_add₀ (by norm_num),
      Nat.cast_sub (by omega), Nat.cast_sub (by omega)]
    push_cast
    ring
  · rw [if_neg (mt narrowBelow_iff.1 hnarrow)]
    obtain ⟨j, rfl⟩ : ∃ j, m = j + 1 := ⟨m - 1, by rcases hm with h | rfl <;> omega⟩
    obtain rfl : before = k * hiddenBit + j := by omega
    have hlow : 4 * (j + 1) - 2 = 4 * j + 2 := by omega
    rw [midpoint_eq_quarters (by omega) (by omega), hlow]

/-- A candidate that reads back is rounded to the double it is a candidate for. -/
theorem rounds_of_readsBack (hm : hiddenBit ≤ m ∨ k = 0) (hm' : m < 2 * hiddenBit)
    (hbits : k * hiddenBit + m < infinityBits)
    (h : Decimal.readsBack ⟨m, k + leastExponent⟩ d = true) :
    Rounds d.value (k * hiddenBit + m) := by
  rw [Decimal.readsBack] at h
  simp only [Bool.and_eq_true, Bool.or_eq_true, beq_iff_eq, Decimal.compareScaled_eq,
    compare_gt_iff_gt, compare_lt_iff_lt, compare_eq_iff_eq] at h
  obtain ⟨hlower, hupper⟩ := h
  rw [← midpoint_eq_quarters hm hm', ← even_iff (k := k)] at hupper
  refine .of_between hbits (hupper.imp_right And.symm) fun before hbefore hrounds => ?_
  rw [lower_eq_midpoint hm hm' hbefore, ← even_iff (k := k)] at hlower
  rcases hrounds with hlt | ⟨heq, heven⟩
  · rcases hlower with hgt | ⟨_, heq⟩
    · exact absurd hlt (lt_asymm hgt)
    · exact absurd heq hlt.ne
  · -- Of two neighbours only one is even.
    rcases hlower with hgt | ⟨heven', _⟩
    · exact absurd heq hgt.ne'
    · omega

theorem readsBack_of_onGrid {x : Dyadic} {e : ℤ} (h : Decimal.onGrid x e = some d) :
    Decimal.readsBack x d = true := by
  rw [Decimal.onGrid] at h
  split at h
  · next hlower hupper =>
      split at h
      · cases h
        exact hlower
      · cases h
        exact hupper
  · next hlower _ =>
      cases h
      exact hlower
  · next _ hupper =>
      cases h
      exact hupper
  · cases h

theorem value_exact (x : Dyadic) : (Decimal.exact x).value = x.mantissa * 2 ^ x.exponent := by
  rw [Decimal.exact, Decimal.value]
  split
  · next hexponent =>
      obtain ⟨n, hn⟩ := Int.eq_ofNat_of_zero_le hexponent
      dsimp only
      rw [hn, Int.toNat_natCast, pow2_eq, zpow_zero, mul_one, zpow_natCast]
      push_cast
      rfl
  · next hexponent =>
      obtain ⟨n, hn⟩ := Int.eq_ofNat_of_zero_le (Int.neg_nonneg.2 (Int.not_le.1 hexponent).le)
      obtain hexponent : x.exponent = -n := by omega
      have hten : (10 : ℚ) ^ n = 2 ^ n * 5 ^ n := by rw [← mul_pow]; norm_num
      have hfive : Nat.pow 5 n = 5 ^ n := rfl
      dsimp only
      rw [hexponent, neg_neg, Int.toNat_natCast, zpow_neg, zpow_neg, zpow_natCast, zpow_natCast,
        hten, hfive]
      push_cast
      field_simp

/-- The fewest digits of a double are rounded to that double. -/
theorem rounds_shortest (hm : hiddenBit ≤ m ∨ k = 0) (hm' : m < 2 * hiddenBit)
    (hbits : k * hiddenBit + m < infinityBits) :
    Rounds (Decimal.shortest ⟨m, k + leastExponent⟩).value (k * hiddenBit + m) := by
  have hexact := Rounds.magnitude hbits
  rw [magnitude_add hm hm'.le] at hexact
  rw [Decimal.shortest]
  dsimp only
  split
  · next hzero =>
      have hvalue : (⟨0, 0⟩ : Decimal).value = m * 2 ^ (k + leastExponent) := by
        rw [Decimal.value, hzero, Nat.cast_zero, zero_mul, zero_mul]
      rw [hvalue]
      exact hexact
  · rw [Decimal.value_normalize]
    generalize hfound : (List.range 17).findSome? _ = found
    cases found with
    | none =>
        rw [Option.getD_none, value_exact]
        exact hexact
    | some d =>
        obtain ⟨n, _, hn⟩ := List.exists_of_findSome?_eq_some hfound
        exact rounds_of_readsBack hm hm' hbits (readsBack_of_onGrid hn)

end Dyadic

end Lindenmayer
