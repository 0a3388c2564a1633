import Lindenmayer.Decimal.Reading
import Lindenmayer.Proofs.Doubles
import Lindenmayer.Proofs.Rounding

/-!
# Doubles and their bits

A double without a sign is the same as its pattern of bits, up to that of infinity: the
patterns are kept as they are (`toNat_toBits_ofMagnitude`), of those none is a NaN, and
doubles compare as their patterns do (`ofMagnitude_lt_iff`).

The mantissa and the exponent of such a double are found in two places, in the library's
model of a double and among the parts that its text is made of. Both are those of the binade
that the pattern is from (`unpack_add`, `ofBits_add`).
-/

namespace Lindenmayer.Double

open Float.Model Float.Model.UnpackedFloat
open Lindenmayer.Dyadic (hiddenBit hiddenBit_eq infinityBits infinityBits_eq leastExponent)
open Lindenmayer.Numeral (ofMagnitude)

variable {bits bits' k m : ℕ}

/-! ## Patterns -/

theorem toNat_ofNat (h : bits ≤ infinityBits) : (UInt64.ofNat bits).toBitVec.toNat = bits := by
  rw [UInt64.toNat_toBitVec, UInt64.toNat_ofNat']
  exact Nat.mod_eq_of_lt (h.trans_lt (by decide))

theorem toNat_unpackExponent (h : bits ≤ infinityBits) :
    (@unpackExponent .binary64 (UInt64.ofNat bits).toBitVec).toNat =
      bits / hiddenBit := by
  have hfield : bits / hiddenBit ≤ infinityBits / hiddenBit := Nat.div_le_div_right h
  rw [unpackExponent, BitVec.toNat_cast, BitVec.extractLsb_toNat, toNat_ofNat h,
    Nat.shiftRight_eq_div_pow, hiddenBit_eq]
  exact Nat.mod_eq_of_lt (hfield.trans_lt (by decide))

theorem toNat_unpackMantissa (h : bits ≤ infinityBits) :
    (@unpackMantissa .binary64 (UInt64.ofNat bits).toBitVec).toNat =
      bits % hiddenBit := by
  rw [unpackMantissa, BitVec.toNat_cast, BitVec.extractLsb_toNat, toNat_ofNat h,
    Nat.shiftRight_zero, hiddenBit_eq]
  rfl

theorem unpackSign_eq (h : bits ≤ infinityBits) :
    Sign.ofBitVec (@unpackSign .binary64 (UInt64.ofNat bits).toBitVec) = .positive := by
  have hlt : bits / 2 ^ 63 = 0 := Nat.div_eq_of_lt (h.trans_lt (by decide))
  have hsign : @unpackSign .binary64 (UInt64.ofNat bits).toBitVec = 0#1 := by
    apply BitVec.eq_of_toNat_eq
    rw [unpackSign, BitVec.toNat_cast, BitVec.extractLsb_toNat, toNat_ofNat h,
      Nat.shiftRight_eq_div_pow]
    change bits / 2 ^ 63 % 2 = 0
    rw [hlt]
  rw [hsign]
  rfl

/-- No pattern up to that of infinity is one of the many of NaN. -/
theorem valid (h : bits ≤ infinityBits) : Format.binary64.Valid (UInt64.ofNat bits).toBitVec := by
  refine ⟨fun hexponent hmantissa => absurd ?_ hmantissa⟩
  have hfield : bits / hiddenBit = 2047 := by
    rw [← toNat_unpackExponent h, hexponent]
    rfl
  apply BitVec.eq_of_toNat_eq
  rw [toNat_unpackMantissa h]
  change bits % hiddenBit = 0
  rw [hiddenBit_eq] at hfield ⊢
  rw [infinityBits_eq, hiddenBit_eq] at h
  omega

theorem toModel_ofMagnitude (h : bits ≤ infinityBits) :
    (ofMagnitude false bits).toModel = ⟨UInt64.ofNat bits, valid h⟩ :=
  congrArg Float.toModel (Float.ofBits_toBits ⟨⟨UInt64.ofNat bits, valid h⟩⟩)

theorem toNat_toBits_ofMagnitude (h : bits ≤ infinityBits) :
    (ofMagnitude false bits).toBits.toNat = bits := by
  rw [Float.toBits, toModel_ofMagnitude h]
  exact toNat_ofNat h

theorem ofFloat_ofMagnitude (h : bits ≤ infinityBits) :
    FloatParts.ofFloat (ofMagnitude false bits) = FloatParts.ofBits bits := by
  rw [FloatParts.ofFloat, toNat_toBits_ofMagnitude h]

/-! ## Mantissas and exponents -/

/-- The fields of a pattern from within a binade. -/
theorem fields_cases (hm : hiddenBit ≤ m ∨ k = 0) (hm' : m < 2 * hiddenBit) :
    ((k * hiddenBit + m) / hiddenBit = 0 ∧ (k * hiddenBit + m) % hiddenBit = m ∧ k = 0) ∨
      ((k * hiddenBit + m) / hiddenBit = k + 1 ∧
        hiddenBit + (k * hiddenBit + m) % hiddenBit = m) := by
  rcases Nat.lt_or_ge m hiddenBit with hlt | hge
  · obtain rfl : k = 0 := hm.resolve_left (Nat.not_le.2 hlt)
    rw [Nat.zero_mul, Nat.zero_add]
    exact .inl ⟨Nat.div_eq_of_lt hlt, Nat.mod_eq_of_lt hlt, rfl⟩
  · have hbits : k * hiddenBit + m = hiddenBit * (k + 1) + (m - hiddenBit) := by
      rw [Nat.mul_succ, Nat.mul_comm]
      omega
    rw [hbits, Nat.mul_add_div (by decide), Nat.mul_add_mod, Nat.div_eq_of_lt (by omega),
      Nat.mod_eq_of_lt (by omega)]
    exact .inr ⟨rfl, by omega⟩

theorem ofBits_add (hm : hiddenBit ≤ m ∨ k = 0) (hm' : m < 2 * hiddenBit)
    (hbits : k * hiddenBit + m < infinityBits) :
    FloatParts.ofBits (k * hiddenBit + m) = .finite false ⟨m, k + leastExponent⟩ := by
  have hsign : (k * hiddenBit + m) / Dyadic.signBit = 0 :=
    Nat.div_eq_of_lt (hbits.trans (by decide))
  have hfield : (k * hiddenBit + m) / hiddenBit < 2047 := by
    rwa [Nat.div_lt_iff_lt_mul (by decide), ← infinityBits_eq]
  have hfield' : (k * hiddenBit + m) / hiddenBit % 2048 = (k * hiddenBit + m) / hiddenBit :=
    Nat.mod_eq_of_lt (by omega)
  rw [FloatParts.ofBits, hsign, hfield']
  rcases fields_cases hm hm' with ⟨hzero, hmod, rfl⟩ | ⟨hsucc, hmod⟩
  · rw [hzero, hmod]
    rfl
  · rw [hsucc] at hfield ⊢
    rw [hmod, if_neg (by rw [beq_iff_eq]; omega), if_neg (by rw [beq_iff_eq]; omega)]
    have hexponent : ((k + 1 : ℕ) : ℤ) - 1075 = k + leastExponent := by
      rw [leastExponent]
      omega
    rw [hexponent]
    rfl

theorem unpack_add (hm : hiddenBit ≤ m ∨ k = 0) (hm' : m < 2 * hiddenBit) (hpos : 0 < m)
    (hbits : k * hiddenBit + m < infinityBits) :
    (ofMagnitude false (k * hiddenBit + m)).toModel.unpack =
      .finite .positive m (k + leastExponent) hpos := by
  have hfield : (k * hiddenBit + m) / hiddenBit < 2047 := by
    rwa [Nat.div_lt_iff_lt_mul (by decide), ← infinityBits_eq]
  have hexponent := toNat_unpackExponent hbits.le
  have hmantissa := toNat_unpackMantissa hbits.le
  have hsign := unpackSign_eq hbits.le
  rw [toModel_ofMagnitude hbits.le, Float.Model.unpack, UnpackedFloat.unpack]
  dsimp only
  have hcases := fields_cases hm hm'
  rw [← hexponent, ← hmantissa] at hcases
  rw [hsign]
  split
  · next heq =>
      rw [← hexponent, heq] at hfield
      exact absurd hfield (by decide)
  · split
    · next heq =>
        rw [heq] at hcases
        obtain ⟨-, hm, rfl⟩ := hcases.resolve_right fun h => absurd h.1.symm (Nat.succ_ne_zero k)
        split
        · next hzero =>
            rw [hzero] at hm
            exact absurd hm hpos.ne
        · rw [finite.injEq]
          refine ⟨rfl, hm, ?_⟩
          rw [heq]
          rfl
    · next hne =>
        obtain ⟨he, hm⟩ := hcases.resolve_left fun h => hne (BitVec.eq_of_toNat_eq h.1)
        rw [finite.injEq]
        refine ⟨rfl, ?_, ?_⟩
        · rw [BitVec.toNat_append, ← Nat.shiftLeft_add_eq_or_of_lt (BitVec.isLt _)]
          exact hm
        · rw [he, leastExponent]
          change ((k + 1 : ℕ) : ℤ) - 1075 = k + -1074
          omega

theorem unpack_zero : (ofMagnitude false 0).toModel.unpack = .zero .positive := by
  rw [toModel_ofMagnitude (by decide)]
  rfl

theorem unpack_infinityBits :
    (ofMagnitude false infinityBits).toModel.unpack = .infinity .positive := by
  rw [toModel_ofMagnitude le_rfl]
  rfl

/-- The doubles without a sign. -/
theorem unpack_cases (h : bits ≤ infinityBits) :
    (bits = 0 ∧ (ofMagnitude false bits).toModel.unpack = .zero .positive) ∨
    (bits = infinityBits ∧ (ofMagnitude false bits).toModel.unpack = .infinity .positive) ∨
    bits < infinityBits ∧ ∃ k m hpos, bits = k * hiddenBit + m ∧ (hiddenBit ≤ m ∨ k = 0) ∧
      m < 2 * hiddenBit ∧
      (ofMagnitude false bits).toModel.unpack = .finite .positive m (k + leastExponent) hpos := by
  rcases h.eq_or_lt with rfl | hlt
  · exact .inr (.inl ⟨rfl, unpack_infinityBits⟩)
  · obtain ⟨k, m, rfl, hm, hm'⟩ := Dyadic.exists_binade bits
    rcases Nat.eq_zero_or_pos m with rfl | hpos
    · obtain rfl : k = 0 := hm.resolve_left (by decide)
      exact .inl ⟨rfl, unpack_zero⟩
    · exact .inr (.inr ⟨hlt, k, m, hpos, rfl, hm, hm', unpack_add hm hm' hpos hlt⟩)

/-! ## Order -/

theorem eq_ofMagnitude_iff (h : bits ≤ infinityBits) (h' : bits' ≤ infinityBits) :
    ofMagnitude false bits = ofMagnitude false bits' ↔ bits = bits' := by
  constructor
  · intro heq
    rw [← toNat_toBits_ofMagnitude h, heq, toNat_toBits_ofMagnitude h']
  · rintro rfl
    rfl

theorem isNaN_ofMagnitude (h : bits ≤ infinityBits) : (ofMagnitude false bits).isNaN = false := by
  change (ofMagnitude false bits).toModel.unpack.isNaN = false
  rcases unpack_cases h with ⟨-, hu⟩ | ⟨-, hu⟩ | ⟨-, _, _, _, -, -, -, hu⟩
  · rw [hu]
    rfl
  · rw [hu]
    rfl
  · rw [hu]
    rfl

theorem isFinite_ofMagnitude (h : bits ≤ infinityBits) :
    (ofMagnitude false bits).isFinite = true ↔ bits < infinityBits := by
  change (ofMagnitude false bits).toModel.unpack.isFinite = true ↔ _
  rcases unpack_cases h with ⟨rfl, hu⟩ | ⟨rfl, hu⟩ | ⟨hlt, _, _, _, -, -, -, hu⟩
  · rw [hu]
    exact ⟨fun _ => by decide, fun _ => rfl⟩
  · rw [hu]
    exact ⟨nofun, fun hlt => absurd hlt (Nat.lt_irrefl _)⟩
  · rw [hu]
    exact ⟨fun _ => hlt, fun _ => rfl⟩

/-- Doubles are ranked as their patterns are ordered. -/
theorem rank_ofMagnitude_lt (hlt : bits < bits') (h' : bits' ≤ infinityBits) :
    rank (ofMagnitude false bits) < rank (ofMagnitude false bits') := by
  rw [rank, rank]
  rcases unpack_cases h' with ⟨rfl, -⟩ | ⟨rfl, hu'⟩ | ⟨-, k', m', hpos', rfl, hn, hn', hu'⟩
  · exact absurd hlt (Nat.not_lt_zero _)
  · rw [hu']
    rcases unpack_cases hlt.le with ⟨-, hu⟩ | ⟨rfl, -⟩ | ⟨-, k, m, hpos, -, -, -, hu⟩
    · rw [hu]
      decide
    · exact absurd hlt (Nat.lt_irrefl _)
    · rw [hu, rankOf, rankOf, Prod.Lex.toLex_lt_toLex]
      exact .inl one_lt_two
  · rw [hu']
    rcases unpack_cases (hlt.le.trans h') with
      ⟨-, hu⟩ | ⟨rfl, -⟩ | ⟨-, k, m, hpos, rfl, hm, hm', hu⟩
    · rw [hu, rankOf, rankOf, Prod.Lex.toLex_lt_toLex]
      exact .inl zero_lt_one
    · exact absurd hlt (Nat.not_lt.2 h')
    · rw [hu, rankOf, rankOf, Prod.Lex.toLex_lt_toLex, Prod.Lex.toLex_lt_toLex]
      refine .inr ⟨rfl, ?_⟩
      rcases Nat.lt_trichotomy k k' with hk | rfl | hk
      · exact .inl (Int.add_lt_add_right (Int.ofNat_lt.2 hk) _)
      · exact .inr ⟨rfl, Int.ofNat_lt.2 (Nat.lt_of_add_lt_add_left hlt)⟩
      · -- The lower binade ends where the higher one starts.
        have hge : hiddenBit ≤ m := hm.resolve_right (Nat.ne_zero_of_lt hk)
        have hstart : (k' + 1) * hiddenBit ≤ k * hiddenBit := Nat.mul_le_mul_right _ hk
        rw [Nat.succ_mul] at hstart
        omega

theorem ofMagnitude_lt_iff (h : bits ≤ infinityBits) (h' : bits' ≤ infinityBits) :
    ofMagnitude false bits < ofMagnitude false bits' ↔ bits < bits' := by
  rw [lt_iff (isNaN_ofMagnitude h) (isNaN_ofMagnitude h')]
  refine ⟨fun hlt => Nat.lt_of_not_le fun hle => ?_, fun hlt => rank_ofMagnitude_lt hlt h'⟩
  rcases hle.eq_or_lt with rfl | hlt'
  · exact lt_irrefl _ hlt
  · exact lt_asymm hlt (rank_ofMagnitude_lt hlt' h)

theorem ofMagnitude_le_iff (h : bits ≤ infinityBits) (h' : bits' ≤ infinityBits) :
    ofMagnitude false bits ≤ ofMagnitude false bits' ↔ bits ≤ bits' := by
  rw [le_iff (isNaN_ofMagnitude h) (isNaN_ofMagnitude h'), ← not_lt,
    ← lt_iff (isNaN_ofMagnitude h') (isNaN_ofMagnitude h), ofMagnitude_lt_iff h' h, Nat.not_lt]

end Lindenmayer.Double
