import Mathlib

/-!
# How doubles compare and add

A double is a sign, a mantissa and an exponent, or one of a few values that are
none of that, and it is kept in 64 bits. Two facts about doubles are used where
numbers are drawn.

Comparison is a total order but for NaN, to which nothing compares. Each other
double has a rank in a linear order, and to compare doubles is to compare their
ranks.

Arithmetic rounds, but what it makes of positive numbers is positive, and so no
NaN. A zero with a positive sign counts among them, and so does the infinity
that a large sum becomes. Signs survive packing: a result that is too large for
its bits becomes an infinity, but one of the same sign.
-/

namespace Lindenmayer.Double

open Float.Model Float.Model.UnpackedFloat

/-! ## Order -/

/-- The rank of a double: first by what it is, then by the exponent, then by the
mantissa. -/
def rankOf : UnpackedFloat → ℤ ×ₗ ℤ ×ₗ ℤ
  | .infinity .negative => toLex (-2, toLex (0, 0))
  | .finite .negative m e _ => toLex (-1, toLex (-e, -m))
  | .zero _ => toLex (0, toLex (0, 0))
  | .finite .positive m e _ => toLex (1, toLex (e, m))
  | .infinity .positive => toLex (2, toLex (0, 0))
  | .notANumber => toLex (3, toLex (0, 0))

def rank (x : Float) : ℤ ×ₗ ℤ ×ₗ ℤ := rankOf x.toModel.unpack

theorem compare_natCast (m n : ℕ) : compare (m : ℤ) n = compare m n := by
  rw [← cmp_eq_compare, ← cmp_eq_compare]
  exact StrictMono.cmp_map_eq (f := fun n : ℕ => (n : ℤ)) (fun _ _ => Int.ofNat_lt.2) m n

theorem compare_neg (a b : ℤ) : compare (-a) (-b) = (compare a b).swap := by
  rw [← cmp_eq_compare, ← cmp_eq_compare, cmp_swap]
  exact StrictAnti.cmp_map_eq (f := fun n : ℤ => -n) (fun _ _ => Int.neg_lt_neg) a b

theorem compare_eq_compare_rankOf {a b : UnpackedFloat} (ha : a.isNaN = false)
    (hb : b.isNaN = false) : a.compare b = some (compare (rankOf a) (rankOf b)) := by
  match a, b with
  | .notANumber, _ => cases ha
  | _, .notANumber => cases hb
  | .infinity s, .infinity s' => cases s <;> cases s' <;> rfl
  | .infinity s, .zero s' => cases s <;> cases s' <;> rfl
  | .infinity s, .finite s' _ _ _ => cases s <;> cases s' <;> rfl
  | .zero s, .infinity s' => cases s <;> cases s' <;> rfl
  | .zero s, .zero s' => cases s <;> cases s' <;> rfl
  | .zero s, .finite s' _ _ _ => cases s <;> cases s' <;> rfl
  | .finite s _ _ _, .infinity s' => cases s <;> cases s' <;> rfl
  | .finite s _ _ _, .zero s' => cases s <;> cases s' <;> rfl
  | .finite .negative _ _ _, .finite .positive _ _ _ => rfl
  | .finite .positive _ _ _, .finite .negative _ _ _ => rfl
  | .finite .positive m e _, .finite .positive m' e' _ =>
      have hrank : compare (toLex ((1 : ℤ), toLex (e, (m : ℤ)))) (toLex (1, toLex (e', (m' : ℤ)))) =
          (compare e e').then (compare (m : ℤ) m') := rfl
      rw [rankOf, rankOf, hrank, compare_natCast]
      rfl
  | .finite .negative m e _, .finite .negative m' e' _ =>
      have hrank : compare (toLex ((-1 : ℤ), toLex (-e, -(m : ℤ))))
          (toLex (-1, toLex (-e', -(m' : ℤ)))) =
          (compare (-e) (-e')).then (compare (-m : ℤ) (-m')) := rfl
      rw [rankOf, rankOf, hrank, compare_neg, compare_neg, compare_natCast, ← Ordering.swap_then]
      rfl

variable {x y z : Float}

theorem lt_iff (hx : x.isNaN = false) (hy : y.isNaN = false) : x < y ↔ rank x < rank y := by
  have hlt : x < y ↔ (x.toModel.unpack.compare y.toModel.unpack == some .lt) = true :=
    decide_eq_true_iff
  rw [hlt, compare_eq_compare_rankOf hx hy, beq_iff_eq, Option.some_inj, compare_lt_iff_lt]
  rfl

theorem le_iff (hx : x.isNaN = false) (hy : y.isNaN = false) : x ≤ y ↔ rank x ≤ rank y := by
  have hle : x ≤ y ↔ (x.toModel.unpack.compare y.toModel.unpack).any (·.isLE) = true :=
    decide_eq_true_iff
  rw [hle, compare_eq_compare_rankOf hx hy, Option.any_some, Ordering.isLE_iff_ne_gt]
  exact compare_le_iff_le

theorem isNaN_of_le (h : x ≤ y) : x.isNaN = false ∧ y.isNaN = false := by
  have hle : (x.toModel.unpack.compare y.toModel.unpack).any (·.isLE) = true :=
    of_decide_eq_true h
  change x.toModel.unpack.isNaN = false ∧ y.toModel.unpack.isNaN = false
  cases hx : x.toModel.unpack with
  | notANumber =>
      rw [hx] at hle
      cases hle
  | _ =>
      cases hy : y.toModel.unpack with
      | notANumber =>
          rw [hx, hy] at hle
          cases hle
      | _ => exact ⟨rfl, rfl⟩

theorem le_of_not_lt (hx : x.isNaN = false) (hy : y.isNaN = false) (h : ¬ x < y) : y ≤ x := by
  rw [lt_iff hx hy, not_lt] at h
  exact (le_iff hy hx).2 h

theorem not_lt_of_le (h : y ≤ x) : ¬ x < y := by
  obtain ⟨hy, hx⟩ := isNaN_of_le h
  rw [lt_iff hx hy, not_lt]
  exact (le_iff hy hx).1 h

theorem le_refl (hx : x.isNaN = false) : x ≤ x := (le_iff hx hx).2 le_rfl

theorem le_trans (hxy : x ≤ y) (hyz : y ≤ z) : x ≤ z := by
  obtain ⟨hx, hy⟩ := isNaN_of_le hxy
  obtain ⟨-, hz⟩ := isNaN_of_le hyz
  rw [le_iff hx hy] at hxy
  rw [le_iff hy hz] at hyz
  exact (le_iff hx hz).2 (hxy.trans hyz)

/-! ## Signs -/

/-- The sign of a double; NaN has none. -/
def signOf? : UnpackedFloat → Option Sign
  | .notANumber => none
  | .infinity s => some s
  | .zero s => some s
  | .finite s _ _ _ => some s

/-- Whether a double bears a positive sign. -/
def IsPositive (x : Float) : Prop := signOf? x.toModel.unpack = some .positive

theorem IsPositive.isNaN (h : IsPositive x) : x.isNaN = false := by
  change x.toModel.unpack.isNaN = false
  rw [IsPositive] at h
  cases hx : x.toModel.unpack with
  | notANumber =>
      rw [hx] at h
      cases h
  | _ => rfl

theorem unpackSign_packComponents {spec : Format} {sign : Sign}
    {exponent : BitVec spec.exponentBits} {mantissa : BitVec spec.mantissaBitsWithoutImplicit} :
    Sign.ofBitVec (unpackSign (packComponents spec sign exponent mantissa)) = sign := by
  have htop : unpackSign (packComponents spec sign exponent mantissa) = sign.toBitVec := by
    rw [unpackSign, packComponents]
    ext i hi
    obtain rfl : i = 0 := by omega
    simp [BitVec.getElem_append, BitVec.getLsbD_append]
  rw [htop]
  cases sign <;> rfl

/-- Bits that are not those of a NaN have the sign that was packed. -/
theorem signOf?_packComponents {spec : Format} {sign : Sign} {exponent : BitVec spec.exponentBits}
    {mantissa : BitVec spec.mantissaBitsWithoutImplicit} (h : exponent = -1#_ → mantissa = 0#_) :
    signOf? (UnpackedFloat.unpack spec (packComponents spec sign exponent mantissa)) =
      some sign := by
  rw [UnpackedFloat.unpack]
  simp only [unpackExponent_packComponents, unpackMantissa_packComponents,
    unpackSign_packComponents]
  split
  · next hinf => rw [if_pos (h hinf), signOf?]
  · split
    · split
      · rfl
      · rfl
    · rfl

theorem signOf?_unpack_pack (u : UnpackedFloat) :
    signOf? (UnpackedFloat.unpack .binary64 (UnpackedFloat.pack .binary64 u)) = signOf? u := by
  cases u with
  | notANumber => rfl
  | infinity s => exact signOf?_packComponents fun _ => rfl
  | zero s => exact signOf?_packComponents fun _ => rfl
  | finite s m e hm =>
      rw [UnpackedFloat.pack]
      dsimp only
      split
      · exact signOf?_packComponents fun _ => rfl
      · next hexponent =>
          split
          · -- An exponent of all ones would have been an infinity.
            refine signOf?_packComponents fun hinf => ?_
            have hones : (-BitVec.ofNat Format.binary64.exponentBits 1).toNat = 2 ^ 11 - 1 := rfl
            have hbits := congrArg BitVec.toNat hinf
            rw [hones, BitVec.toNat_ofNat, Nat.mod_eq_of_lt (by omega)] at hbits
            omega
          · exact signOf?_packComponents fun hinf => absurd hinf (by decide)

theorem signOf?_roundWithAccuracy {spec : Format} {sign : Sign} {m : ℕ} {e : ℤ}
    {accuracy : Accuracy} : signOf? (roundWithAccuracy spec sign m e accuracy) = some sign := by
  rw [roundWithAccuracy]
  dsimp only
  split
  · rfl
  · rfl

theorem signOf?_normalize {spec : Format} {m e : ℤ} (hm : 0 ≤ m) :
    signOf? (UnpackedFloat.normalize spec m e .positive) = some .positive := by
  rw [UnpackedFloat.normalize]
  split
  · next hlt => exact absurd (compare_lt_iff_lt.1 hlt) (Int.not_lt.2 hm)
  · rfl
  · exact signOf?_roundWithAccuracy

theorem eq_of_signOf? {a : UnpackedFloat} {sign : Sign} (h : signOf? a = some sign) :
    a = .infinity sign ∨ a = .zero sign ∨ ∃ m e hm, a = .finite sign m e hm := by
  cases a with
  | notANumber => cases h
  | infinity s => exact Or.inl (by rw [Option.some.inj h])
  | zero s => exact Or.inr (Or.inl (by rw [Option.some.inj h]))
  | finite s m e hm => exact Or.inr (Or.inr ⟨m, e, hm, by rw [Option.some.inj h]⟩)

theorem signOf?_add {spec : Format} {a b : UnpackedFloat} (ha : signOf? a = some .positive)
    (hb : signOf? b = some .positive) : signOf? (UnpackedFloat.add spec a b) = some .positive := by
  rcases eq_of_signOf? ha with rfl | rfl | ⟨m, e, hm, rfl⟩ <;>
    rcases eq_of_signOf? hb with rfl | rfl | ⟨m', e', hm', rfl⟩
  case inr.inr.inr.inr =>
    exact signOf?_normalize (Int.add_nonneg (Int.natCast_nonneg _) (Int.natCast_nonneg _))
  all_goals rfl

/-- A positive double times a finite one is no NaN, as it might be if the other were
an infinity. -/
theorem signOf?_mul_finite {spec : Format} {a : UnpackedFloat} {m : ℕ} {e : ℤ} {hm : 0 < m}
    (ha : signOf? a = some .positive) :
    signOf? (UnpackedFloat.mul spec a (.finite .positive m e hm)) = some .positive := by
  rcases eq_of_signOf? ha with rfl | rfl | ⟨m', e', hm', rfl⟩
  · rfl
  · rfl
  · exact signOf?_roundWithAccuracy

theorem signOf?_finite_div {spec : Format} {a : UnpackedFloat} {m : ℕ} {e : ℤ} {hm : 0 < m}
    (ha : signOf? a = some .positive) :
    signOf? (UnpackedFloat.div spec (.finite .positive m e hm) a) = some .positive := by
  rcases eq_of_signOf? ha with rfl | rfl | ⟨m', e', hm', rfl⟩
  · rfl
  · rfl
  · exact signOf?_roundWithAccuracy

theorem signOf?_ofScientific {spec : Format} {m : ℕ} {e : ℤ} :
    signOf? (UnpackedFloat.ofScientific spec m e) = some .positive := by
  rw [UnpackedFloat.ofScientific]
  split
  · rfl
  · split
    · rfl
    · split
      · rfl
      · split
        · exact signOf?_mul_finite rfl
        · exact signOf?_finite_div rfl

/-- Positive doubles add up to a positive one. -/
theorem IsPositive.add (hx : IsPositive x) (hy : IsPositive y) : IsPositive (x + y) :=
  (signOf?_unpack_pack _).trans (signOf?_add hx hy)

theorem isPositive_toFloat (w : UInt64) : IsPositive w.toFloat :=
  (signOf?_unpack_pack _).trans (signOf?_normalize (Int.natCast_nonneg _))

theorem isPositive_ofNat (n : ℕ) : IsPositive (Float.ofNat n) := by
  change IsPositive (Float.ofScientific n false 0)
  rw [Float.ofScientific]
  split
  · rw [if_neg (by decide)]
    have hone : Float.exactlyRepresentablePowersOfTen[0].toModel.unpack =
      .finite .positive (2 ^ 52) (-52) (by decide) := rfl
    refine (signOf?_unpack_pack _).trans ?_
    rw [hone]
    exact signOf?_mul_finite (isPositive_toFloat _)
  · exact (signOf?_unpack_pack _).trans signOf?_ofScientific

/-- The reciprocal of a positive double is one, even that of zero. -/
theorem IsPositive.one_div (hx : IsPositive x) : IsPositive (1.0 / x) :=
  (signOf?_unpack_pack _).trans (signOf?_finite_div hx)

end Lindenmayer.Double
