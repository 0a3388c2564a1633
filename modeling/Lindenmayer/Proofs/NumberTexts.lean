import Lindenmayer.Proofs.NumberTokens

/-!
# Numbers that are printed as literals

An integer in a tree that was read is printed as its literal. A double is printed with an
exponent if it is small or large, or as the name of an infinity, and none of this is a
literal; but if it has its digits in place, then these are a literal, and for this very
double. Which doubles have their digits in place is a matter of the powers of ten that
their fewest digits are between, and since a double and its fewest digits are rounded
alike, it is as well one of the doubles nearest to these powers
(`readsBack_float_iff`).
-/

namespace Lindenmayer

open Lindenmayer.Text (isDigit)
open Lindenmayer.Numeral (ofMagnitude)
open Lindenmayer.Dyadic (hiddenBit infinityBits leastExponent Rounds)

variable {bits bits' : ℕ}

/-! ## The digits of a double -/

/-- The fewest digits of the double that a pattern encodes. -/
def Decimal.ofBits (bits : ℕ) : Decimal :=
  match FloatParts.ofBits bits with
  | .finite _ d => shortest d
  | _ => ⟨0, 0⟩

theorem rounds_ofBits (h : bits < infinityBits) : Rounds (Decimal.ofBits bits).value bits := by
  obtain ⟨k, m, rfl, hm, hm'⟩ := Dyadic.exists_binade bits
  rw [Decimal.ofBits, Double.ofBits_add hm hm' h]
  exact Dyadic.rounds_shortest hm hm' h

theorem text_ofMagnitude (h : bits < infinityBits) :
    (Number.float (ofMagnitude false bits)).text.toList =
      FloatStyle.canonical.render (Decimal.ofBits bits) := by
  obtain ⟨k, m, rfl, hm, hm'⟩ := Dyadic.exists_binade bits
  rw [Number.text, FloatStyle.write, Double.ofFloat_ofMagnitude h.le, Decimal.ofBits,
    Double.ofBits_add hm hm' h]
  exact String.toList_ofList

theorem digits_ofBits_eq_zero_iff (h : bits < infinityBits) :
    (Decimal.ofBits bits).digits = 0 ↔ bits = 0 := by
  constructor
  · intro hzero
    have hrounds := rounds_ofBits h
    rw [Decimal.value, hzero, Nat.cast_zero, zero_mul] at hrounds
    refine hrounds.unique (.zero ?_)
    exact lt_of_le_of_lt (by rw [Dyadic.magnitude]; positivity) (Dyadic.magnitude_lt_midpoint 0)
  · rintro rfl
    rfl

/-- If a power of ten is the fewest digits of a double, then those not below it are the
fewest digits of the doubles from there on. -/
theorem pow_le_value_ofBits_iff {n : ℤ} (h : bits < infinityBits) (h' : bits' < infinityBits)
    (hpow : (Decimal.ofBits bits').value = 10 ^ n) :
    10 ^ n ≤ (Decimal.ofBits bits).value ↔ bits' ≤ bits := by
  have hrounds := rounds_ofBits h
  have hrounds' := rounds_ofBits h'
  rw [hpow] at hrounds'
  constructor
  · exact hrounds'.mono hrounds
  · intro hle
    refine le_of_not_gt fun hlt => ?_
    obtain rfl := Nat.le_antisymm hle (hrounds.mono hrounds' hlt.le)
    exact hlt.ne hpow

/-- The pattern of `1e-4`. -/
def tenThousandthBits : ℕ := 0x3F1A36E2EB1C432D

/-- The pattern of `1e16`. -/
def tenQuadrillionBits : ℕ := 0x4341C37937E08000

/-- The doubles with digits in place are zero and those from `1e-4` up to `1e16`. -/
theorem render_ofBits (h : bits < infinityBits) :
    FloatStyle.canonical.render (Decimal.ofBits bits) =
      if bits = 0 ∨ tenThousandthBits ≤ bits ∧ bits < tenQuadrillionBits then
        FloatStyle.inPlace true (Decimal.ofBits bits)
      else FloatStyle.scientific (Decimal.ofBits bits) := by
  have hlow : (Decimal.ofBits tenThousandthBits).value = 10 ^ (-4 : ℤ) := by
    rw [show Decimal.ofBits tenThousandthBits = ⟨1, -4⟩ by decide +kernel, Decimal.value,
      Nat.cast_one, one_mul]
  have hhigh : (Decimal.ofBits tenQuadrillionBits).value = 10 ^ (16 : ℤ) := by
    rw [show Decimal.ofBits tenQuadrillionBits = ⟨1, 16⟩ by decide +kernel, Decimal.value,
      Nat.cast_one, one_mul]
  rw [FloatStyle.render]
  refine if_congr ?_ rfl rfl
  rw [Bool.or_eq_true, decide_eq_true_eq, digits_ofBits_eq_zero_iff h]
  by_cases hzero : bits = 0
  · exact iff_of_true (.inl hzero) (.inl hzero)
  · have hdigits : (Decimal.ofBits bits).digits ≠ 0 := mt (digits_ofBits_eq_zero_iff h).1 hzero
    rw [or_iff_right hzero, or_iff_right hzero, ← pow_le_value_ofBits_iff h (by decide) hlow,
      ← not_le, ← pow_le_value_ofBits_iff h (by decide) hhigh, Decimal.pow_le_value_iff hdigits,
      Decimal.pow_le_value_iff hdigits, not_le, FloatStyle.canonical, Bool.and_eq_true,
      decide_eq_true_eq, decide_eq_true_eq]

/-! ## Which doubles are printed as literals -/

/-- Digits in place are read as the double that they are the fewest digits of. -/
theorem plainlyWritten_of_inPlace (h : bits < infinityBits)
    (htext : (Number.float (ofMagnitude false bits)).text.toList =
      FloatStyle.inPlace true (Decimal.ofBits bits)) : PlainlyWritten (ofMagnitude false bits) := by
  obtain ⟨whole, fraction, hwhole, hfraction, hdigits, hinPlace, hvalue⟩ :=
    FloatStyle.exists_inPlace (Decimal.ofBits bits)
  rw [hinPlace] at htext
  refine ⟨⟨whole, fraction, hwhole, hfraction, hdigits, htext⟩, ?_⟩
  have hread := Numeral.readFloat_of_digits hwhole
    (fun c hc => hdigits c (List.mem_append_left _ hc))
    (fun c hc => hdigits c (List.mem_append_right _ hc)) htext
  obtain ⟨bits', hrounds, hnearest⟩ :=
    Numeral.exists_rounds_nearest false (Numeral.decimal whole fraction)
  rw [hvalue] at hrounds
  rw [hread, hnearest, hrounds.unique (rounds_ofBits h)]

theorem not_isLexeme_of_mem {cs : List Char} {c : Char} (hc : c ∈ cs) (hdigit : isDigit c = false)
    (hpoint : c ≠ '.') : ¬ Token.IsLexeme .number cs := by
  intro hlexeme
  rcases hlexeme.number_cases rfl with ⟨_, hall⟩ | ⟨whole, fraction, _, _, hall, rfl⟩
  · rw [hall c hc] at hdigit
    cases hdigit
  · rw [List.mem_append, List.mem_cons] at hc
    have hmem : c ∈ whole ++ fraction := by
      rw [List.mem_append]
      exact hc.imp_right fun h => h.resolve_left hpoint
    rw [hall c hmem] at hdigit
    cases hdigit

theorem mem_scientific (d : Decimal) : 'e' ∈ FloatStyle.scientific d := by
  rw [FloatStyle.scientific]
  split
  · next hnil => exact absurd hnil Nat.toDigits_ne_nil
  · exact List.mem_append_right _ List.mem_cons_self

/-- Whether a double without a sign is zero, or from `1e-4` up to `1e16`. -/
def IsPlain (x : Float) : Prop := x = 0.0 ∨ 1e-4 ≤ x ∧ x < 1e16

theorem isPlain_ofMagnitude_iff (h : bits ≤ infinityBits) : IsPlain (ofMagnitude false bits) ↔
    bits = 0 ∨ tenThousandthBits ≤ bits ∧ bits < tenQuadrillionBits := by
  have hzero : (0.0 : Float) = ofMagnitude false 0 := by decide +kernel
  have hlow : (1e-4 : Float) = ofMagnitude false tenThousandthBits := by decide +kernel
  have hhigh : (1e16 : Float) = ofMagnitude false tenQuadrillionBits := by decide +kernel
  rw [IsPlain, hzero, hlow, hhigh, Double.eq_ofMagnitude_iff h (by decide),
    Double.ofMagnitude_le_iff (by decide) h, Double.ofMagnitude_lt_iff h (by decide)]

/-- The text of a double without a sign is a literal for it, if the digits stand in place, or
else no literal at all. -/
theorem plainlyWritten_or_not_isLexeme (h : bits ≤ infinityBits) :
    (IsPlain (ofMagnitude false bits) ∧ PlainlyWritten (ofMagnitude false bits)) ∨
      (¬ IsPlain (ofMagnitude false bits) ∧
        ¬ Token.IsLexeme .number (Number.float (ofMagnitude false bits)).text.toList) := by
  rw [isPlain_ofMagnitude_iff h]
  rcases h.eq_or_lt with rfl | hlt
  · have hname : (Number.float (ofMagnitude false infinityBits)).text = "inf" := by decide +kernel
    rw [hname]
    exact .inr ⟨by decide, not_isLexeme_of_mem (c := 'i') (by decide) (by decide) (by decide)⟩
  · have htext := text_ofMagnitude hlt
    rw [render_ofBits hlt] at htext
    by_cases hplain : bits = 0 ∨ tenThousandthBits ≤ bits ∧ bits < tenQuadrillionBits
    · rw [if_pos hplain] at htext
      exact .inl ⟨hplain, plainlyWritten_of_inPlace hlt htext⟩
    · rw [if_neg hplain] at htext
      rw [htext]
      exact .inr ⟨hplain, not_isLexeme_of_mem (mem_scientific _) (by decide) (by decide)⟩

/-! ## Numbers in trees -/

theorem exists_bits_of_ofLiteral? {literal : String} {x : Float}
    (hlexeme : Token.IsLexeme .number literal.toList)
    (h : Number.ofLiteral? literal = some (.float x)) :
    ∃ bits ≤ infinityBits, x = ofMagnitude false bits := by
  rcases hlexeme.number_cases rfl with ⟨hne, hdigits⟩ | ⟨whole, fraction, hne, _, hdigits, htext⟩
  · rw [ofLiteral?_of_digits hne hdigits] at h
    obtain ⟨_, _, hinteger⟩ := Option.map_eq_some_iff.1 h
    cases hinteger
  · obtain ⟨bits, hrounds, hvalue⟩ := ofLiteral?_of_point hne hdigits htext
    rw [h] at hvalue
    cases hvalue
    exact ⟨bits, hrounds.le, rfl⟩

/-- What a literal stands for is printed as a literal for it, save for doubles that are printed
with an exponent or by name. -/
theorem readsBack_or_not_isLexeme {literal : String} {v : Number}
    (hlexeme : Token.IsLexeme .number literal.toList) (h : Number.ofLiteral? literal = some v) :
    ((∀ x, v = .float x → IsPlain x) ∧ v.ReadsBack) ∨
      ((∃ x, v = .float x ∧ ¬ IsPlain x) ∧ ¬ Token.IsLexeme .number v.text.toList) := by
  cases v with
  | integer i => exact .inl ⟨nofun, readsBack_of_ofLiteral? hlexeme h⟩
  | float x =>
      obtain ⟨bits, hbits, rfl⟩ := exists_bits_of_ofLiteral? hlexeme h
      rcases plainlyWritten_or_not_isLexeme hbits with ⟨hplain, hwritten⟩ | ⟨hplain, hnot⟩
      · refine .inl ⟨fun x hx => ?_, hwritten.readsBack⟩
        cases hx
        exact hplain
      · exact .inr ⟨⟨_, rfl, hplain⟩, hnot⟩

def NodeKind.number? : NodeKind → Option Number
  | .number v => some v
  | _ => none

theorem NodeKind.number?_eq_some_iff {kind : NodeKind} {v : Number} :
    kind.number? = some v ↔ kind = .number v := by
  cases kind with
  | number => simp [number?]
  | _ => simp [number?]

namespace Tree

variable {source : String} {t : Tree}

theorem print_number (hw : t.WellLinked) {n : NodeId} {v : Number} (hn : t.kind n = .number v) :
    t.print n = v.text := by
  rw [print, hw.subtree_eq, hn, Subtree.print, String.ofList_toList]

/-- The text of a number in a tree that was read is one number, and a program of this number,
if and only if it is no double or one that has its digits in place. -/
theorem number_print_iff (h : ofSource source = .ok t) {n : NodeId} {v : Number}
    (hn : t.kind n = .number v) :
    (Token.scan (t.print n) = [⟨.number, t.print n, 0⟩] ∧
      ∃ t', ofSource (t.print n) = .ok t' ∧
        (t'.subtree root).kinds = [.root Scopes.global, .statement, .expression, .number v]) ↔
    ∀ x, v = .float x → x = 0.0 ∨ 1e-4 ≤ x ∧ x < 1e16 := by
  obtain ⟨token, htoken, hkind, hvalue, _⟩ := exists_token_of_number h hn
  have hlexeme : Token.IsLexeme token.kind token.text.toList := Token.lexical_of_mem_scanFrom htoken
  rw [hkind] at hlexeme
  rw [print_number (wellLinked_of_ofSource h) hn]
  rcases readsBack_or_not_isLexeme hlexeme hvalue with ⟨hplain, hback⟩ | ⟨⟨x, hx, hplain⟩, hnot⟩
  · exact iff_of_true (exists_of_literal hback.1 hback.2) hplain
  · refine iff_of_false (fun hread => hnot ?_) fun hall => hplain (hall x hx)
    have hmem : (⟨.number, v.text, 0⟩ : Token) ∈ Token.scanFrom 0 v.text.toList := by
      rw [← Token.scan, hread.1]
      exact List.mem_singleton_self _
    exact Token.lexical_of_mem_scanFrom hmem

/-- The numbers of `0.25 * 7`. -/
theorem number_print_iff_quarter : ∃ t n m, ofSource "0.25 * 7" = .ok t ∧
    t.kind n = .number (.float 0.25) ∧ t.kind m = .number (.integer 7) ∧
    (∃ t', ofSource (t.print n) = .ok t' ∧ (t'.subtree root).kinds =
      [.root Scopes.global, .statement, .expression, .number (.float 0.25)]) ∧
    ∃ t', ofSource (t.print m) = .ok t' ∧ (t'.subtree root).kinds =
      [.root Scopes.global, .statement, .expression, .number (.integer 7)] := by
  have hcheck : (ofSource "0.25 * 7").toOption.any (fun t =>
      (t.kind ⟨1⟩).number? = some (.float 0.25) && (t.kind ⟨2⟩).number? = some (.integer 7)) =
        true := by
    decide +kernel
  obtain ⟨t, ht, hnumbers⟩ := ok_of_any hcheck
  rw [Bool.and_eq_true, decide_eq_true_eq, decide_eq_true_eq] at hnumbers
  have hn := NodeKind.number?_eq_some_iff.1 hnumbers.1
  have hm := NodeKind.number?_eq_some_iff.1 hnumbers.2
  have hquarter := (number_print_iff ht hn).2 fun x hx => by
    cases hx
    exact .inr (by decide +kernel)
  have hseven := (number_print_iff ht hm).2 nofun
  exact ⟨t, ⟨1⟩, ⟨2⟩, ht, hn, hm, hquarter.2, hseven.2⟩

/-- A small literal has no exponent but is printed with one, as `1e-5`, and what is read in
that is a number, a name, a sign and a number. -/
theorem number_print_exponent : ∃ t n, ofSource "0.00001" = .ok t ∧
    t.kind n = .number (.float 1e-5) ∧ t.print n = "1e-5" ∧ Token.scan "1e-5" =
      [⟨.number, "1", 0⟩, ⟨.identifier, "e", 1⟩, ⟨.operator, "-", 2⟩, ⟨.number, "5", 3⟩] := by
  have hcheck : (ofSource "0.00001").toOption.any (fun t =>
      (t.kind ⟨1⟩).number? = some (.float 1e-5) && t.print ⟨1⟩ = "1e-5") = true := by
    decide +kernel
  obtain ⟨t, ht, hsmall⟩ := ok_of_any hcheck
  rw [Bool.and_eq_true, decide_eq_true_eq, decide_eq_true_eq] at hsmall
  exact ⟨t, ⟨1⟩, ht, NodeKind.number?_eq_some_iff.1 hsmall.1, hsmall.2, by decide +kernel⟩

end Tree

end Lindenmayer
