import Lindenmayer.Proofs.Lexemes
import Lindenmayer.Term.Number

/-!
# Literals that read back

A literal is written so that the text of its number is a literal again, and the
same one. For integers this is a fact about decimal digits: a literal has no
sign, so the number is one of those that are written without a sign. For
doubles it is a fact about how they are written and read, which is assumed
where it is needed.
-/

namespace Lindenmayer

open Lindenmayer.Text (isDigit)

deriving instance DecidableEq for Number

/-- Whether the text of a number is a literal for it. -/
def Number.ReadsBack (n : Number) : Prop :=
  Token.IsLexeme .number n.text.toList ∧ Number.ofLiteral? n.text = some n

/-- Whether a double is written as digits, a point and digits, and read back. -/
def PlainlyWritten (x : Float) : Prop :=
  (∃ whole fraction, whole ≠ [] ∧ fraction ≠ [] ∧ (∀ c ∈ whole ++ fraction, isDigit c = true) ∧
    (Number.float x).text.toList = whole ++ '.' :: fraction) ∧
  Numeral.readFloat (Number.float x).text = some x

theorem PlainlyWritten.readsBack {x : Float} (h : PlainlyWritten x) :
    (Number.float x).ReadsBack := by
  obtain ⟨⟨whole, fraction, hwhole, hfraction, hdigits, htext⟩, hread⟩ := h
  refine ⟨?_, ?_⟩
  · rw [htext]
    exact .of_point hwhole hfraction hdigits
  · have hpoint : (Number.float x).text.toList.contains '.' = true := by
      rw [htext, List.contains_iff_mem]
      exact List.mem_append_right _ List.mem_cons_self
    rw [Number.ofLiteral?, if_pos hpoint, hread]
    rfl

/-! ## Digits -/

theorem isDigit_of_mem_toDigits {n : Nat} {c : Char} (h : c ∈ Nat.toDigits 10 n) :
    isDigit c = true := by
  have hc := Nat.isDigit_of_mem_toDigits (by decide) (by decide) h
  rw [Char.isDigit, Bool.and_eq_true, decide_eq_true_eq, decide_eq_true_eq] at hc
  rw [isDigit, Bool.and_eq_true, decide_eq_true_eq, decide_eq_true_eq]
  exact hc

theorem natural_eq (cs : List Char) : Numeral.natural cs = Nat.ofDigitChars 10 cs 0 := rfl

theorem natural_toDigits (n : Nat) : Numeral.natural (Nat.toDigits 10 n) = n :=
  Nat.ofDigitChars_ten_toDigits

/-- Digits in front of something that is no digit tell their number, and what follows them. -/
theorem toDigits_append_inj {m n : Nat} {cs ds : List Char}
    (hcs : ∀ c ∈ cs.head?, isDigit c = false) (hds : ∀ d ∈ ds.head?, isDigit d = false)
    (h : Nat.toDigits 10 m ++ cs = Nat.toDigits 10 n ++ ds) : m = n ∧ cs = ds := by
  have htake : ∀ {k : Nat} {es : List Char}, (∀ e ∈ es.head?, isDigit e = false) →
      (Nat.toDigits 10 k ++ es).takeWhile isDigit = Nat.toDigits 10 k := fun hes => by
    rw [Token.takeWhile_append_of_head hes]
    exact List.takeWhile_eq_self_iff.2 fun c hc => isDigit_of_mem_toDigits hc
  have hdigits : Nat.toDigits 10 m = Nat.toDigits 10 n := by rw [← htake hcs, h, htake hds]
  rw [hdigits] at h
  refine ⟨?_, List.append_cancel_left h⟩
  rw [← natural_toDigits m, hdigits, natural_toDigits]

/-- In front of a digit there is no sign. -/
theorem splitSign_of_isDigit {c : Char} (h : isDigit c = true) (cs : List Char) :
    Numeral.splitSign (c :: cs) = (false, c :: cs) := by
  unfold Numeral.splitSign
  split
  · next heq =>
      cases heq
      exact absurd h (by decide)
  · next heq =>
      cases heq
      exact absurd h (by decide)
  · rfl

theorem integer?_of_digits {cs : List Char} (hne : cs ≠ []) (h : ∀ c ∈ cs, isDigit c = true) :
    Numeral.integer? cs = some (Numeral.natural cs : Int) := by
  obtain ⟨c, cs, rfl⟩ := List.exists_cons_of_ne_nil hne
  have hall : (c :: cs).all isDigit = true := List.all_eq_true.2 h
  rw [Numeral.integer?, splitSign_of_isDigit (h c List.mem_cons_self)]
  simp only [Numeral.natural?, hall, List.isEmpty_cons, Bool.not_false, Bool.and_self, if_true]
  rfl

theorem toInt_of_int64? {n : Int} {i : Int64} (h : Numeral.int64? n = some i) : i.toInt = n := by
  rw [Numeral.int64?] at h
  split at h
  · next hrange =>
      cases h
      simp only [Bool.and_eq_true, decide_eq_true_eq] at hrange
      exact Int64.toInt_ofInt_of_le hrange.1 (Int.lt_of_le_of_lt hrange.2 (by decide))
  · cases h

theorem ofLiteral?_of_digits {s : String} (hne : s.toList ≠ [])
    (h : ∀ c ∈ s.toList, isDigit c = true) :
    Number.ofLiteral? s = (Numeral.int64? (Numeral.natural s.toList)).map .integer := by
  have hpoint : ¬ s.toList.contains '.' = true := by
    rw [List.contains_iff_mem]
    exact fun hmem => absurd (h '.' hmem) (by decide)
  rw [Number.ofLiteral?, if_neg hpoint, Numeral.readInt64, integer?_of_digits hne h]
  rfl

/-- A literal that stands for an integer is a natural number. -/
theorem natural_of_ofLiteral? {literal : String} {i : Int64}
    (hlexeme : Token.IsLexeme .number literal.toList)
    (h : Number.ofLiteral? literal = some (.integer i)) :
    ∃ n : Nat, Numeral.int64? n = some i := by
  have hpoint : '.' ∉ literal.toList := by
    intro hmem
    rw [Number.ofLiteral?, if_pos (List.contains_iff_mem.2 hmem)] at h
    obtain ⟨x, _, hx⟩ := Option.map_eq_some_iff.1 h
    cases hx
  have hdigits := hlexeme.digits_of_number rfl hpoint
  rw [ofLiteral?_of_digits hdigits.1 hdigits.2] at h
  obtain ⟨_, hi, heq⟩ := Option.map_eq_some_iff.1 h
  cases heq
  exact ⟨_, hi⟩

/-- A natural number is written as a literal for it. -/
theorem readsBack_of_natural {n : Nat} {i : Int64} (hi : Numeral.int64? n = some i) :
    (Number.integer i).ReadsBack := by
  have htext : (Number.integer i).text.toList = Nat.toDigits 10 n := by
    rw [Number.text, toInt_of_int64? hi]
    exact Nat.toList_repr
  have hne : (Number.integer i).text.toList ≠ [] := by
    rw [htext]
    exact Nat.toDigits_ne_nil
  have hall : ∀ c ∈ (Number.integer i).text.toList, isDigit c = true := by
    rw [htext]
    exact fun c hc => isDigit_of_mem_toDigits hc
  refine ⟨?_, ?_⟩
  · obtain ⟨c, cs, heq⟩ := List.exists_cons_of_ne_nil hne
    rw [heq] at hall ⊢
    exact .integer hall
  · rw [ofLiteral?_of_digits hne hall, htext, natural_toDigits, hi]
    rfl

/-- An integer that a literal stands for is written as a literal for it. -/
theorem readsBack_of_ofLiteral? {literal : String} {i : Int64}
    (hlexeme : Token.IsLexeme .number literal.toList)
    (h : Number.ofLiteral? literal = some (.integer i)) : (Number.integer i).ReadsBack := by
  obtain ⟨n, hn⟩ := natural_of_ofLiteral? hlexeme h
  exact readsBack_of_natural hn

theorem int64?_toInt (i : Int64) : Numeral.int64? i.toInt = some i := by
  have hlow := Int64.le_toInt i
  have hhigh := Int64.toInt_lt i
  rw [Numeral.int64?, if_pos, Int64.ofInt_toInt]
  simp only [Bool.and_eq_true, decide_eq_true_eq]
  exact ⟨hlow, Int.le_sub_one_of_lt hhigh⟩

/-- The integers with literals are those without a sign. -/
theorem readsBack_integer_iff {i : Int64} : (Number.integer i).ReadsBack ↔ 0 ≤ i.toInt := by
  constructor
  · rintro ⟨hlexeme, hread⟩
    obtain ⟨n, hn⟩ := natural_of_ofLiteral? hlexeme hread
    rw [toInt_of_int64? hn]
    exact Int.natCast_nonneg n
  · intro hnonneg
    have hi := int64?_toInt i
    rw [← Int.toNat_of_nonneg hnonneg] at hi
    exact readsBack_of_natural hi

end Lindenmayer
