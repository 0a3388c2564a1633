import Lindenmayer.Proofs.Content
import Lindenmayer.Proofs.Decimals
import Lindenmayer.Proofs.Descent
import Lindenmayer.Proofs.Patterns

/-!
# What numbers in a source stand for

A number is a token, of any length, and it stands for the number that its digits spell. Where
an expression meets one that has no point, the integer is taken if it fits into a word, and
the source is refused if it does not; with a point, it is rounded to a double, and it is
never refused. A number that is too large becomes an infinity then, which is no less out of
range than an integer that is refused (`Tree.number_of_meets`).

All numbers in a tree are from such tokens (`Tree.exists_token_of_number`).
-/

namespace Lindenmayer

open Lindenmayer.Text (isDigit)
open Lindenmayer.Numeral (ofMagnitude)

/-! ## Values of literals -/

theorem int64?_natCast (n : ℕ) :
    Numeral.int64? n = if n ≤ 2 ^ 63 - 1 then some (Int64.ofInt n) else none := by
  have hrange : (Int64.minValue.toInt ≤ (n : ℤ) && (n : ℤ) ≤ Int64.maxValue.toInt) = true ↔
      n ≤ 2 ^ 63 - 1 := by
    have hmin : Int64.minValue.toInt = -2 ^ 63 := by decide
    have hmax : Int64.maxValue.toInt = 2 ^ 63 - 1 := by decide
    rw [hmin, hmax, Bool.and_eq_true, decide_eq_true_eq, decide_eq_true_eq]
    omega
  rw [Numeral.int64?]
  exact if_congr hrange rfl rfl

theorem value_decimal (whole fraction : List Char) : (Numeral.decimal whole fraction).value =
    (Nat.ofDigitChars 10 (whole ++ fraction) 0 : ℕ) / 10 ^ fraction.length := by
  rw [Numeral.decimal, Decimal.value, natural_eq, zpow_neg, zpow_natCast, ← div_eq_mul_inv]

/-- A literal with a point stands for the double that it is rounded to. -/
theorem ofLiteral?_of_point {literal : String} {whole fraction : List Char} (hne : whole ≠ [])
    (hdigits : ∀ c ∈ whole ++ fraction, isDigit c = true)
    (hliteral : literal.toList = whole ++ '.' :: fraction) :
    ∃ bits, Dyadic.Rounds (Numeral.decimal whole fraction).value bits ∧
      Number.ofLiteral? literal = some (.float (ofMagnitude false bits)) := by
  obtain ⟨bits, hrounds, hnearest⟩ :=
    Numeral.exists_rounds_nearest false (Numeral.decimal whole fraction)
  have hpoint : literal.toList.contains '.' = true := by
    rw [hliteral, List.contains_iff_mem]
    exact List.mem_append_right _ List.mem_cons_self
  have hread := Numeral.readFloat_of_digits hne (fun c hc => hdigits c (List.mem_append_left _ hc))
    (fun c hc => hdigits c (List.mem_append_right _ hc)) hliteral
  refine ⟨bits, hrounds, ?_⟩
  rw [Number.ofLiteral?, if_pos hpoint, hread, hnearest]
  rfl

/-- Half-way between the greatest double and what would be the next one. -/
theorem Dyadic.midpoint_infinityBits : midpoint (infinityBits - 1) = 2 ^ 1024 - 2 ^ 970 := by
  have hbits : infinityBits - 1 = 2045 * hiddenBit + (2 * hiddenBit - 1) := by decide
  have hexponent : ((2045 : ℕ) : ℤ) + leastExponent = (971 : ℕ) := by rw [leastExponent]; norm_num
  have htop : (2 : ℚ) ^ 1024 = 2 ^ 53 * 2 ^ 971 := by rw [← pow_add]
  have hhalf : (2 : ℚ) ^ 971 = 2 * 2 ^ 970 := by rw [← pow_succ']
  rw [hbits, midpoint_add (.inl (by decide)) (by decide), hexponent, zpow_natCast, htop, hhalf,
    Nat.cast_sub (by decide), hiddenBit_eq]
  generalize (2 : ℚ) ^ 970 = p
  push_cast
  ring

/-! ## Numbers that an expression meets -/

variable {source : String} {t : Token} {ts : List Token} {y : ShuntingYard}

/-- What becomes of a token that stands for a number: it goes onto the stack and reading goes
on behind it, and if the source is read to the end, the number is a leaf of the tree. -/
structure TakenFor (source : String) (t : Token) (ts : List Token) (y : ShuntingYard)
    (n : Number) : Prop where
  meets : Meets source ts (y.push (.number n t.region) t.region)
  leaf : ∀ tree, Tree.ofSource source = .ok tree →
    ∃ u ∈ (tree.subtree Tree.root).leaves, u.kind = .number n ∧ u.region = t.region
  node : ∀ p : Parser, Parser.number t p =
    some (.ok (⟨p.tree.size⟩, { p with tree := (p.tree.newNode (.number n) t.region).2 }))

/-- What becomes of a token that stands for no number: the source is refused for it. -/
structure Refused (source : String) (t : Token) : Prop where
  source : Tree.ofSource source = .error (.illegalNumber t.text t.region)
  node : ∀ p : Parser, Parser.number t p = some (.error (.illegalNumber t.text t.region))

theorem takenFor_of_ofLiteral? {n : Number} (h : Meets source (t :: ts) y)
    (hkind : t.kind = .number) (hvalue : Number.ofLiteral? t.text = some n) :
    TakenFor source t ts y n := by
  have hmeets := h.tail (.step (.operand (.number hkind hvalue)))
  refine ⟨hmeets, fun tree htree => ?_, fun p => ?_⟩
  · have hleaf := Tree.hasLeaf_of_meets hmeets (List.mem_flatMap.2
      ⟨_, List.mem_cons_self, List.mem_singleton.2 rfl⟩) htree
    obtain ⟨_, u, hu, hkind, hplace⟩ := hleaf
    exact ⟨u, hu, hkind, hplace⟩
  · rw [Parser.number, hvalue]
    exact Parser.make_run _ _ _ p

theorem refused_of_ofLiteral? (h : Meets source (t :: ts) y) (hkind : t.kind = .number)
    (hvalue : Number.ofLiteral? t.text = none) : Refused source t := by
  refine ⟨Tree.ofSource_of_meets h (ShuntingYard.read_of_fails (.number hkind hvalue)),
    fun p => ?_⟩
  rw [Parser.number, hvalue]
  rfl

/-- What an expression makes of a number. Without a point it stands for an integer, and the
source is refused if it is none of a word. With a point it stands for the double that it is
rounded to, which is infinite from half-way between the greatest double and `2 ^ 1024` on. -/
theorem Tree.number_of_meets (h : Meets source (t :: ts) y) (hkind : t.kind = .number) :
    ('.' ∉ t.text.toList →
      let n := Nat.ofDigitChars 10 t.text.toList 0
      (n ≤ 2 ^ 63 - 1 → ∃ i : Int64, i.toInt = n ∧ TakenFor source t ts y (.integer i)) ∧
      (2 ^ 63 - 1 < n → Refused source t)) ∧
    ∀ whole fraction, t.text.toList = whole ++ '.' :: fraction →
      let q : ℚ := (Nat.ofDigitChars 10 (whole ++ fraction) 0 : ℕ) / 10 ^ fraction.length
      ∃ x : Float, TakenFor source t ts y (.float x) ∧ Dyadic.Rounds q x.toBits.toNat ∧
        (q < 2 ^ 1024 - 2 ^ 970 → x.isFinite = true) ∧
        (2 ^ 1024 - 2 ^ 970 ≤ q → x = 1.0 / 0.0) := by
  have hlexeme : Token.IsLexeme t.kind t.text.toList :=
    Token.lexical_of_mem_scanFrom ((in_of_meets h).1.mem List.mem_cons_self)
  constructor
  · intro hpoint
    obtain ⟨hne, hdigits⟩ := hlexeme.digits_of_number hkind hpoint
    have hvalue := ofLiteral?_of_digits hne hdigits
    have hword := int64?_natCast (Nat.ofDigitChars 10 t.text.toList 0)
    rw [natural_eq] at hvalue
    constructor
    · intro hfits
      rw [if_pos hfits] at hword
      rw [hword] at hvalue
      exact ⟨_, toInt_of_int64? hword, takenFor_of_ofLiteral? h hkind hvalue⟩
    · intro hlarge
      rw [if_neg (Nat.not_le.2 hlarge)] at hword
      rw [hword] at hvalue
      exact refused_of_ofLiteral? h hkind hvalue
  · intro whole fraction htext
    rcases hlexeme.number_cases hkind with ⟨_, hdigits⟩ | ⟨whole', fraction', hne, _, hdigits, heq⟩
    · have hpoint : '.' ∈ t.text.toList := by
        rw [htext]
        exact List.mem_append_right _ List.mem_cons_self
      exact absurd (hdigits '.' hpoint) (by decide)
    · have hpoint : '.' ∉ whole' ++ fraction' := fun hmem => absurd (hdigits '.' hmem) (by decide)
      rw [List.mem_append, not_or] at hpoint
      rw [heq, List.append_cons_inj_of_notMem hpoint.1 hpoint.2] at htext
      obtain ⟨rfl, -, rfl⟩ := htext
      obtain ⟨bits, hrounds, hvalue⟩ := ofLiteral?_of_point hne hdigits heq
      refine ⟨ofMagnitude false bits, takenFor_of_ofLiteral? h hkind hvalue, ?_, ?_, ?_⟩
      · rwa [Double.toNat_toBits_ofMagnitude hrounds.le, ← value_decimal]
      · intro hsmall
        rw [← value_decimal, ← Dyadic.midpoint_infinityBits,
          ← hrounds.lt_infinityBits_iff] at hsmall
        exact (Double.isFinite_ofMagnitude hrounds.le).2 hsmall
      · intro hlarge
        have hinfinity : (1.0 / 0.0 : Float) = ofMagnitude false Dyadic.infinityBits := by
          decide +kernel
        rw [← value_decimal, ← Dyadic.midpoint_infinityBits, ← not_lt,
          ← hrounds.lt_infinityBits_iff, Nat.not_lt] at hlarge
        rw [hinfinity, Nat.le_antisymm hlarge hrounds.le]

/-- Zeros in front, an integer that is one too large, and a tenth. -/
theorem Tree.number_of_meets_range :
    (∃ i : Int64, i.toInt = 7 ∧ ∀ tree, Tree.ofSource "007 * 2" = .ok tree →
      ∃ u ∈ (tree.subtree Tree.root).leaves, u.kind = .number (.integer i) ∧ u.region = ⟨0, 3⟩) ∧
    Tree.ofSource "9223372036854775808" = .error (.illegalNumber "9223372036854775808" ⟨0, 19⟩) ∧
    ∃ x : Float, x.isFinite = true ∧ ∀ tree, Tree.ofSource "0.1" = .ok tree →
      ∃ u ∈ (tree.subtree Tree.root).leaves, u.kind = .number (.float x) ∧ u.region = ⟨0, 3⟩ := by
  have hmeets : ∀ source t ts, (TokenStream.ofSource source).settle.rest = t :: ts →
      t.kind.startsExpression = true → Meets source (t :: ts) .empty := by
    intro source t ts hrest hstarts
    rw [← hrest]
    refine meets_start ?_
    rw [hrest]
    exact hstarts
  have hzeros := @number_of_meets "007 * 2" ⟨.number, "007", 0⟩ (Token.scan "007 * 2").tail .empty
    (hmeets _ _ _ (by decide +kernel) rfl) rfl
  have hlarge := @number_of_meets "9223372036854775808" ⟨.number, "9223372036854775808", 0⟩ []
    .empty (hmeets _ _ _ (by decide +kernel) rfl) rfl
  have htenth := @number_of_meets "0.1" ⟨.number, "0.1", 0⟩ [] .empty
    (hmeets _ _ _ (by decide +kernel) rfl) rfl
  refine ⟨?_, ?_, ?_⟩
  · obtain ⟨i, hi, htaken⟩ := (hzeros.1 (by decide)).1 (by decide)
    exact ⟨i, hi, htaken.leaf⟩
  · exact ((hlarge.1 (by decide)).2 (by decide)).source
  · obtain ⟨x, htaken, -, hfinite, -⟩ := htenth.2 ['0'] ['1'] (by decide)
    have hvalue : ((Nat.ofDigitChars 10 (['0'] ++ ['1']) 0 : ℕ) : ℚ) / 10 ^ ['1'].length < 1 := by
      rw [show Nat.ofDigitChars 10 (['0'] ++ ['1']) 0 = 1 by decide]
      norm_num
    have hbound : (1 : ℚ) ≤ 2 ^ 1024 - 2 ^ 970 := by
      have hle : 1 + 2 ^ 970 ≤ 2 ^ 1024 := by decide +kernel
      rw [le_sub_iff_add_le]
      exact_mod_cast hle
    exact ⟨x, hfinite (hvalue.trans_le hbound), htaken.leaf⟩

/-! ## Literals by themselves -/

/-- A literal alone is a program, of the number that it stands for. -/
theorem Tree.exists_of_literal {literal : String} {n : Number}
    (hlexeme : Token.IsLexeme .number literal.toList)
    (hvalue : Number.ofLiteral? literal = some n) :
    Token.scan literal = [⟨.number, literal, 0⟩] ∧ ∃ tree, Tree.ofSource literal = .ok tree ∧
      (tree.subtree Tree.root).kinds =
        [.root Scopes.global, .statement, .expression, .number n] := by
  have hscan : Token.scan literal = [⟨.number, literal, 0⟩] := by
    rw [Token.scan, Token.scanFrom_of_isLexeme hlexeme, String.ofList_toList]
  obtain ⟨tree, _, _, _, _, _, _, htree, hroot, _, rfl⟩ :=
    exists_of_derives hscan (.inl rfl) (.ofTerm (.ofFactor (.number rfl hvalue)))
  refine ⟨hscan, tree, htree, ?_⟩
  rw [hroot]
  rfl

/-- Digits around a point are a program, of the double that they are rounded to. -/
theorem Tree.exists_of_point {source : String} {whole fraction : List Char} (hwhole : whole ≠ [])
    (hfraction : fraction ≠ []) (hdigits : ∀ c ∈ whole ++ fraction, isDigit c = true)
    (hsource : source.toList = whole ++ '.' :: fraction) :
    ∃ tree bits, Tree.ofSource source = .ok tree ∧ (tree.subtree Tree.root).kinds =
        [.root Scopes.global, .statement, .expression, .number (.float (ofMagnitude false bits))] ∧
      Dyadic.Rounds (Numeral.decimal whole fraction).value bits := by
  obtain ⟨bits, hrounds, hvalue⟩ := ofLiteral?_of_point hwhole hdigits hsource
  have hlexeme : Token.IsLexeme .number source.toList := by
    rw [hsource]
    exact .of_point hwhole hfraction hdigits
  obtain ⟨_, tree, htree, hkinds⟩ := exists_of_literal hlexeme hvalue
  exact ⟨tree, bits, htree, hkinds, hrounds⟩

/-- A literal of 310 digits in front of the point is no less out of range than an integer, but
it stands for an infinity. -/
theorem Tree.number_infinite : ∃ tree,
    Tree.ofSource (String.ofList (List.replicate 310 '9' ++ ['.', '0'])) = .ok tree ∧
      ∃ x : Float, .number (.float x) ∈ (tree.subtree Tree.root).kinds ∧ x.isFinite = false := by
  have hdigits : ∀ c ∈ List.replicate 310 '9' ++ ['0'], isDigit c = true := by
    intro c hc
    rcases List.mem_append.1 hc with hc | hc
    · rw [List.eq_of_mem_replicate hc]
      decide
    · rw [List.mem_singleton.1 hc]
      decide
  obtain ⟨tree, bits, htree, hkinds, hrounds⟩ := exists_of_point (by decide) (by decide) hdigits
    String.toList_ofList
  have hlarge : 2 ^ 1024 * 10 ≤ Nat.ofDigitChars 10 (List.replicate 310 '9' ++ ['0']) 0 := by
    decide +kernel
  have hcast : (2 ^ 1024 * 10 : ℚ) ≤
      (Nat.ofDigitChars 10 (List.replicate 310 '9' ++ ['0']) 0 : ℕ) := by
    exact_mod_cast hlarge
  refine ⟨tree, htree, ofMagnitude false bits, ?_, ?_⟩
  · rw [hkinds]
    simp
  · rw [Bool.eq_false_iff, Ne, Double.isFinite_ofMagnitude hrounds.le, hrounds.lt_infinityBits_iff,
      Dyadic.midpoint_infinityBits, not_lt, value_decimal, List.length_singleton, pow_one,
      le_div_iff₀ (by norm_num)]
    exact (mul_le_mul_of_nonneg_right (sub_le_self _ (by positivity)) (by norm_num)).trans hcast

/-! ## Where numbers come from -/

/-- Every number in a tree is that of a token of the source, and its node has the region of
the token. -/
theorem Tree.exists_token_of_number {tree : Tree} (h : Tree.ofSource source = .ok tree)
    {n : NodeId} {v : Number} (hn : tree.kind n = .number v) :
    ∃ t ∈ Token.scan source, t.kind = .number ∧ Number.ofLiteral? t.text = some v ∧
      t.region = tree.region n := by
  have hfits := (fits_of_ofSource h (index_lt_of_kind hn nofun)).2
  rw [hn] at hfits
  obtain ⟨_, ⟨t, ht, hkind, rfl, hregion⟩, hvalue⟩ := hfits
  exact ⟨t, ht, hkind, hvalue, hregion⟩

end Lindenmayer
