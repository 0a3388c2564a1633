import Lindenmayer.Source.Token
import Mathlib.Data.List.TakeWhile
import Mathlib.Data.String.Basic

/-!
# Lexemes, and texts put together

`IsLexeme` lists the texts that tokens can have, kind by kind. Scanning finds
such texts only (`isLexeme_of_mem_scanFrom`), and finds each of them whole
(`scanFrom_of_isLexeme`).

What scanning makes of a text depends on what follows it, but only as long as
the last token could go on. `Breaks c d` says that a token that starts with `c`
does not go on with `d`; where that holds of a text and what follows it, the
two are scanned one by one (`scanFrom_append`).
-/

theorem Lindenmayer.Text.utf8ByteSize_eq (s : String) :
    s.utf8ByteSize = byteLength s.toList := by
  conv_lhs => rw [← String.ofList_toList (s := s), String.utf8ByteSize_ofList]
  induction s.toList with
  | nil => rfl
  | cons c cs ih => rw [String.utf8Len_cons, byteLength_cons, ih, Nat.add_comm]

namespace Lindenmayer.Token

open Lindenmayer.Text

/-- The texts of tokens of each kind. -/
inductive IsLexeme : TokenKind → List Char → Prop where
  | delimiter {c : Char} (h : isDelimiter c = true) : IsLexeme (lexeme c []).1 [c]
  | arrow : IsLexeme .arrow ['-', '>']
  | lineEnd {cs : List Char} (h : cs = ['\n'] ∨ cs = ['\r'] ∨ cs = ['\r', '\n']) :
      IsLexeme .lineEnd cs
  | blanks {c : Char} {cs : List Char}
      (h : ∀ d ∈ c :: cs, Text.isBlank d = true ∧ d ≠ '\n' ∧ d ≠ '\r') :
      IsLexeme .whitespace (c :: cs)
  | integer {c : Char} {cs : List Char} (h : ∀ d ∈ c :: cs, isDigit d = true) :
      IsLexeme .number (c :: cs)
  | float {c d : Char} {cs ds : List Char} (hwhole : ∀ d ∈ c :: cs, isDigit d = true)
      (hfraction : ∀ e ∈ d :: ds, isDigit e = true) :
      IsLexeme .number (c :: cs ++ '.' :: d :: ds)
  | word {c : Char} {cs : List Char} (hc : isDigit c = false)
      (h : ∀ d ∈ c :: cs, Text.isBlank d = false ∧ isDelimiter d = false) :
      IsLexeme (classify (c :: cs)) (c :: cs)

/-! ## How a token starts -/

theorem start_cases (c : Char) :
    c = '-' ∨ (isDelimiter c = true ∧ c ≠ '-') ∨ c = '\n' ∨ c = '\r' ∨
      (isDelimiter c = false ∧ c ≠ '\n' ∧ c ≠ '\r') := by
  by_cases hdash : c = '-'
  · exact .inl hdash
  · cases hdelimiter : isDelimiter c with
    | true => exact .inr (.inl ⟨rfl, hdash⟩)
    | false =>
        by_cases hn : c = '\n'
        · exact .inr (.inr (.inl hn))
        · by_cases hr : c = '\r'
          · exact .inr (.inr (.inr (.inl hr)))
          · exact .inr (.inr (.inr (.inr ⟨rfl, hn, hr⟩)))

/-- A character that is neither a delimiter nor ends a line starts a run. -/
theorem lexeme_of_run {c : Char} (hdelimiter : isDelimiter c = false) (hn : c ≠ '\n')
    (hr : c ≠ '\r') (following : List Char) :
    lexeme c following =
      if Text.isBlank c then
        (.whitespace, following.takeWhile fun d => Text.isBlank d && d != '\n' && d != '\r')
      else if isDigit c then (.number, numberTail following)
      else (classify (c :: following.takeWhile fun d => !Text.isBlank d && !isDelimiter d),
        following.takeWhile fun d => !Text.isBlank d && !isDelimiter d) := by
  unfold lexeme
  split
  all_goals first
    | rfl
    | exact absurd hdelimiter (by decide)
    | exact absurd rfl hn
    | exact absurd rfl hr

theorem isDelimiter_cases {c : Char} (h : isDelimiter c = true) :
    c = '"' ∨ c = '\'' ∨ c = ':' ∨ c = '=' ∨ c = '(' ∨ c = ')' ∨ c = '{' ∨ c = '}' ∨ c = '-' ∨
      c = '.' ∨ c = '+' ∨ c = '*' ∨ c = '/' := by
  simpa [isDelimiter] using h

/-- A delimiter is a token by itself, save for the dash of an arrow. -/
theorem lexeme_of_isDelimiter {c : Char} (h : isDelimiter c = true) (hdash : c ≠ '-')
    (following : List Char) : lexeme c following = ((lexeme c []).1, []) := by
  rcases isDelimiter_cases h with
    rfl | rfl | rfl | rfl | rfl | rfl | rfl | rfl | rfl | rfl | rfl | rfl | rfl
  all_goals first
    | rfl
    | exact absurd rfl hdash

/-- What a dash is, by what follows it. -/
def dashLexeme : List Char → TokenKind × List Char
  | '>' :: _ => (.arrow, ['>'])
  | _ => (.operator, [])

/-- What a carriage return is, by what follows it. -/
def returnLexeme : List Char → TokenKind × List Char
  | '\n' :: _ => (.lineEnd, ['\n'])
  | _ => (.lineEnd, [])

theorem lexeme_dash (following : List Char) :
    lexeme '-' following =
      if following.head? = some '>' then (.arrow, ['>']) else (.operator, []) := by
  show dashLexeme following = _
  unfold dashLexeme
  split
  · rfl
  · next hnot =>
      rw [if_neg]
      intro hhead
      obtain ⟨more, rfl⟩ := List.head?_eq_some_iff.1 hhead
      exact hnot more rfl

theorem lexeme_return (following : List Char) :
    lexeme '\r' following = (.lineEnd, if following.head? = some '\n' then ['\n'] else []) := by
  show returnLexeme following = _
  unfold returnLexeme
  split
  · rfl
  · next hnot =>
      rw [if_neg]
      intro hhead
      obtain ⟨more, rfl⟩ := List.head?_eq_some_iff.1 hhead
      exact hnot more rfl

/-- The fraction that a text starts with, as far as it is one. -/
def fraction : List Char → List Char
  | '.' :: d :: more => if isDigit d then '.' :: d :: more.takeWhile isDigit else []
  | _ => []

theorem fraction_of_ne {c : Char} (hc : c ≠ '.') (cs : List Char) : fraction (c :: cs) = [] := by
  unfold fraction
  split
  · next h => exact absurd (List.cons.inj h).1 hc
  · rfl

theorem numberTail_eq (cs : List Char) :
    numberTail cs = cs.takeWhile isDigit ++ fraction (cs.dropWhile isDigit) := by
  rw [numberTail]
  generalize cs.dropWhile isDigit = rest
  split
  · rw [fraction]
    split
    · rfl
    · rw [List.append_nil]
  · next hnot =>
      have hnone : fraction rest = [] := by
        unfold fraction
        split
        · next d more => exact absurd rfl (hnot d more)
        · rfl
      rw [hnone, List.append_nil]

theorem prefix_fraction (cs : List Char) : fraction cs <+: cs := by
  unfold fraction
  split
  · split
    · next d more _ =>
        rw [List.prefix_cons_inj, List.prefix_cons_inj]
        exact List.takeWhile_prefix isDigit
    · exact List.nil_prefix
  · exact List.nil_prefix

theorem prefix_numberTail (cs : List Char) : numberTail cs <+: cs := by
  have h : cs.takeWhile isDigit ++ fraction (cs.dropWhile isDigit) <+:
      cs.takeWhile isDigit ++ cs.dropWhile isDigit :=
    (List.prefix_append_right_inj _).2 (prefix_fraction _)
  rw [List.takeWhile_append_dropWhile] at h
  rw [numberTail_eq]
  exact h

theorem prefix_lexeme (c : Char) (following : List Char) :
    (lexeme c following).2 <+: following := by
  rcases start_cases c with rfl | ⟨hdelimiter, hdash⟩ | rfl | rfl | ⟨hdelimiter, hn, hr⟩
  · rw [lexeme_dash]
    split
    · next h =>
        obtain ⟨more, rfl⟩ := List.head?_eq_some_iff.1 h
        exact ⟨more, rfl⟩
    · exact List.nil_prefix
  · rw [lexeme_of_isDelimiter hdelimiter hdash]
    exact List.nil_prefix
  · exact List.nil_prefix
  · rw [lexeme_return]
    split
    · next h =>
        obtain ⟨more, rfl⟩ := List.head?_eq_some_iff.1 h
        exact ⟨more, rfl⟩
    · exact List.nil_prefix
  · rw [lexeme_of_run hdelimiter hn hr]
    split
    · exact List.takeWhile_prefix _
    · split
      · exact prefix_numberTail following
      · exact List.takeWhile_prefix _

/-- The characters of a token and those after it are the text. -/
theorem lexeme_append_drop (c : Char) (following : List Char) :
    (lexeme c following).2 ++ following.drop (lexeme c following).2.length = following :=
  (List.prefix_iff_eq_append.1 (prefix_lexeme c following))

theorem isDigit_of_isBlank {c : Char} (h : Text.isBlank c = true) : isDigit c = false := by
  rw [Bool.eq_false_iff]
  intro hd
  simp only [isDigit, Bool.and_eq_true, decide_eq_true_eq, Char.le_def,
    UInt32.le_iff_toNat_le] at hd
  simp only [Text.isBlank, Bool.or_eq_true, Bool.and_eq_true, decide_eq_true_eq, beq_iff_eq] at h
  have hlow : 48 ≤ c.toNat := hd.1
  have hhigh : c.toNat ≤ 57 := hd.2
  omega

theorem isBlank_of_isDelimiter {c : Char} (h : isDelimiter c = true) : Text.isBlank c = false := by
  rcases isDelimiter_cases h with
    rfl | rfl | rfl | rfl | rfl | rfl | rfl | rfl | rfl | rfl | rfl | rfl | rfl
  all_goals decide

theorem isDigit_of_isDelimiter {c : Char} (h : isDelimiter c = true) : isDigit c = false := by
  rcases isDelimiter_cases h with
    rfl | rfl | rfl | rfl | rfl | rfl | rfl | rfl | rfl | rfl | rfl | rfl | rfl
  all_goals decide

theorem isDelimiter_of_isDigit {c : Char} (h : isDigit c = true) : isDelimiter c = false := by
  rw [Bool.eq_false_iff]
  intro hd
  rw [isDigit_of_isDelimiter hd] at h
  cases h

theorem isBlank_of_isDigit {c : Char} (h : isDigit c = true) : Text.isBlank c = false := by
  rw [Bool.eq_false_iff]
  intro hb
  rw [isDigit_of_isBlank hb] at h
  cases h

theorem lexeme_of_isDigit {c : Char} (h : isDigit c = true) (following : List Char) :
    lexeme c following = (.number, numberTail following) := by
  have hn : c ≠ '\n' := fun hn => absurd h (by rw [hn]; decide)
  have hr : c ≠ '\r' := fun hr => absurd h (by rw [hr]; decide)
  rw [lexeme_of_run (isDelimiter_of_isDigit h) hn hr, if_neg, if_pos h]
  rw [isBlank_of_isDigit h]
  exact Bool.false_ne_true

/-! ## Every token is a lexeme -/

theorem isLexeme_numberTail {c : Char} (hc : isDigit c = true) (following : List Char) :
    IsLexeme .number (c :: numberTail following) := by
  have hwhole : ∀ d ∈ c :: following.takeWhile isDigit, isDigit d = true := by
    intro d hd
    rcases List.mem_cons.1 hd with rfl | hd
    · exact hc
    · exact List.mem_takeWhile_imp hd
  rw [numberTail]
  split
  · next d more _ =>
      split
      · next hdigit =>
          refine .float hwhole fun e he => ?_
          rcases List.mem_cons.1 he with rfl | he
          · exact hdigit
          · exact List.mem_takeWhile_imp he
      · exact .integer hwhole
  · exact .integer hwhole

theorem isLexeme_lexeme (c : Char) (following : List Char) :
    IsLexeme (lexeme c following).1 (c :: (lexeme c following).2) := by
  rcases start_cases c with rfl | ⟨hdelimiter, hdash⟩ | rfl | rfl | ⟨hdelimiter, hn, hr⟩
  · rw [lexeme_dash]
    split
    · exact .arrow
    · exact @IsLexeme.delimiter '-' (by decide)
  · rw [lexeme_of_isDelimiter hdelimiter hdash]
    exact .delimiter hdelimiter
  · exact .lineEnd (.inl rfl)
  · rw [lexeme_return]
    split
    · exact .lineEnd (.inr (.inr rfl))
    · exact .lineEnd (.inr (.inl rfl))
  · rw [lexeme_of_run hdelimiter hn hr]
    split
    · next hblank =>
        refine .blanks fun d hd => ?_
        rcases List.mem_cons.1 hd with rfl | hd
        · exact ⟨hblank, hn, hr⟩
        · simpa [and_assoc] using List.mem_takeWhile_imp hd
    · next hblank =>
        split
        · next hdigit => exact isLexeme_numberTail hdigit following
        · next hdigit =>
            refine .word (Bool.eq_false_iff.2 hdigit) fun d hd => ?_
            rcases List.mem_cons.1 hd with rfl | hd
            · exact ⟨Bool.eq_false_iff.2 hblank, hdelimiter⟩
            · simpa using List.mem_takeWhile_imp hd

def Lexical (t : Token) : Prop := IsLexeme t.kind t.text.toList

theorem region_ofList (kind : TokenKind) (cs : List Char) (offset : Nat) :
    (⟨kind, String.ofList cs, offset⟩ : Token).region = ⟨offset, byteLength cs⟩ := by
  rw [region, utf8ByteSize_eq, String.toList_ofList]

/-! ## Scanning -/

theorem scanFrom_cons (offset : Nat) (c : Char) (cs : List Char) :
    scanFrom offset (c :: cs) =
      ⟨(lexeme c cs).1, String.ofList (c :: (lexeme c cs).2), offset⟩ ::
        scanFrom (offset + byteLength (c :: (lexeme c cs).2)) (cs.drop (lexeme c cs).2.length) := by
  rw [scanFrom]

theorem lexical_of_mem_scanFrom {offset : Nat} {cs : List Char} {t : Token}
    (h : t ∈ scanFrom offset cs) : t.Lexical := by
  fun_induction scanFrom offset cs with
  | case1 => cases h
  | case2 offset c cs more ih =>
      rcases List.mem_cons.1 h with rfl | h
      · rw [Lexical, String.toList_ofList]
        exact isLexeme_lexeme c cs
      · exact ih h

/-- The texts of the tokens are the text that was scanned. -/
theorem flatMap_text_scanFrom (offset : Nat) (cs : List Char) :
    (scanFrom offset cs).flatMap (fun t => t.text.toList) = cs := by
  fun_induction scanFrom offset cs with
  | case1 => rfl
  | case2 offset c cs more ih =>
      rw [List.flatMap_cons, ih, String.toList_ofList, List.cons_append]
      exact congrArg (c :: ·) (lexeme_append_drop c cs)

theorem mem_of_mem_scanFrom {offset : Nat} {cs : List Char} {t : Token}
    (ht : t ∈ scanFrom offset cs) {c : Char} (hc : c ∈ t.text.toList) : c ∈ cs := by
  rw [← flatMap_text_scanFrom offset cs]
  exact List.mem_flatMap.2 ⟨t, ht, hc⟩

/-! ## Where tokens end -/

/-- Whether a token that starts with `c` never goes on with `d`. -/
def Breaks (c d : Char) : Prop :=
  Text.isBlank c ≠ Text.isBlank d ∨ (isDelimiter d = true ∧ d ≠ '.')

instance (c d : Char) : Decidable (Breaks c d) := inferInstanceAs (Decidable (_ ∨ _))

/-- Whether no token of a text goes on into what follows the text. -/
def Parts (cs rest : List Char) : Prop := ∀ c ∈ cs, ∀ d ∈ rest.head?, Breaks c d

theorem takeWhile_append_of_head {α : Type} {p : α → Bool} {rest : List α}
    (h : ∀ d ∈ rest.head?, p d = false) (cs : List α) :
    (cs ++ rest).takeWhile p = cs.takeWhile p := by
  induction cs with
  | nil =>
      cases rest with
      | nil => rfl
      | cons d rest =>
          rw [List.nil_append, List.takeWhile_cons_of_neg, List.takeWhile_nil]
          rw [h d rfl]
          exact Bool.false_ne_true
  | cons c cs ih => rw [List.cons_append, List.takeWhile_cons, List.takeWhile_cons, ih]

theorem dropWhile_append_of_head {α : Type} {p : α → Bool} {rest : List α}
    (h : ∀ d ∈ rest.head?, p d = false) (cs : List α) :
    (cs ++ rest).dropWhile p = cs.dropWhile p ++ rest := by
  induction cs with
  | nil =>
      cases rest with
      | nil => rfl
      | cons d rest =>
          rw [List.nil_append, List.dropWhile_cons_of_neg, List.dropWhile_nil, List.nil_append]
          rw [h d rfl]
          exact Bool.false_ne_true
  | cons c cs ih =>
      rw [List.cons_append, List.dropWhile_cons, List.dropWhile_cons, ih]
      split
      · rfl
      · rfl

theorem fraction_append {rest : List Char}
    (h : ∀ d ∈ rest.head?, isDigit d = false ∧ d ≠ '.') (cs : List Char) :
    fraction (cs ++ rest) = fraction cs := by
  match cs with
  | [] =>
      cases rest with
      | nil => rfl
      | cons d rest => exact fraction_of_ne (h d rfl).2 rest
  | [c] =>
      by_cases hc : c = '.'
      · cases rest with
        | nil => rfl
        | cons d rest =>
            rw [hc, List.singleton_append, fraction, if_neg]
            · rfl
            · rw [(h d rfl).1]
              exact Bool.false_ne_true
      · rw [List.singleton_append, fraction_of_ne hc, fraction_of_ne hc]
  | c :: d :: more =>
      by_cases hc : c = '.'
      · rw [hc, List.cons_append, List.cons_append, fraction, fraction,
          takeWhile_append_of_head fun d hd => (h d hd).1]
      · rw [List.cons_append, fraction_of_ne hc, fraction_of_ne hc]

theorem numberTail_append {rest : List Char}
    (h : ∀ d ∈ rest.head?, isDigit d = false ∧ d ≠ '.') (cs : List Char) :
    numberTail (cs ++ rest) = numberTail cs := by
  have hdigit : ∀ d ∈ rest.head?, isDigit d = false := fun d hd => (h d hd).1
  rw [numberTail_eq, numberTail_eq, takeWhile_append_of_head hdigit,
    dropWhile_append_of_head hdigit, fraction_append h]

namespace Breaks

variable {c d : Char}

/-- What breaks off something other than blanks is a blank or a delimiter. -/
theorem of_not_isBlank (h : Breaks c d) (hc : Text.isBlank c = false) :
    Text.isBlank d = true ∨ (isDelimiter d = true ∧ d ≠ '.') := by
  rcases h with hne | hd
  · rw [hc] at hne
    exact .inl (Bool.ne_false_iff.1 hne.symm)
  · exact .inr hd

theorem of_isBlank (h : Breaks c d) (hc : Text.isBlank c = true) : Text.isBlank d = false := by
  rcases h with hne | hd
  · rw [hc] at hne
    exact Bool.eq_false_iff.2 hne.symm
  · exact isBlank_of_isDelimiter hd.1

end Breaks

/-- What a token is does not depend on what follows a place that it cannot go
over. -/
theorem lexeme_append {c : Char} {rest : List Char} (h : ∀ d ∈ rest.head?, Breaks c d)
    (cs : List Char) : lexeme c (cs ++ rest) = lexeme c cs := by
  rcases start_cases c with rfl | ⟨hdelimiter, hdash⟩ | rfl | rfl | ⟨hdelimiter, hn, hr⟩
  · rw [lexeme_dash, lexeme_dash]
    cases cs with
    | cons x cs => rfl
    | nil =>
        rw [List.nil_append, if_neg, if_neg]
        · exact nofun
        · exact fun hhead => absurd (h _ hhead) (by decide)
  · exact (lexeme_of_isDelimiter hdelimiter hdash _).trans
      (lexeme_of_isDelimiter hdelimiter hdash _).symm
  · rfl
  · rw [lexeme_return, lexeme_return]
    cases cs with
    | cons x cs => rfl
    | nil =>
        rw [List.nil_append, if_neg, if_neg]
        · exact nofun
        · exact fun hhead => absurd (h _ hhead) (by decide)
  · rw [lexeme_of_run hdelimiter hn hr, lexeme_of_run hdelimiter hn hr]
    by_cases hblank : Text.isBlank c = true
    · have hstop : ∀ d ∈ rest.head?, (Text.isBlank d && d != '\n' && d != '\r') = false := by
        intro d hd
        rw [(h d hd).of_isBlank hblank]
        rfl
      rw [if_pos hblank, if_pos hblank, takeWhile_append_of_head hstop]
    · have hc := Bool.eq_false_iff.2 hblank
      have hnumber : ∀ d ∈ rest.head?, isDigit d = false ∧ d ≠ '.' := by
        intro d hd
        rcases (h d hd).of_not_isBlank hc with hd | ⟨hd, hpoint⟩
        · exact ⟨isDigit_of_isBlank hd, fun hpoint => absurd hd (by rw [hpoint]; decide)⟩
        · exact ⟨isDigit_of_isDelimiter hd, hpoint⟩
      have hstop : ∀ d ∈ rest.head?, (!Text.isBlank d && !isDelimiter d) = false := by
        intro d hd
        rcases (h d hd).of_not_isBlank hc with hd | ⟨hd, _⟩
        · rw [hd]
          rfl
        · rw [hd, Bool.not_true, Bool.and_false]
      rw [if_neg hblank, if_neg hblank, numberTail_append hnumber, takeWhile_append_of_head hstop]

/-- The tokens of a text do not depend on what follows it, unless its last
token could go on. -/
theorem scanFrom_append (offset : Nat) {cs rest : List Char} (h : Parts cs rest) :
    scanFrom offset (cs ++ rest) =
      scanFrom offset cs ++ scanFrom (offset + byteLength cs) rest := by
  fun_induction scanFrom offset cs with
  | case1 => rfl
  | case2 offset c cs more ih =>
      have hmore : (lexeme c (cs ++ rest)) = lexeme c cs :=
        lexeme_append (h c List.mem_cons_self) cs
      have hle : (lexeme c cs).2.length ≤ cs.length := (prefix_lexeme c cs).length_le
      have hbytes : offset + byteLength (c :: (lexeme c cs).2) +
          byteLength (cs.drop (lexeme c cs).2.length) = offset + byteLength (c :: cs) := by
        rw [Nat.add_assoc, ← byteLength_append, List.cons_append, lexeme_append_drop]
      have hrest := ih fun d hd => h d (List.mem_cons_of_mem c (List.mem_of_mem_drop hd))
      rw [hbytes] at hrest
      rw [List.cons_append, scanFrom_cons, hmore, List.drop_append_of_le_length hle, hrest,
        List.cons_append]

/-! ## Every lexeme is a token -/

theorem numberTail_of_digits {cs : List Char} (h : ∀ d ∈ cs, isDigit d = true) :
    numberTail cs = cs := by
  rw [numberTail_eq, List.takeWhile_eq_self_iff.2 h, List.dropWhile_eq_nil_iff.2 h]
  exact List.append_nil cs

theorem numberTail_of_fraction {d : Char} {cs ds : List Char} (hwhole : ∀ c ∈ cs, isDigit c = true)
    (hfraction : ∀ e ∈ d :: ds, isDigit e = true) :
    numberTail (cs ++ '.' :: d :: ds) = cs ++ '.' :: d :: ds := by
  have hpoint : ∀ c ∈ ('.' :: d :: ds).head?, isDigit c = false := by
    intro c hc
    cases hc
    decide
  rw [numberTail_eq, takeWhile_append_of_head hpoint, dropWhile_append_of_head hpoint,
    List.takeWhile_eq_self_iff.2 hwhole, List.dropWhile_eq_nil_iff.2 hwhole, List.nil_append,
    fraction, if_pos (hfraction d List.mem_cons_self),
    List.takeWhile_eq_self_iff.2 fun e he => hfraction e (List.mem_cons_of_mem d he)]

theorem lexeme_of_isLexeme {kind : TokenKind} {w : List Char} (h : IsLexeme kind w) :
    ∃ c cs, w = c :: cs ∧ lexeme c cs = (kind, cs) := by
  cases h with
  | @delimiter c h => exact ⟨c, [], rfl, Prod.ext rfl (List.prefix_nil.1 (prefix_lexeme c []))⟩
  | arrow => exact ⟨_, _, rfl, rfl⟩
  | lineEnd h =>
      rcases h with rfl | rfl | rfl
      · exact ⟨_, _, rfl, rfl⟩
      · exact ⟨_, _, rfl, rfl⟩
      · exact ⟨_, _, rfl, rfl⟩
  | @blanks c cs h =>
      obtain ⟨hblank, hn, hr⟩ := h c List.mem_cons_self
      have hdelimiter : isDelimiter c = false := by
        rw [Bool.eq_false_iff]
        exact fun hd => absurd hblank (by rw [isBlank_of_isDelimiter hd]; exact Bool.false_ne_true)
      have hall : ∀ d ∈ cs, (Text.isBlank d && d != '\n' && d != '\r') = true := by
        intro d hd
        simpa [and_assoc] using h d (List.mem_cons_of_mem c hd)
      refine ⟨c, cs, rfl, ?_⟩
      rw [lexeme_of_run hdelimiter hn hr, if_pos hblank, List.takeWhile_eq_self_iff.2 hall]
  | @integer c cs h =>
      refine ⟨c, cs, rfl, ?_⟩
      rw [lexeme_of_isDigit (h c List.mem_cons_self),
        numberTail_of_digits fun d hd => h d (List.mem_cons_of_mem c hd)]
  | @float c d cs ds hwhole hfraction =>
      refine ⟨c, cs ++ '.' :: d :: ds, rfl, ?_⟩
      rw [lexeme_of_isDigit (hwhole c List.mem_cons_self),
        numberTail_of_fraction (fun d hd => hwhole d (List.mem_cons_of_mem c hd)) hfraction]
  | @word c cs hc h =>
      obtain ⟨hblank, hdelimiter⟩ := h c List.mem_cons_self
      have hn : c ≠ '\n' := fun hn => absurd hblank (by rw [hn]; decide)
      have hr : c ≠ '\r' := fun hr => absurd hblank (by rw [hr]; decide)
      have hall : ∀ d ∈ cs, (!Text.isBlank d && !isDelimiter d) = true := by
        intro d hd
        simpa using h d (List.mem_cons_of_mem c hd)
      refine ⟨c, cs, rfl, ?_⟩
      rw [lexeme_of_run hdelimiter hn hr, hblank, hc, List.takeWhile_eq_self_iff.2 hall]
      rfl

theorem scanFrom_of_isLexeme {kind : TokenKind} {w : List Char} (h : IsLexeme kind w)
    (offset : Nat) : scanFrom offset w = [⟨kind, String.ofList w, offset⟩] := by
  obtain ⟨c, cs, rfl, hlexeme⟩ := lexeme_of_isLexeme h
  rw [scanFrom_cons, hlexeme, List.drop_length, scanFrom]

/-- A lexeme in front of what it cannot go on into. -/
theorem scanFrom_lexeme {kind : TokenKind} {w rest : List Char} (h : IsLexeme kind w)
    (hparts : Parts w rest) (offset : Nat) :
    scanFrom offset (w ++ rest) =
      ⟨kind, String.ofList w, offset⟩ :: scanFrom (offset + byteLength w) rest := by
  rw [scanFrom_append offset hparts, scanFrom_of_isLexeme h, List.singleton_append]

theorem exists_scanFrom_lexeme {kind : TokenKind} {w rest : List Char} (h : IsLexeme kind w)
    (hparts : Parts w rest) (offset : Nat) :
    ∃ t : Token, t.kind = kind ∧ t.text = String.ofList w ∧
      scanFrom offset (w ++ rest) = t :: scanFrom (offset + byteLength w) rest :=
  ⟨_, rfl, rfl, scanFrom_lexeme h hparts offset⟩

/-! ## Blanks and lexemes -/

/-- Blank tokens consist of blanks, and others have none in them. -/
theorem IsLexeme.isBlank_eq {kind : TokenKind} {w : List Char} (h : IsLexeme kind w) :
    ∀ c ∈ w, Text.isBlank c = kind.isBlank := by
  intro c hc
  cases h with
  | @delimiter d h =>
      rw [List.mem_singleton.1 hc, isBlank_of_isDelimiter h]
      rcases isDelimiter_cases h with
        rfl | rfl | rfl | rfl | rfl | rfl | rfl | rfl | rfl | rfl | rfl | rfl | rfl
      all_goals rfl
  | arrow =>
      rcases List.mem_cons.1 hc with rfl | hc
      · decide
      · rw [List.mem_singleton.1 hc]
        decide
  | lineEnd h =>
      rcases h with rfl | rfl | rfl
      · rw [List.mem_singleton.1 hc]
        decide
      · rw [List.mem_singleton.1 hc]
        decide
      · rcases List.mem_cons.1 hc with rfl | hc
        · decide
        · rw [List.mem_singleton.1 hc]
          decide
  | blanks h => exact (h c hc).1
  | integer h => exact isBlank_of_isDigit (h c hc)
  | float hwhole hfraction =>
      rcases List.mem_append.1 hc with hc | hc
      · exact isBlank_of_isDigit (hwhole c hc)
      · rcases List.mem_cons.1 hc with rfl | hc
        · decide
        · exact isBlank_of_isDigit (hfraction c hc)
  | word _ h =>
      rw [(h c hc).1, classify]
      repeat' split
      all_goals rfl

/-- A delimiter stands alone, except for the point of a fraction and the dash of
an arrow. -/
theorem IsLexeme.of_isDelimiter {kind : TokenKind} {w : List Char} (h : IsLexeme kind w) {q : Char}
    (hq : q ∈ w) (hdelimiter : isDelimiter q = true) (hpoint : q ≠ '.') (hdash : q ≠ '-') :
    kind = (lexeme q []).1 ∧ w = [q] := by
  have hblank := h.isBlank_eq q hq
  rw [isBlank_of_isDelimiter hdelimiter] at hblank
  cases h with
  | delimiter h =>
      rw [List.mem_singleton.1 hq]
      exact ⟨rfl, rfl⟩
  | arrow =>
      rcases List.mem_cons.1 hq with rfl | hq
      · exact absurd rfl hdash
      · rw [List.mem_singleton.1 hq] at hdelimiter
        exact absurd hdelimiter (by decide)
  | lineEnd => cases hblank
  | blanks => cases hblank
  | integer h =>
      rw [isDelimiter_of_isDigit (h q hq)] at hdelimiter
      cases hdelimiter
  | float hwhole hfraction =>
      rcases List.mem_append.1 hq with hq | hq
      · rw [isDelimiter_of_isDigit (hwhole q hq)] at hdelimiter
        cases hdelimiter
      · rcases List.mem_cons.1 hq with rfl | hq
        · exact absurd rfl hpoint
        · rw [isDelimiter_of_isDigit (hfraction q hq)] at hdelimiter
          cases hdelimiter
  | word _ h =>
      rw [(h q hq).2] at hdelimiter
      cases hdelimiter

/-- A character that ends a line is in no token but the end of a line. -/
theorem IsLexeme.kind_of_lineEnd {kind : TokenKind} {w : List Char} (h : IsLexeme kind w) {c : Char}
    (hc : c ∈ w) (hend : c = '\n' ∨ c = '\r') : kind = .lineEnd := by
  have hblank := h.isBlank_eq c hc
  have hc' : Text.isBlank c = true := by
    rcases hend with rfl | rfl
    · decide
    · decide
  rw [hc'] at hblank
  cases h with
  | lineEnd => rfl
  | blanks h =>
      rcases hend with rfl | rfl
      · exact absurd rfl (h _ hc).2.1
      · exact absurd rfl (h _ hc).2.2
  | delimiter h =>
      rw [List.mem_singleton.1 hc, isBlank_of_isDelimiter h] at hc'
      cases hc'
  | arrow => cases hblank
  | integer => cases hblank
  | float => cases hblank
  | word _ h =>
      rw [(h c hc).1] at hc'
      cases hc'

theorem IsLexeme.of_point {whole fraction : List Char} (hwhole : whole ≠ [])
    (hfraction : fraction ≠ []) (h : ∀ c ∈ whole ++ fraction, isDigit c = true) :
    IsLexeme .number (whole ++ '.' :: fraction) := by
  obtain ⟨c, cs, rfl⟩ := List.exists_cons_of_ne_nil hwhole
  obtain ⟨d, ds, rfl⟩ := List.exists_cons_of_ne_nil hfraction
  exact .float (fun e he => h e (List.mem_append_left _ he))
    fun e he => h e (List.mem_append_right _ he)

/-- A number consists of digits, or of digits around a point. -/
theorem IsLexeme.number_cases {kind : TokenKind} {w : List Char} (h : IsLexeme kind w)
    (hkind : kind = .number) : (w ≠ [] ∧ ∀ c ∈ w, isDigit c = true) ∨
      ∃ whole fraction, whole ≠ [] ∧ fraction ≠ [] ∧ (∀ c ∈ whole ++ fraction, isDigit c = true) ∧
        w = whole ++ '.' :: fraction := by
  cases h with
  | integer h => exact .inl ⟨List.cons_ne_nil _ _, h⟩
  | float hwhole hfraction =>
      exact .inr ⟨_, _, List.cons_ne_nil _ _, List.cons_ne_nil _ _,
        List.forall_mem_append.2 ⟨hwhole, hfraction⟩, rfl⟩
  | delimiter h =>
      rcases isDelimiter_cases h with
        rfl | rfl | rfl | rfl | rfl | rfl | rfl | rfl | rfl | rfl | rfl | rfl | rfl
      all_goals cases hkind
  | word _ h =>
      rw [classify] at hkind
      repeat' split at hkind
      all_goals cases hkind
  | arrow => cases hkind
  | lineEnd => cases hkind
  | blanks => cases hkind

/-- A number without a point consists of digits. -/
theorem IsLexeme.digits_of_number {kind : TokenKind} {w : List Char} (h : IsLexeme kind w)
    (hkind : kind = .number) (hpoint : '.' ∉ w) : w ≠ [] ∧ ∀ c ∈ w, isDigit c = true := by
  refine (h.number_cases hkind).resolve_right ?_
  rintro ⟨whole, fraction, -, -, -, rfl⟩
  exact hpoint (List.mem_append_right _ List.mem_cons_self)

/-- Quotes and opening parentheses are single characters. -/
theorem IsLexeme.exists_delimiter {kind : TokenKind} {w : List Char} (h : IsLexeme kind w)
    (hkind : kind = .quote ∨ kind = .parensOpen) :
    ∃ c, isDelimiter c = true ∧ (lexeme c []).1 = kind ∧ w = [c] := by
  cases h with
  | delimiter h => exact ⟨_, h, rfl, rfl⟩
  | word _ h =>
      rw [classify] at hkind
      repeat' split at hkind
      all_goals rcases hkind with hkind | hkind <;> cases hkind
  | integer | float | arrow | lineEnd | blanks =>
      rcases hkind with hkind | hkind
      · cases hkind
      · cases hkind

theorem IsLexeme.of_quote {kind : TokenKind} {w : List Char} (h : IsLexeme kind w)
    (hkind : kind = .quote) : w = ['"'] ∨ w = ['\''] := by
  obtain ⟨c, hdelimiter, hc, rfl⟩ := h.exists_delimiter (.inl hkind)
  rw [hkind] at hc
  rcases isDelimiter_cases hdelimiter with
    rfl | rfl | rfl | rfl | rfl | rfl | rfl | rfl | rfl | rfl | rfl | rfl | rfl
  · exact .inl rfl
  · exact .inr rfl
  all_goals cases hc

theorem IsLexeme.of_parensOpen {kind : TokenKind} {w : List Char} (h : IsLexeme kind w)
    (hkind : kind = .parensOpen) : w = ['('] := by
  obtain ⟨c, hdelimiter, hc, rfl⟩ := h.exists_delimiter (.inr hkind)
  rw [hkind] at hc
  rcases isDelimiter_cases hdelimiter with
    rfl | rfl | rfl | rfl | rfl | rfl | rfl | rfl | rfl | rfl | rfl | rfl | rfl
  all_goals first
    | rfl
    | cases hc

/-- The end of a line has nothing in it but characters that end a line. -/
theorem IsLexeme.forall_lineEnd {kind : TokenKind} {w : List Char} (h : IsLexeme kind w)
    (hkind : kind = .lineEnd) : ∀ c ∈ w, c = '\n' ∨ c = '\r' := by
  cases h with
  | lineEnd h =>
      rcases h with rfl | rfl | rfl
      · exact List.forall_mem_singleton.2 (.inl rfl)
      · exact List.forall_mem_singleton.2 (.inr rfl)
      · exact List.forall_mem_cons.2 ⟨.inr rfl, List.forall_mem_singleton.2 (.inl rfl)⟩
  | delimiter h =>
      rcases isDelimiter_cases h with
        rfl | rfl | rfl | rfl | rfl | rfl | rfl | rfl | rfl | rfl | rfl | rfl | rfl
      all_goals cases hkind
  | word _ h =>
      rw [classify] at hkind
      repeat' split at hkind
      all_goals cases hkind
  | integer => cases hkind
  | float => cases hkind
  | arrow => cases hkind
  | blanks => cases hkind

end Lindenmayer.Token
