import Lindenmayer.Proofs.Lexemes
import Lindenmayer.Word.Reading
import Mathlib.Data.List.Chain

/-!
# Which words are read as they are written

A word is written with nothing between its letters, so its text alone has to
tell where a letter ends. Two things can go wrong. A run of characters goes on
into the run that follows it, and an opening parenthesis behind a letter without
parameters is taken for the start of some. `Apart` says of two letters that
follow each other that neither happens.

Nothing else can go wrong: a word of letters that can be read at all is read
back from its text just if its letters stand apart, and there is no word that
was read whose letters are not such (`read_text`). Both directions come from one
equivalence for the letter in front, `readFrom_chars_cons`. What makes it one is
that reading never finds more text than there is (`length_chars_of_readFrom`);
so what was lost to a parenthesis cannot come back further on.

A list of parameters is read by a loop that gathers one parameter at a time.
`ReadsList` has a constructor for each thing the loop does, and what is known of
lists is known by induction along it.
-/

namespace Lindenmayer

open Lindenmayer.Text

namespace LetterKind

/-- Whether a letter of this kind can have a literal. -/
def Spells (kind : LetterKind) (literal : List Char) : Prop :=
  if kind = .characters then
    literal ≠ [] ∧ ∀ c ∈ literal, Text.isBlank c = false ∧ ofChar c = .characters
  else ∃ c, literal = [c] ∧ ofChar c = kind

/-- No blank means anything to the turtle. -/
theorem isBlank_of_ofChar_ne {c : Char} (h : ofChar c ≠ .characters) : Text.isBlank c = false := by
  unfold ofChar at h
  split at h
  all_goals first
    | decide
    | exact absurd rfl h

end LetterKind

namespace Letter

/-- Whether a text can be a parameter. A comma separates parameters, unless
nothing stands in front of it. -/
def IsParameter (p : List Char) : Prop :=
  p ≠ [] ∧ (∀ c ∈ p, Text.isBlank c = false ∧ c ≠ ')') ∧ ',' ∉ p.tail

/-- Whether there is a text that a letter is read from. -/
structure Lexable (l : Letter) : Prop where
  literal : l.kind.Spells l.literal.toList
  count : l.parameters.length ≤ l.kind.maxParameters
  parameters : ∀ p ∈ l.parameters, IsParameter p.toList

/-- Whether nothing of the second letter is taken for a part of the first. -/
def Apart (l m : Letter) : Prop :=
  ¬ (l.kind = .characters ∧ m.kind = .characters) ∧
  ¬ (l.parameters = [] ∧ 0 < l.kind.maxParameters ∧ m.kind = .characters ∧
    m.literal.toList.head? = some '(')

end Letter

namespace Word

open Letter (IsParameter Lexable Apart)

variable {stop : Nat} {c : Char} {cs rest current : List Char} {parameters : List String}
  {w more : Word} {l : Letter}

/-! ## Parameters -/

theorem isParameter_snoc (h : current = [] ∨ IsParameter current) (hblank : Text.isBlank c = false)
    (hclose : c ≠ ')') (hcomma : c = ',' → current = []) : IsParameter (current ++ [c]) := by
  refine ⟨by simp, fun d hd => ?_, ?_⟩
  · rcases List.mem_append.1 hd with hd | hd
    · rcases h with rfl | h
      · cases hd
      · exact h.2.1 d hd
    · rw [List.mem_singleton.1 hd]
      exact ⟨hblank, hclose⟩
  · rcases h with rfl | h
    · exact List.not_mem_nil
    · rw [List.tail_append_of_ne_nil h.1]
      intro hmem
      rcases List.mem_append.1 hmem with hmem | hmem
      · exact h.2.2 hmem
      · exact h.1 (hcomma (List.mem_singleton.1 hmem).symm)

/-- How a list of parameters is read up to its end, given what was read of the
parameter at hand. -/
inductive ReadsList : List Char → List Char → List String → List Char → Prop
  | empty {cs : List Char} : ReadsList [] (')' :: cs) [] cs
  | last {current cs : List Char} (hne : current ≠ []) :
      ReadsList current (')' :: cs) [String.ofList current] cs
  | comma {current cs rest : List Char} {parameters : List String} (hne : current ≠ [])
      (h : ReadsList [] cs parameters rest) :
      ReadsList current (',' :: cs) (String.ofList current :: parameters) rest
  | blank {current : List Char} {c : Char} {cs rest : List Char} {parameters : List String}
      (hblank : Text.isBlank c = true) (h : ReadsList current cs parameters rest) :
      ReadsList current (c :: cs) parameters rest
  | char {current : List Char} {c : Char} {cs rest : List Char} {parameters : List String}
      (hblank : Text.isBlank c = false) (hclose : c ≠ ')') (hcomma : c = ',' → current = [])
      (h : ReadsList (current ++ [c]) cs parameters rest) :
      ReadsList current (c :: cs) parameters rest

/-- A comma ends a parameter that has something in it. -/
theorem readParameters_comma (h : current ≠ []) (cs : List Char) :
    readParameters current (',' :: cs) =
      (readParameters [] cs).map fun (parameters, rest) =>
        (String.ofList current :: parameters, rest) := by
  rw [readParameters, if_pos ⟨rfl, h⟩]
  decide

theorem readParameters_eq_some_iff :
    readParameters current cs = some (parameters, rest) ↔
      ReadsList current cs parameters rest := by
  constructor
  · intro h
    fun_induction readParameters current cs generalizing parameters rest with
    | case1 => cases h
    | case2 current cs =>
        cases h
        split
        · next hempty =>
            rw [List.isEmpty_iff.1 hempty]
            exact .empty
        · next hempty => exact .last (by simpa using hempty)
    | case3 current c cs _ hcomma ih =>
        obtain ⟨⟨parameters', rest'⟩, hr, heq⟩ := Option.map_eq_some_iff.1 h
        cases heq
        obtain ⟨rfl, hne⟩ := hcomma
        exact .comma hne (ih hr)
    | case4 current c cs _ _ hblank ih => exact .blank hblank (ih h)
    | case5 current c cs hclose hcomma hblank ih =>
        refine .char (Bool.eq_false_iff.2 hblank) hclose (fun hc => ?_) (ih h)
        exact Classical.byContradiction fun hne => hcomma ⟨hc, hne⟩
  · intro h
    induction h with
    | empty => rfl
    | last hne => rw [readParameters, if_neg (by simpa using hne)]
    | comma hne _ ih => rw [readParameters_comma hne, ih, Option.map_some]
    | @blank current c cs rest parameters hblank _ ih =>
        have hne : ∀ d, Text.isBlank d = false → c ≠ d := fun d hd hc => by
          rw [hc, hd] at hblank
          cases hblank
        rw [readParameters, if_neg fun h => hne ',' rfl h.1, if_pos hblank, ih]
        exact hne ')' rfl
    | @char current c cs rest parameters hblank hclose hcomma _ ih =>
        rw [readParameters, if_neg fun h => h.2 (hcomma h.1),
          if_neg (Bool.eq_false_iff.1 hblank), ih]
        exact hclose

theorem isParameter_of_readParameters (hcurrent : current = [] ∨ IsParameter current)
    (h : readParameters current cs = some (parameters, rest)) :
    ∀ p ∈ parameters, IsParameter p.toList := by
  rw [readParameters_eq_some_iff] at h
  induction h with
  | empty => exact nofun
  | last hne =>
      refine List.forall_mem_singleton.2 ?_
      rw [String.toList_ofList]
      exact hcurrent.resolve_left hne
  | comma hne _ ih =>
      refine List.forall_mem_cons.2 ⟨?_, ih (.inl rfl)⟩
      rw [String.toList_ofList]
      exact hcurrent.resolve_left hne
  | blank _ _ ih => exact ih hcurrent
  | char hblank hclose hcomma _ ih =>
      exact ih (.inr (isParameter_snoc hcurrent hblank hclose hcomma))

/-- Text between commas is read as it is, less its blanks. -/
theorem readParameters_append {p : List Char} (hp : ∀ c ∈ p, c ≠ ')' ∧ c ≠ ',') (cs : List Char) :
    readParameters current (p ++ cs) =
      readParameters (current ++ p.filter fun c => !Text.isBlank c) cs := by
  induction p generalizing current with
  | nil => rw [List.filter_nil, List.append_nil, List.nil_append]
  | cons c p ih =>
      obtain ⟨hclose, hcomma⟩ := hp c List.mem_cons_self
      have hmore : ∀ d ∈ p, d ≠ ')' ∧ d ≠ ',' := fun d hd => hp d (List.mem_cons_of_mem c hd)
      rw [List.cons_append, readParameters, if_neg (fun h => hcomma h.1)]
      · cases hblank : Text.isBlank c with
        | true =>
            rw [if_pos rfl, ih hmore, List.filter_cons_of_neg]
            simp [hblank]
        | false =>
            rw [if_neg Bool.false_ne_true, ih hmore, List.filter_cons_of_pos, List.append_assoc,
              List.singleton_append]
            simp [hblank]
      · exact hclose

theorem readParameters_parameter {p : List Char} (hp : IsParameter p) (cs : List Char) :
    readParameters [] (p ++ cs) = readParameters p cs := by
  obtain ⟨hne, hchars, hcomma⟩ := hp
  obtain ⟨c, p, rfl⟩ := List.exists_cons_of_ne_nil hne
  obtain ⟨hblank, hclose⟩ := hchars c List.mem_cons_self
  have hmore : ∀ d ∈ p, Text.isBlank d = false ∧ d ≠ ')' :=
    fun d hd => hchars d (List.mem_cons_of_mem c hd)
  have hkept : (p.filter fun d => !Text.isBlank d) = p :=
    List.filter_eq_self.2 fun d hd => by simp [(hmore d hd).1]
  rw [List.cons_append, readParameters, if_neg (fun h => h.2 rfl), if_neg (by simp [hblank]),
    List.nil_append, readParameters_append, hkept, List.singleton_append]
  · exact fun d hd => ⟨(hmore d hd).2, fun h => hcomma (by rw [← h]; exact hd)⟩
  · exact hclose

theorem toList_intercalate (parameters : List String) :
    (",".intercalate parameters).toList = [','].intercalate (parameters.map String.toList) :=
  String.toList_intercalate

/-- Parameters are read as they are written. -/
theorem readParameters_intercalate (hne : parameters ≠ [])
    (h : ∀ p ∈ parameters, IsParameter p.toList) (rest : List Char) :
    readParameters [] ((",".intercalate parameters).toList ++ ')' :: rest) =
      some (parameters, rest) := by
  rw [toList_intercalate]
  induction parameters with
  | nil => exact absurd rfl hne
  | cons p ps ih =>
      have hp := h p List.mem_cons_self
      have hempty : p.toList.isEmpty = false := by simpa using hp.1
      cases ps with
      | nil =>
          rw [List.map_singleton, List.intercalate_singleton, readParameters_parameter hp,
            readParameters, hempty, String.ofList_toList]
          rfl
      | cons q ps =>
          have hrest := ih (List.cons_ne_nil q ps) fun r hr => h r (List.mem_cons_of_mem p hr)
          rw [List.map_cons] at hrest
          rw [List.map_cons, List.map_cons, List.intercalate_cons_cons, List.append_assoc,
            List.append_assoc, readParameters_parameter hp, List.singleton_append, readParameters,
            if_pos ⟨rfl, hp.1⟩, hrest, Option.map_some, String.ofList_toList]
          decide

theorem suffix_of_readParameters (h : readParameters current cs = some (parameters, rest)) :
    rest <:+ cs := by
  rw [readParameters_eq_some_iff] at h
  induction h with
  | empty | last => exact List.suffix_cons _ _
  | comma _ _ ih | blank _ _ ih | char _ _ _ _ ih => exact ih.trans (List.suffix_cons _ _)

/-- The parameters that were read do not take more room than there was. -/
theorem length_intercalate_of_readParameters
    (h : readParameters current cs = some (parameters, rest)) :
    (",".intercalate parameters).toList.length + rest.length < current.length + cs.length := by
  rw [toList_intercalate]
  rw [readParameters_eq_some_iff] at h
  induction h with
  | empty =>
      simp only [List.map_nil, List.intercalate_nil, List.length_nil, List.length_cons]
      omega
  | last => simp [List.intercalate_singleton]
  | @comma current cs rest parameters _ _ ih =>
      cases parameters with
      | nil =>
          simp only [List.map_nil, List.map_cons, List.intercalate_nil, List.intercalate_singleton,
            String.toList_ofList, List.length_cons, List.length_nil] at ih ⊢
          omega
      | cons p ps =>
          rw [List.map_cons] at ih
          rw [List.map_cons, List.map_cons, List.intercalate_cons_cons, String.toList_ofList]
          simp only [List.length_append, List.length_cons, List.length_nil] at ih ⊢
          omega
  | blank _ _ ih =>
      simp only [List.length_cons]
      omega
  | char _ _ _ _ ih =>
      simp only [List.length_cons, List.length_append, List.length_nil] at ih ⊢
      omega

theorem chars_of_parameters (h : l.parameters = []) : l.chars = l.literal.toList := by
  rw [Letter.chars, Letter.withParameters, h]
  rfl

/-! ## The letter in front -/

/-- Whether a text that starts with no blank starts with a letter, and goes on
behind it with the rest. -/
inductive Starts : List Char → Letter → List Char → Prop
  | run {c : Char} {cs : List Char} (hblank : Text.isBlank c = false)
      (hkind : LetterKind.ofChar c = .characters) :
      Starts (c :: cs) ⟨.characters, String.ofList (c :: cs.takeWhile continuesRun), []⟩
        (cs.dropWhile continuesRun)
  | bare {c : Char} {cs : List Char} (hkind : LetterKind.ofChar c ≠ .characters)
      (hbare : (LetterKind.ofChar c).maxParameters = 0 ∨ cs.head? ≠ some '(') :
      Starts (c :: cs) ⟨LetterKind.ofChar c, String.ofList [c], []⟩ cs
  | list {c : Char} {cs rest : List Char} {parameters : List String}
      (hkind : LetterKind.ofChar c ≠ .characters)
      (hread : readParameters [] cs = some (parameters, rest))
      (hcount : parameters.length ≤ (LetterKind.ofChar c).maxParameters)
      (hpos : 0 < (LetterKind.ofChar c).maxParameters) :
      Starts (c :: '(' :: cs) ⟨LetterKind.ofChar c, String.ofList [c], parameters⟩ rest

/-- Whether a text starts with a letter whose parameters are not as they should be,
and what is reported of it, given where it stands. -/
inductive Refused : List Char → (Nat → WordError) → Prop
  | unclosed {c : Char} {cs : List Char} (hpos : 0 < (LetterKind.ofChar c).maxParameters)
      (hread : readParameters [] cs = none) :
      Refused (c :: '(' :: cs) .missingClosingParenthesis
  | excess {c : Char} {cs rest : List Char} {parameters : List String}
      (hpos : 0 < (LetterKind.ofChar c).maxParameters)
      (hread : readParameters [] cs = some (parameters, rest))
      (hcount : (LetterKind.ofChar c).maxParameters < parameters.length) :
      Refused (c :: '(' :: cs) fun offset =>
        .tooManyParameters offset parameters.length (LetterKind.ofChar c).maxParameters

theorem readFrom_nil : readFrom stop [] = .ok [] := by rw [readFrom.eq_def]

theorem readFrom_blank (h : Text.isBlank c = true) :
    readFrom stop (c :: cs) = readFrom stop cs := by
  rw [readFrom.eq_def]
  exact if_pos h

theorem following_of_bare {kind : LetterKind} (h : kind.maxParameters = 0 ∨ cs.head? ≠ some '(') :
    following kind cs = .bare := by
  unfold following
  split
  · rfl
  · next hpos =>
      split
      · exact absurd rfl (h.resolve_left hpos)
      · rfl

theorem following_of_read {kind : LetterKind} (hpos : 0 < kind.maxParameters)
    (h : readParameters [] cs = some (parameters, rest)) :
    following kind ('(' :: cs) = .list parameters rest := by
  rw [following, if_neg (Nat.ne_of_gt hpos), h]

/-- A text is read letter by letter. -/
theorem readFrom_of_starts (h : Starts cs l rest) :
    readFrom stop cs = (readFrom stop rest).map (l :: ·) := by
  cases h with
  | run hblank hkind =>
      rw [readFrom.eq_def]
      dsimp only
      rw [if_neg (by simp [hblank]), if_pos hkind, hkind]
      cases readFrom stop _ <;> rfl
  | bare hkind hbare =>
      rw [readFrom.eq_def]
      dsimp only
      rw [if_neg (by simp [LetterKind.isBlank_of_ofChar_ne hkind]), if_neg hkind]
      have hfollowing := following_of_bare hbare
      split
      · cases readFrom stop _ <;> rfl
      · next hf =>
          rw [hfollowing] at hf
          cases hf
      · next hf =>
          rw [hfollowing] at hf
          cases hf
  | list hkind hparameters hcount hpos =>
      rw [readFrom.eq_def]
      dsimp only
      rw [if_neg (by simp [LetterKind.isBlank_of_ofChar_ne hkind]), if_neg hkind]
      have hfollowing := following_of_read hpos hparameters
      split
      · next hf =>
          rw [hfollowing] at hf
          cases hf
      · next hf =>
          rw [hfollowing] at hf
          cases hf
      · next hf =>
          rw [hfollowing] at hf
          cases hf
          rw [if_neg (Nat.not_lt.2 hcount)]
          cases readFrom stop _ <;> rfl

/-- A letter with parameters means something to the turtle. -/
theorem ofChar_ne_characters (h : 0 < (LetterKind.ofChar c).maxParameters) :
    LetterKind.ofChar c ≠ .characters := by
  intro hkind
  rw [hkind] at h
  exact Nat.lt_irrefl 0 h

/-- A letter that is refused ends the reading, whatever follows it. -/
theorem readFrom_of_refused {e : Nat → WordError} (h : Refused cs e) :
    readFrom stop cs = .error (e (stop - byteLength cs)) := by
  cases h with
  | @unclosed c cs hpos hread =>
      have hkind := ofChar_ne_characters hpos
      have hfollowing : following (LetterKind.ofChar c) ('(' :: cs) = .unclosed := by
        rw [following, if_neg (Nat.ne_of_gt hpos), hread]
      rw [readFrom.eq_def]
      dsimp only
      rw [if_neg (by simp [LetterKind.isBlank_of_ofChar_ne hkind]), if_neg hkind]
      split
      · next hf =>
          rw [hfollowing] at hf
          cases hf
      · rfl
      · next hf =>
          rw [hfollowing] at hf
          cases hf
  | excess hpos hread hcount =>
      have hkind := ofChar_ne_characters hpos
      have hfollowing := following_of_read hpos hread
      rw [readFrom.eq_def]
      dsimp only
      rw [if_neg (by simp [LetterKind.isBlank_of_ofChar_ne hkind]), if_neg hkind]
      split
      · next hf =>
          rw [hfollowing] at hf
          cases hf
      · next hf =>
          rw [hfollowing] at hf
          cases hf
      · next hf =>
          rw [hfollowing] at hf
          cases hf
          rw [if_pos hcount]

/-- A text that starts with no blank starts with a letter, or with one that is
refused. -/
theorem starts_or_refused (cs : List Char) (hblank : Text.isBlank c = false) :
    (∃ l rest, Starts (c :: cs) l rest) ∨ ∃ e, Refused (c :: cs) e := by
  by_cases hkind : LetterKind.ofChar c = .characters
  · exact .inl ⟨_, _, .run hblank hkind⟩
  · by_cases hbare : (LetterKind.ofChar c).maxParameters = 0 ∨ cs.head? ≠ some '('
    · exact .inl ⟨_, _, .bare hkind hbare⟩
    · obtain ⟨hpos, hopen⟩ := not_or.1 hbare
      have hpos := Nat.pos_of_ne_zero hpos
      obtain ⟨inner, rfl⟩ := List.head?_eq_some_iff.1 (not_not.1 hopen)
      cases hread : readParameters [] inner with
      | none => exact .inr ⟨_, .unclosed hpos hread⟩
      | some read =>
          by_cases hcount : read.1.length ≤ (LetterKind.ofChar c).maxParameters
          · exact .inl ⟨_, _, .list hkind hread hcount hpos⟩
          · exact .inr ⟨_, .excess hpos hread (Nat.lt_of_not_le hcount)⟩

/-- A letter that was read is followed by what was read behind it. -/
theorem ok_of_starts (hstarts : Starts cs l rest) (h : readFrom stop cs = .ok w) :
    ∃ more, w = l :: more ∧ readFrom stop rest = .ok more := by
  rw [readFrom_of_starts hstarts] at h
  cases hmore : readFrom stop rest with
  | error e =>
      rw [hmore] at h
      cases h
  | ok more =>
      rw [hmore] at h
      cases h
      exact ⟨more, rfl, rfl⟩

theorem exists_starts (hblank : Text.isBlank c = false) (h : readFrom stop (c :: cs) = .ok w) :
    ∃ l rest more, w = l :: more ∧ Starts (c :: cs) l rest ∧ readFrom stop rest = .ok more := by
  rcases starts_or_refused cs hblank with ⟨l, rest, hstarts⟩ | ⟨e, hrefused⟩
  · obtain ⟨more, hw, hmore⟩ := ok_of_starts hstarts h
    exact ⟨l, rest, more, hw, hstarts, hmore⟩
  · rw [readFrom_of_refused hrefused] at h
    cases h

namespace Starts

theorem suffix (h : Starts cs l rest) : rest <:+ cs := by
  cases h with
  | run => exact (List.dropWhile_suffix _).trans (List.suffix_cons _ _)
  | bare => exact List.suffix_cons _ _
  | list hkind hread =>
      have hinner := suffix_of_readParameters hread
      exact (hinner.trans (List.suffix_cons _ _)).trans (List.suffix_cons _ _)

theorem lexable (h : Starts cs l rest) : l.Lexable := by
  cases h with
  | @run c cs hblank hkind =>
      refine ⟨⟨?_, ?_⟩, Nat.zero_le _, nofun⟩
      · rw [String.toList_ofList]
        exact List.cons_ne_nil _ _
      · rw [String.toList_ofList]
        intro d hd
        rcases List.mem_cons.1 hd with rfl | hd
        · exact ⟨hblank, hkind⟩
        · simpa [continuesRun] using List.mem_takeWhile_imp hd
  | @bare c _ hkind _ =>
      refine ⟨?_, Nat.zero_le _, nofun⟩
      rw [LetterKind.Spells, if_neg hkind, String.toList_ofList]
      exact ⟨c, rfl, rfl⟩
  | @list c _ _ _ hkind hread hcount _ =>
      refine ⟨?_, hcount, isParameter_of_readParameters (.inl rfl) hread⟩
      rw [LetterKind.Spells, if_neg hkind, String.toList_ofList]
      exact ⟨c, rfl, rfl⟩

/-- A letter takes no more room than it was read from. -/
theorem length_le (h : Starts cs l rest) : l.chars.length + rest.length ≤ cs.length := by
  cases h with
  | @run c cs =>
      have hsplit :=
        congrArg List.length (List.takeWhile_append_dropWhile (p := continuesRun) (l := cs))
      simp only [List.length_append] at hsplit
      rw [chars_of_parameters rfl, String.toList_ofList, List.length_cons, List.length_cons]
      omega
  | bare =>
      rw [chars_of_parameters rfl, String.toList_ofList, List.length_singleton, List.length_cons]
      omega
  | list hkind hread =>
      have hlength := length_intercalate_of_readParameters hread
      rw [List.length_nil, Nat.zero_add] at hlength
      simp only [Letter.chars, Letter.withParameters, String.toList_ofList]
      split
      · simp only [List.length_cons, List.length_nil]
        omega
      · simp only [List.cons_append, List.nil_append, List.length_append, List.length_cons,
          List.length_nil]
        omega

theorem length_lt (h : Starts cs l rest) : rest.length < cs.length := by
  have hle := h.length_le
  have hpos : l.chars ≠ [] := by
    cases h with
    | run => simp [chars_of_parameters]
    | bare => simp [chars_of_parameters]
    | list =>
        simp only [Letter.chars, Letter.withParameters, String.toList_ofList]
        split
        all_goals exact List.cons_ne_nil _ _
  have := List.length_pos_of_ne_nil hpos
  omega

end Starts

/-- What holds of every text, since it holds of none at all, stays true with each
blank and each letter in front, and holds where a letter is refused. -/
theorem text_induction {P : List Char → Prop} (nil : P [])
    (blank : ∀ c cs, Text.isBlank c = true → P cs → P (c :: cs))
    (letter : ∀ cs l rest, Starts cs l rest → P rest → P cs)
    (refused : ∀ cs e, Refused cs e → P cs) (cs : List Char) : P cs := by
  induction hn : cs.length using Nat.strong_induction_on generalizing cs with
  | _ n ih =>
      cases cs with
      | nil => exact nil
      | cons c cs =>
          cases hblank : Text.isBlank c with
          | true =>
              have hlt : cs.length < n := by
                rw [← hn]
                exact Nat.lt_succ_self _
              exact blank c cs hblank (ih cs.length hlt cs rfl)
          | false =>
              rcases starts_or_refused cs hblank with ⟨l, rest, hstarts⟩ | ⟨e, hrefused⟩
              · exact letter _ l rest hstarts (ih rest.length (hn ▸ hstarts.length_lt) rest rfl)
              · exact refused _ e hrefused

/-- What holds of a text and the word that was read from it, since it holds of
no text and no letters and stays true with each blank and each letter in
front. -/
theorem readFrom_induction {P : List Char → Word → Prop} (nil : P [] [])
    (blank : ∀ c cs w, Text.isBlank c = true → P cs w → P (c :: cs) w)
    (letter : ∀ cs l rest more, Starts cs l rest → P rest more → P cs (l :: more))
    (h : readFrom stop cs = .ok w) : P cs w := by
  induction cs using text_induction generalizing w with
  | nil =>
      rw [readFrom_nil] at h
      cases h
      exact nil
  | blank c cs hblank ih =>
      rw [readFrom_blank hblank] at h
      exact blank c cs w hblank (ih h)
  | letter cs l rest hstarts ih =>
      obtain ⟨more, rfl, hmore⟩ := ok_of_starts hstarts h
      exact letter cs l rest more hstarts (ih hmore)
  | refused cs e hrefused =>
      rw [readFrom_of_refused hrefused] at h
      cases h

/-- Whatever is read is a word of letters that can be read. -/
theorem lexable_of_readFrom (h : readFrom stop cs = .ok w) : ∀ l ∈ w, l.Lexable := by
  refine readFrom_induction (P := fun _ w => ∀ l ∈ w, l.Lexable) nofun (fun _ _ _ _ ih => ih)
    (fun cs l rest more hstarts ih m hm => ?_) h
  rcases List.mem_cons.1 hm with rfl | hm
  · exact hstarts.lexable
  · exact ih m hm

/-- A word takes no more room than it was read from. -/
theorem length_chars_of_readFrom (h : readFrom stop cs = .ok w) :
    (chars w).length ≤ cs.length := by
  refine readFrom_induction (P := fun cs w => (chars w).length ≤ cs.length) (Nat.le_refl _)
    (fun _ _ _ _ ih => Nat.le_succ_of_le ih) (fun cs l rest more hstarts ih => ?_) h
  have hle := hstarts.length_le
  rw [chars, List.flatMap_cons, List.length_append]
  rw [chars] at ih
  omega

/-! ## Reading what was written -/

theorem chars_cons (l : Letter) (more : Word) : chars (l :: more) = l.chars ++ chars more :=
  List.flatMap_cons

/-- A letter that can be read is not blank at its start, and shows there whether
it means anything to the turtle. -/
theorem exists_chars (h : l.Lexable) :
    ∃ c cs, l.chars = c :: cs ∧ l.literal.toList.head? = some c ∧ Text.isBlank c = false ∧
      (LetterKind.ofChar c = .characters ↔ l.kind = .characters) := by
  have hchars : ∃ more, l.chars = l.literal.toList ++ more := by
    rw [Letter.chars, Letter.withParameters]
    split
    · exact ⟨[], (List.append_nil _).symm⟩
    · exact ⟨_, List.append_assoc _ _ _⟩
  obtain ⟨more, hmore⟩ := hchars
  have hliteral := h.literal
  rw [LetterKind.Spells] at hliteral
  split at hliteral
  · next hkind =>
      obtain ⟨hne, hall⟩ := hliteral
      obtain ⟨c, cs, hc⟩ := List.exists_cons_of_ne_nil hne
      rw [hc] at hmore hall
      obtain ⟨hblank, hcharacters⟩ := hall c List.mem_cons_self
      exact ⟨c, cs ++ more, hmore, by rw [hc]; rfl, hblank, by simp [hkind, hcharacters]⟩
  · next hkind =>
      obtain ⟨c, hc, hofChar⟩ := hliteral
      rw [hc] at hmore
      rw [← hofChar] at hkind ⊢
      exact ⟨c, more, hmore, by rw [hc]; rfl, LetterKind.isBlank_of_ofChar_ne hkind, Iff.rfl⟩

/-- A run ends where it does not go on. -/
theorem starts_run {literal : List Char} (h : LetterKind.characters.Spells literal)
    (hrest : ∀ d ∈ rest.head?, continuesRun d = false) :
    Starts (literal ++ rest) ⟨.characters, String.ofList literal, []⟩ rest := by
  obtain ⟨hne, hall⟩ := h
  obtain ⟨c, cs, rfl⟩ := List.exists_cons_of_ne_nil hne
  have hcontinues : ∀ d ∈ cs, continuesRun d = true := by
    intro d hd
    obtain ⟨hblank, hkind⟩ := hall d (List.mem_cons_of_mem c hd)
    simp [continuesRun, hblank, hkind]
  obtain ⟨hblank, hkind⟩ := hall c List.mem_cons_self
  have hstarts : Starts (c :: (cs ++ rest)) _ _ := .run hblank hkind
  rwa [Token.takeWhile_append_of_head hrest, Token.dropWhile_append_of_head hrest,
    List.takeWhile_eq_self_iff.2 hcontinues, List.dropWhile_eq_nil_iff.2 hcontinues,
    List.nil_append] at hstarts

/-- A letter of the turtle's ends behind its parameters, or at once where there
are none. -/
theorem starts_symbol (hkind : LetterKind.ofChar c ≠ .characters)
    (hcount : parameters.length ≤ (LetterKind.ofChar c).maxParameters)
    (hparameters : ∀ p ∈ parameters, IsParameter p.toList)
    (hrest : parameters = [] → 0 < (LetterKind.ofChar c).maxParameters → rest.head? ≠ some '(') :
    Starts (Letter.withParameters [c] parameters ++ rest)
      ⟨LetterKind.ofChar c, String.ofList [c], parameters⟩ rest := by
  rw [Letter.withParameters]
  split
  · next hempty =>
      obtain rfl := List.isEmpty_iff.1 hempty
      refine .bare hkind ?_
      by_cases hpos : 0 < (LetterKind.ofChar c).maxParameters
      · exact .inr (hrest rfl hpos)
      · exact .inl (Nat.eq_zero_of_not_pos hpos)
  · next hempty =>
      have hne : parameters ≠ [] := by simpa using hempty
      have hread := readParameters_intercalate hne hparameters rest
      simp only [List.append_assoc, List.cons_append, List.nil_append]
      exact .list hkind hread hcount (Nat.lt_of_lt_of_le (List.length_pos_of_ne_nil hne) hcount)

/-- A letter is found in front of its own text just if what follows does not
belong to it as well. -/
theorem starts_chars_iff (h : l.Lexable) :
    Starts (l.chars ++ rest) l rest ↔
      (l.kind = .characters → ∀ d ∈ rest.head?, continuesRun d = false) ∧
      (l.parameters = [] → 0 < l.kind.maxParameters → rest.head? ≠ some '(') := by
  constructor
  · intro hstarts
    generalize htext : l.chars ++ rest = text at hstarts
    cases hstarts with
    | @run _ cs =>
        refine ⟨fun _ d hd => ?_, fun _ hpos => absurd hpos (Nat.lt_irrefl 0)⟩
        have hstop := List.head?_dropWhile_not continuesRun cs
        rw [Option.mem_def.1 hd] at hstop
        exact hstop
    | bare hkind hbare =>
        exact ⟨fun hcharacters => absurd hcharacters hkind,
          fun _ hpos => hbare.resolve_left (Nat.ne_of_gt hpos)⟩
    | list hkind hread =>
        refine ⟨fun hcharacters => absurd hcharacters hkind, fun hnone _ => ?_⟩
        have hlength := congrArg List.length htext
        have hle := (suffix_of_readParameters hread).length_le
        rw [chars_of_parameters hnone, String.toList_ofList] at hlength
        simp only [List.length_append, List.length_cons, List.length_nil] at hlength
        omega
  · rintro ⟨hrun, hopen⟩
    obtain ⟨kind, literal, parameters⟩ := l
    have hliteral := h.literal
    by_cases hkind : kind = .characters
    · subst hkind
      obtain rfl : parameters = [] := List.eq_nil_of_length_eq_zero (Nat.le_zero.1 h.count)
      have hstarts := starts_run hliteral (hrun rfl)
      rwa [String.ofList_toList] at hstarts
    · rw [LetterKind.Spells, if_neg hkind] at hliteral
      obtain ⟨c, hc, rfl⟩ := hliteral
      have hstarts := starts_symbol hkind h.count h.parameters hopen
      rwa [← hc, String.ofList_toList] at hstarts

/-- What follows a letter is text of the next, if there is one. -/
theorem starts_chars_cons_iff (h : l.Lexable) (hmore : ∀ m ∈ more, m.Lexable) :
    Starts (l.chars ++ chars more) l (chars more) ↔ ∀ m ∈ more.head?, Apart l m := by
  rw [starts_chars_iff h]
  cases more with
  | nil => simp [chars]
  | cons m more =>
      obtain ⟨c, cs, hchars, hhead, hblank, hkind⟩ := exists_chars (hmore m List.mem_cons_self)
      have hrun : continuesRun c = false ↔ m.kind ≠ .characters := by
        rw [ne_eq, ← hkind]
        simp [continuesRun, hblank]
      have hopen : c = '(' ↔ m.kind = .characters ∧ m.literal.toList.head? = some '(' := by
        rw [hhead, Option.some_inj, ← hkind]
        exact ⟨fun hc => ⟨by rw [hc]; rfl, hc⟩, fun hc => hc.2⟩
      simp only [chars_cons, hchars, List.cons_append, List.head?_cons, Option.mem_def,
        Option.some_inj, forall_eq', ne_eq, Apart, hrun, hopen, not_and]

/-- A letter in front of a word is read back just if it stands apart from the
next letter. -/
theorem readFrom_chars_cons (h : l.Lexable) (hmore : ∀ m ∈ more, m.Lexable) :
    readFrom stop (chars (l :: more)) = .ok (l :: more) ↔
      (∀ m ∈ more.head?, Apart l m) ∧ readFrom stop (chars more) = .ok more := by
  rw [← starts_chars_cons_iff h hmore, chars_cons]
  constructor
  · intro hread
    obtain ⟨c, cs, hchars, _, hblank, _⟩ := exists_chars h
    rw [hchars, List.cons_append] at hread
    obtain ⟨l', rest, more', heq, hstarts, hrest⟩ := exists_starts hblank hread
    cases heq
    rw [← List.cons_append, ← hchars] at hstarts
    -- What is left is no shorter than what is read from it, so it is all of that.
    have hle := length_chars_of_readFrom hrest
    have hroom := hstarts.length_le
    rw [List.length_append] at hroom
    obtain rfl : rest = chars more :=
      (List.suffix_of_suffix_length_le hstarts.suffix (List.suffix_append _ _)
        (by omega)).eq_of_length (by omega)
    exact ⟨hstarts, hrest⟩
  · rintro ⟨hstarts, hread⟩
    rw [readFrom_of_starts hstarts, hread]
    rfl

theorem readFrom_chars_iff (h : ∀ l ∈ w, l.Lexable) :
    readFrom stop (chars w) = .ok w ↔ w.IsChain Apart := by
  induction w with
  | nil => simp [chars, readFrom_nil]
  | cons l more ih =>
      rw [readFrom_chars_cons (h l List.mem_cons_self) fun m hm => h m (List.mem_cons_of_mem l hm),
        ih fun m hm => h m (List.mem_cons_of_mem l hm), List.isChain_cons]

/-- The letters of a word that was read are such as can be read. And a word of
such letters is read back from its text just if no two runs of characters
follow each other, and no letter that may have parameters and has none stands in
front of a run that starts with an opening parenthesis. -/
theorem read_text :
    (∀ text w, Word.read text = .ok w → ∀ l ∈ w, l.Lexable) ∧
    ∀ w : Word, (∀ l ∈ w, l.Lexable) → (Word.read w.text = .ok w ↔ w.IsChain Apart) := by
  refine ⟨fun text w h => lexable_of_readFrom h, fun w h => ?_⟩
  rw [Word.read, Word.text, String.toList_ofList]
  exact readFrom_chars_iff h

/-- A parenthesis behind a step of given length starts a run. Behind a step of no
length it starts one too, but there it is read as something else. -/
theorem read_text_step :
    (∀ l ∈ ([⟨.forward, "F", [",5"]⟩, ⟨.characters, "(x)", []⟩] : Word), l.Lexable) ∧
    Word.read "F(,5)(x)" = .ok [⟨.forward, "F", [",5"]⟩, ⟨.characters, "(x)", []⟩] ∧
    (∀ l ∈ ([⟨.forward, "F", []⟩, ⟨.characters, "(x)", []⟩] : Word), l.Lexable) ∧
    Word.read "F(x)" ≠ .ok [⟨.forward, "F", []⟩, ⟨.characters, "(x)", []⟩] := by
  have hrun : Lexable ⟨.characters, "(x)", []⟩ := by
    refine ⟨⟨by decide, List.forall_mem_cons.2 ⟨by decide, List.forall_mem_cons.2 ⟨by decide, ?_⟩⟩⟩,
      by decide, nofun⟩
    exact List.forall_mem_singleton.2 (by decide)
  have hlong : Lexable ⟨.forward, "F", [",5"]⟩ :=
    ⟨⟨'F', by decide, rfl⟩, by decide, by simp [IsParameter]; decide⟩
  have hbare : Lexable ⟨.forward, "F", []⟩ := ⟨⟨'F', by decide, rfl⟩, by decide, nofun⟩
  have hword : ∀ l ∈ ([⟨.forward, "F", [",5"]⟩, ⟨.characters, "(x)", []⟩] : Word), l.Lexable := by
    simp [hrun, hlong]
  have hword' : ∀ l ∈ ([⟨.forward, "F", []⟩, ⟨.characters, "(x)", []⟩] : Word), l.Lexable := by
    simp [hrun, hbare]
  refine ⟨hword, (read_text.2 _ hword).2 ?_, hword', fun h => ?_⟩
  · simp [Apart]
  · have hapart := (read_text.2 _ hword').1 h
    simp [Apart, LetterKind.maxParameters] at hapart

end Word

end Lindenmayer
