import Lindenmayer.Proofs.Juxtaposition

/-!
# What a list of parameters says

Behind a letter that may have parameters, an opening parenthesis starts a list
of them, and the text up to the closing one falls into pieces at its commas. A
blank counts for nothing there, not even between two other characters, so that a
parameter is a piece without any of its blanks, rather than one that was trimmed
(`read_trimmed_fails`). A piece with nothing else in it is no parameter.

This is how a list reads in which no comma comes before there is something for
it to end (`read_parameters`). Such a comma is not said anything about here.
A list that is never closed cannot be read, whatever its commas are.
-/

namespace Lindenmayer

open Lindenmayer.Text
open Shift (shift)

namespace Text

/-- `cs` without any of its blanks. -/
def withoutBlanks (cs : List Char) : List Char := cs.filter fun c => !isBlank c

theorem withoutBlanks_append (cs ds : List Char) :
    withoutBlanks (cs ++ ds) = withoutBlanks cs ++ withoutBlanks ds := List.filter_append ..

theorem withoutBlanks_takeWhile (cs : List Char) : withoutBlanks (cs.takeWhile isBlank) = [] := by
  refine List.filter_eq_nil_iff.2 fun c hc => ?_
  simp [List.mem_takeWhile_imp hc]

theorem withoutBlanks_dropWhile (cs : List Char) :
    withoutBlanks (cs.dropWhile isBlank) = withoutBlanks cs := by
  conv_rhs => rw [← List.takeWhile_append_dropWhile (p := isBlank) (l := cs)]
  rw [withoutBlanks_append, withoutBlanks_takeWhile, List.nil_append]

theorem withoutBlanks_reverse (cs : List Char) :
    withoutBlanks cs.reverse = (withoutBlanks cs).reverse := List.filter_reverse ..

/-- Trimming is enough where no blank stands inside. -/
theorem withoutBlanks_eq_trim {cs : List Char} (h : ∀ c ∈ trim cs, isBlank c = false) :
    withoutBlanks cs = trim cs := by
  have hkept : withoutBlanks (trim cs) = trim cs :=
    List.filter_eq_self.2 fun c hc => by simp [h c hc]
  rw [← hkept, trim, withoutBlanks_reverse, withoutBlanks_dropWhile, withoutBlanks_reverse,
    withoutBlanks_dropWhile, List.reverse_reverse]

/-- No piece of a text has the character in it that the text was split at. -/
theorem not_mem_of_mem_splitOn {a : Char} {cs p : List Char} (h : p ∈ cs.splitOn a) : a ∉ p := by
  rw [List.splitOn_eq_splitOnP] at h
  induction cs generalizing p with
  | nil =>
      rw [List.splitOnP_nil, List.mem_singleton] at h
      rw [h]
      exact List.not_mem_nil
  | cons c cs ih =>
      rw [List.splitOnP_cons_eq_if_modifyHead] at h
      split at h
      · rcases List.mem_cons.1 h with rfl | h
        · exact List.not_mem_nil
        · exact ih h
      · next hne =>
          cases hpieces : cs.splitOnP (· == a) with
          | nil =>
              rw [hpieces] at h
              cases h
          | cons q qs =>
              rw [hpieces, List.modifyHead_cons] at h
              rcases List.mem_cons.1 h with rfl | h
              · have hq := ih (hpieces ▸ List.mem_cons_self)
                exact fun hmem => (List.mem_cons.1 hmem).elim (fun heq => hne (by simp [heq])) hq
              · exact ih (hpieces ▸ List.mem_cons_of_mem q h)

end Text

namespace Word

variable {stop : Nat} {c : Char} {body current rest : List Char} {pieces : List (List Char)}

/-- The parameters that pieces of text are: those that are not empty. -/
def parametersOf (pieces : List (List Char)) : List String :=
  (pieces.filter fun p => !p.isEmpty).map String.ofList

/-- The parameters in a list: what is left of the pieces between its commas, save
where nothing is left. -/
def listed (clean : List Char → List Char) (body : List Char) : List String :=
  parametersOf ((body.splitOn ',').map clean)

theorem parametersOf_singleton (p : List Char) :
    parametersOf [p] = if p.isEmpty then [] else [String.ofList p] := by
  rw [parametersOf, List.filter_singleton]
  cases p.isEmpty <;> rfl

theorem parametersOf_cons {p : List Char} (h : p ≠ []) :
    parametersOf (p :: pieces) = String.ofList p :: parametersOf pieces := by
  rw [parametersOf, List.filter_cons_of_pos (by simpa using h), List.map_cons, parametersOf]

/-- What a text reads as that is one letter with parameters, of which it may have
one. -/
def alone (c : Char) (parameters : List String) : Except WordError Word :=
  if 1 < parameters.length then .error (.tooManyParameters 0 parameters.length 1)
  else .ok [⟨LetterKind.ofChar c, String.ofList [c], parameters⟩]

/-! ## A list up to its end -/

/-- What the pieces of a text leave, where all but the last leave something. -/
theorem readParameters_pieces (hne : pieces ≠ []) (hcomma : ∀ p ∈ pieces, ',' ∉ p)
    (hclose : ')' ∉ [','].intercalate pieces)
    (hfull : ∀ p ∈ pieces.dropLast, withoutBlanks p ≠ []) :
    readParameters [] ([','].intercalate pieces ++ ')' :: rest) =
      some (parametersOf (pieces.map withoutBlanks), rest) := by
  have hpiece : ∀ {p : List Char}, ')' ∉ p → ',' ∉ p → ∀ cs : List Char,
      readParameters [] (p ++ cs) = readParameters (withoutBlanks p) cs := by
    intro p hclose hcomma cs
    rw [readParameters_append, List.nil_append, withoutBlanks]
    exact fun d hd => ⟨fun h => hclose (h ▸ hd), fun h => hcomma (h ▸ hd)⟩
  induction pieces with
  | nil => exact absurd rfl hne
  | cons p more ih =>
      cases more with
      | nil =>
          rw [List.intercalate_singleton] at hclose ⊢
          rw [hpiece hclose (hcomma p List.mem_cons_self), readParameters, List.map_singleton,
            parametersOf_singleton]
      | cons q more =>
          rw [List.intercalate_cons_cons, List.append_assoc] at hclose ⊢
          obtain ⟨hp, hmore⟩ := not_or.1 (mt List.mem_append.2 hclose)
          have hleft : withoutBlanks p ≠ [] := hfull p List.mem_cons_self
          have hrest := ih (List.cons_ne_nil q more)
            (fun r hr => hcomma r (List.mem_cons_of_mem p hr))
            (fun h => hmore (List.mem_cons_of_mem ',' h))
            fun r hr => hfull r (List.mem_cons_of_mem p hr)
          rw [List.append_assoc, hpiece hp (hcomma p List.mem_cons_self),
            List.singleton_append, readParameters_comma hleft, hrest, Option.map_some,
            List.map_cons (a := p), parametersOf_cons hleft]

/-- A list that was read to its end was closed. -/
theorem mem_of_readsList {parameters : List String} (h : ReadsList current body parameters rest) :
    ')' ∈ body := by
  induction h with
  | empty | last => exact List.mem_cons_self
  | comma _ _ ih | blank _ _ ih | char _ _ _ _ ih => exact List.mem_cons_of_mem _ ih

theorem readParameters_of_not_closed (h : ')' ∉ body) : readParameters current body = none :=
  Option.eq_none_iff_forall_ne_some.2 fun _ hread =>
    h (mem_of_readsList (readParameters_eq_some_iff.1 hread))

/-! ## A letter with its list -/

theorem maxParameters_eq_one {kind : LetterKind} (h : 0 < kind.maxParameters) :
    kind.maxParameters = 1 := by
  cases kind with
  | drawCircle | drawFilledCircle | forward | forwardNoDraw | rotateLeft | rotateRight => rfl
  | pushState | popState | colorGreen | colorBlue | colorRed | characters =>
      exact absurd h (Nat.lt_irrefl 0)

/-- A text that is a letter and its list reads as what the list says. -/
theorem read_alone (hpos : 0 < (LetterKind.ofChar c).maxParameters) {parameters : List String}
    (h : readParameters [] (body ++ [')']) = some (parameters, [])) :
    read (String.ofList (c :: '(' :: body ++ [')'])) = alone c parameters := by
  have hkind := ofChar_ne_characters hpos
  have hmax := maxParameters_eq_one hpos
  rw [read, utf8ByteSize_eq, String.toList_ofList, alone, List.cons_append, List.cons_append]
  split
  · next hcount =>
      rw [readFrom_of_refused (.excess hpos h (hmax ▸ hcount)), Nat.sub_self, hmax]
  · next hcount =>
      rw [readFrom_of_starts (.list hkind h (hmax ▸ Nat.le_of_not_lt hcount) hpos), readFrom_nil]
      rfl

/-- A letter of the turtle's goes on no run. -/
theorem not_continuesRun (h : LetterKind.ofChar c ≠ .characters) : continuesRun c = false := by
  simp [continuesRun, h]

/-- A list says what its pieces say without their blanks, and less those that have
nothing else, if only the last is such a piece; and one parameter is the most that
there may be. Where no blank stands inside a piece, that is to say what its pieces
say when they are trimmed. A list that is never closed is reported of its letter. -/
theorem read_parameters (hpos : 0 < (LetterKind.ofChar c).maxParameters) (hclose : ')' ∉ body) :
    ((∀ p ∈ (body.splitOn ',').dropLast, withoutBlanks p ≠ []) →
      read (String.ofList (c :: '(' :: body ++ [')'])) = alone c (listed withoutBlanks body) ∧
      ((∀ p ∈ body.splitOn ',', ∀ d ∈ trim p, Text.isBlank d = false) →
        listed withoutBlanks body = listed trim body)) ∧
    ∀ s w, read s = .ok w →
      read (s ++ String.ofList (c :: '(' :: body)) =
        .error (.missingClosingParenthesis s.utf8ByteSize) := by
  refine ⟨fun hfull => ⟨read_alone hpos ?_, fun hinside => ?_⟩, fun s w hs => ?_⟩
  · have hpieces : readParameters [] ([','].intercalate (body.splitOn ',') ++ [')']) = some _ :=
      readParameters_pieces (List.splitOn_ne_nil ',' body)
        (fun p hp => not_mem_of_mem_splitOn hp) (by rwa [List.intercalate_splitOn]) hfull
    rwa [List.intercalate_splitOn] at hpieces
  · rw [listed, listed, List.map_congr_left fun p hp => withoutBlanks_eq_trim (hinside p hp)]
  · have hrefused : Refused (c :: '(' :: body) _ :=
      .unclosed hpos (readParameters_of_not_closed hclose)
    have hstops : ∀ d ∈ (c :: '(' :: body).head?, continuesRun d = false := by
      intro d hd
      rw [← Option.some.inj hd]
      exact not_continuesRun (ofChar_ne_characters hpos)
    rw [read, String.toList_append, String.toList_ofList, readFrom_append hs hstops,
      readFrom_of_refused hrefused, String.utf8ByteSize_append, utf8ByteSize_eq (String.ofList _),
      String.toList_ofList, Nat.add_sub_cancel]
    rfl

/-- A parameter is not what is left of a piece when it is trimmed: a blank inside is
dropped as well. -/
theorem read_trimmed_fails :
    ¬ ∀ (c : Char) (body : List Char), 0 < (LetterKind.ofChar c).maxParameters → ')' ∉ body →
      read (String.ofList (c :: '(' :: body ++ [')'])) = alone c (listed trim body) := by
  intro h
  have hblank := h 'F' ['1', ' ', '2'] (by decide) (by decide)
  have hread : read (String.ofList ['F', '(', '1', ' ', '2', ')']) =
      .ok [⟨.forward, "F", ["12"]⟩] :=
    (readFrom_of_starts (.list (by decide) rfl (by decide) (by decide))).trans
      (congrArg _ readFrom_nil)
  have htrim : alone 'F' (listed trim ['1', ' ', '2']) = .ok [⟨.forward, "F", ["1 2"]⟩] := rfl
  rw [htrim] at hblank
  have hsame := Except.ok.inj (hread.symm.trans hblank)
  exact absurd hsame (by decide)

/-- Three lists: one with a blank inside and nothing behind its comma, one of two
parameters, and one that is not closed behind a letter of two bytes. -/
theorem read_parameters_turn :
    read "+( 1 0 ,\t)" = .ok [⟨.rotateLeft, "+", ["10"]⟩] ∧
    read "c(1 , 2)" = .error (.tooManyParameters 0 2 1) ∧
    read "ä" = .ok [⟨.characters, "ä", []⟩] ∧
    read "äF(1, 2" = .error (.missingClosingParenthesis 2) := by
  have hone := (@read_parameters '+' [' ', '1', ' ', '0', ' ', ',', '\t'] (by decide)
    (by decide)).1 (by decide)
  have htwo := (@read_parameters 'c' ['1', ' ', ',', ' ', '2'] (by decide)
    (by decide)).1 (by decide)
  have hrun : read "ä" = .ok [⟨.characters, "ä", []⟩] :=
    (readFrom_of_starts (.run (by decide) (by decide))).trans (congrArg _ readFrom_nil)
  have hopen := (@read_parameters 'F' ['1', ',', ' ', '2'] (by decide)
    (by decide)).2 "ä" _ hrun
  exact ⟨hone.1.trans rfl, htwo.1.trans rfl, hrun, hopen⟩

end Word

end Lindenmayer
