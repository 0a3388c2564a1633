import Lindenmayer.Proofs.CharReader
import Lindenmayer.Proofs.Shifting
import Lindenmayer.Proofs.Spelling

/-!
# Words side by side

A text that can be read is read the same when another text stands behind it, so
long as that does not go on its last run of characters or open parameters for
its last letter. Both begin with a character that continues a run, and so what
is asked of the text behind is only that it begins with no such character
(`readFrom_append`). A blank is none; nor is a letter of the turtle's.

What stands behind is then read as if it were alone, but for the places that
are reported of it. `readFrom_shift` is about those: a place is counted from the
end of the text, so that a text with more in front of it is one with a later
end.
-/

namespace Lindenmayer

open Lindenmayer.Text
open Shift (shift)

instance : Shift WordError where
  shift d
    | .missingClosingParenthesis offset => .missingClosingParenthesis (offset + d)
    | .tooManyParameters offset count max => .tooManyParameters (offset + d) count max
    | e => e

/-- The place that an error is reported of, for the errors that have one. -/
def WordError.offset? : WordError → Option Nat
  | .missingClosingParenthesis offset => some offset
  | .tooManyParameters offset _ _ => some offset
  | _ => none

namespace Word

variable {stop : Nat} {cs rest more current : List Char} {parameters : List String}
  {w : Word} {l : Letter} {e : Nat → WordError}

/-! ## A text in front of another -/

theorem readParameters_in_front (h : readParameters current cs = some (parameters, rest))
    (more : List Char) :
    readParameters current (cs ++ more) = some (parameters, rest ++ more) := by
  rw [readParameters_eq_some_iff] at h ⊢
  induction h with
  | empty => exact .empty
  | last hne => exact .last hne
  | comma hne _ ih => exact .comma hne ih
  | blank hblank _ ih => exact .blank hblank ih
  | char hblank hclose hcomma _ ih => exact .char hblank hclose hcomma ih

/-- A parenthesis that opens parameters would continue a run. -/
theorem ne_parenthesis_of_not_continuesRun (h : ∀ d ∈ more.head?, continuesRun d = false) :
    more.head? ≠ some '(' := by
  intro hopen
  have hrun := h '(' hopen
  revert hrun
  decide

/-- A letter ends where it did, if what follows the text does not go on a run. -/
theorem Starts.in_front (h : Starts cs l rest) (hmore : ∀ d ∈ more.head?, continuesRun d = false) :
    Starts (cs ++ more) l (rest ++ more) := by
  cases h with
  | @run c cs hblank hkind =>
      rw [List.cons_append, ← Token.takeWhile_append_of_head hmore,
        ← Token.dropWhile_append_of_head hmore]
      exact .run hblank hkind
  | bare hkind hbare =>
      refine .bare hkind (hbare.imp_right fun hopen => ?_)
      cases rest with
      | nil => exact ne_parenthesis_of_not_continuesRun hmore
      | cons d rest => exact hopen
  | list hkind hread hcount hpos =>
      exact .list hkind (readParameters_in_front hread more) hcount hpos

/-- A text that can be read is read the same in front of another. -/
theorem readFrom_append (h : readFrom stop cs = .ok w)
    (hmore : ∀ d ∈ more.head?, continuesRun d = false) (stop' : Nat) :
    readFrom stop' (cs ++ more) = (readFrom stop' more).map (w ++ ·) := by
  refine readFrom_induction
    (P := fun cs w => readFrom stop' (cs ++ more) = (readFrom stop' more).map (w ++ ·))
    ?_ (fun c cs w hblank ih => ?_) (fun cs l rest w hstarts ih => ?_) h
  · rw [List.nil_append]
    cases readFrom stop' more <;> rfl
  · rw [List.cons_append, readFrom_blank hblank, ih]
  · rw [readFrom_of_starts (hstarts.in_front hmore), ih]
    cases readFrom stop' more <;> rfl

/-! ## A text behind another -/

theorem readFrom_blanks {blanks : List Char} (h : ∀ c ∈ blanks, Text.isBlank c = true) :
    readFrom stop (blanks ++ cs) = readFrom stop cs := by
  induction blanks with
  | nil => rw [List.nil_append]
  | cons c blanks ih =>
      rw [List.cons_append, readFrom_blank (h c List.mem_cons_self),
        ih fun d hd => h d (List.mem_cons_of_mem c hd)]

theorem byteLength_le_of_suffix (h : rest <:+ cs) : byteLength rest ≤ byteLength cs := by
  obtain ⟨front, rfl⟩ := h
  rw [byteLength_append]
  exact Nat.le_add_left _ _

/-- What is refused is refused in a place. -/
theorem Refused.shift (h : Refused cs e) (offset d : Nat) :
    e (offset + d) = Shift.shift d (e offset) := by
  cases h with
  | unclosed => rfl
  | excess => rfl

theorem Refused.offset? (h : Refused cs e) (offset : Nat) : (e offset).offset? = some offset := by
  cases h with
  | unclosed => rfl
  | excess => rfl

/-- A text that ends later is read the same, and what is wrong with it is
reported of a later place. -/
theorem readFrom_shift (h : byteLength cs ≤ stop) (d : Nat) :
    readFrom (stop + d) cs = (readFrom stop cs).mapError (shift d) := by
  induction cs using text_induction with
  | nil => rw [readFrom_nil, readFrom_nil]; rfl
  | blank c cs hblank ih =>
      rw [readFrom_blank hblank, readFrom_blank hblank]
      exact ih (Nat.le_trans (byteLength_le_of_suffix (List.suffix_cons c cs)) h)
  | letter cs l rest hstarts ih =>
      rw [readFrom_of_starts hstarts, readFrom_of_starts hstarts,
        ih (Nat.le_trans (byteLength_le_of_suffix hstarts.suffix) h)]
      cases readFrom stop rest <;> rfl
  | refused cs e hrefused =>
      rw [readFrom_of_refused hrefused, readFrom_of_refused hrefused, Nat.sub_add_comm h,
        hrefused.shift]
      rfl

/-- Whatever is wrong with a text is wrong in a place. -/
theorem offset?_of_readFrom {e : WordError} (h : readFrom stop cs = .error e) :
    ∃ offset, e.offset? = some offset := by
  induction cs using text_induction with
  | nil =>
      rw [readFrom_nil] at h
      cases h
  | blank c cs hblank ih =>
      rw [readFrom_blank hblank] at h
      exact ih h
  | letter cs l rest hstarts ih =>
      rw [readFrom_of_starts hstarts] at h
      cases hmore : readFrom stop rest with
      | error e' =>
          rw [hmore] at h
          cases h
          exact ih hmore
      | ok more =>
          rw [hmore] at h
          cases h
  | refused cs e hrefused =>
      rw [readFrom_of_refused hrefused] at h
      cases h
      exact ⟨_, hrefused.offset? _⟩

/-! ## Texts with blanks between them -/

/-- Behind a text that can be read and blanks, a text is read by itself. -/
theorem read_append_blanks {s blanks t : String} (hne : blanks ≠ "")
    (hblanks : ∀ c ∈ blanks.toList, Text.isBlank c = true) (hs : read s = .ok w) :
    read (s ++ blanks ++ t) =
      ((read t).mapError (shift (s ++ blanks).utf8ByteSize)).map (w ++ ·) := by
  have hstops : ∀ d ∈ (blanks.toList ++ t.toList).head?, continuesRun d = false := by
    intro d hd
    obtain ⟨c, cs, hcs⟩ := List.exists_cons_of_ne_nil
      (fun h => hne (String.toList_eq_nil_iff.1 h) : blanks.toList ≠ [])
    rw [hcs] at hd hblanks
    obtain rfl : c = d := Option.some.inj hd
    rw [continuesRun, hblanks c List.mem_cons_self]
    rfl
  rw [read, String.toList_append, String.toList_append, List.append_assoc,
    readFrom_append hs hstops, readFrom_blanks hblanks, String.utf8ByteSize_append,
    Nat.add_comm _ t.utf8ByteSize, readFrom_shift (Nat.le_of_eq (utf8ByteSize_eq t).symm)]
  rfl

/-- Texts with blanks between them are read one by one. The words are put
together; and what is wrong with the second text is wrong with both, as many
bytes further down as there are in front of it. -/
theorem read_apart {s blanks t : String} {a : Word} (hne : blanks ≠ "")
    (hblanks : ∀ c ∈ blanks.toList, Text.isBlank c = true) (hs : read s = .ok a) :
    (∀ b, read t = .ok b → read (s ++ blanks ++ t) = .ok (a ++ b)) ∧
    ∀ e, read t = .error e → ∃ offset, e.offset? = some offset ∧
      read (s ++ blanks ++ t) = .error (shift (s ++ blanks).utf8ByteSize e) ∧
      (shift (s ++ blanks).utf8ByteSize e).offset? =
        some (offset + (s ++ blanks).utf8ByteSize) := by
  rw [read_append_blanks hne hblanks hs]
  refine ⟨fun b ht => ?_, fun e ht => ?_⟩
  · rw [ht]
    rfl
  · obtain ⟨offset, hoffset⟩ := offset?_of_readFrom ht
    refine ⟨offset, hoffset, by rw [ht]; rfl, ?_⟩
    cases e with
    | missingClosingParenthesis => cases hoffset; rfl
    | tooManyParameters => cases hoffset; rfl
    | _ => cases hoffset

/-- Without the blank, which is three bytes long, the parenthesis would open
parameters of the step. -/
theorem read_apart_em_space :
    read "F" = .ok [⟨.forward, "F", []⟩] ∧
    read "(x)" = .ok [⟨.characters, "(x)", []⟩] ∧
    read "F\u2003(x)" = .ok [⟨.forward, "F", []⟩, ⟨.characters, "(x)", []⟩] ∧
    read "F(x)" = .ok [⟨.forward, "F", ["x"]⟩] ∧
    read "[F(2" = .error (.missingClosingParenthesis 1) ∧
    read "F\u2003[F(2" = .error (.missingClosingParenthesis 5) := by
  have hs : read "F" = .ok [⟨.forward, "F", []⟩] :=
    (readFrom_of_starts (.bare (by decide) (.inr (by decide)))).trans (congrArg _ readFrom_nil)
  have hword : read "(x)" = .ok [⟨.characters, "(x)", []⟩] :=
    (readFrom_of_starts (.run (by decide) (by decide))).trans (congrArg _ readFrom_nil)
  have hlist : read "F(x)" = .ok [⟨.forward, "F", ["x"]⟩] :=
    (readFrom_of_starts (.list (by decide) rfl (by decide) (by decide))).trans
      (congrArg _ readFrom_nil)
  have hopen : read "[F(2" = .error (.missingClosingParenthesis 1) :=
    (readFrom_of_starts (.bare (by decide) (.inl rfl))).trans
      (congrArg _ (readFrom_of_refused (.unclosed (by decide) rfl)))
  have hne : "\u2003" ≠ "" := by decide
  have hblank : ∀ c ∈ "\u2003".toList, Text.isBlank c = true :=
    List.forall_mem_singleton.2 (by decide)
  obtain ⟨_, _, herror, _⟩ := (read_apart hne hblank hs).2 _ hopen
  exact ⟨hs, hword, (read_apart hne hblank hs).1 _ hword, hlist, hopen, herror⟩

end Word

end Lindenmayer
