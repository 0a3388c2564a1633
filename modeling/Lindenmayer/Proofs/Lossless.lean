import Lindenmayer.Proofs.CharReader

/-!
# Nothing is lost between tokens

Reading a source text to the end, with blanks handed out like everything else,
gives its tokens, and these are the text cut into pieces: none is empty, put
together they are the text, and each starts where the one before it stops.
Reading it with blanks passed over gives the same tokens without the blank ones,
and not others, although blanks are passed over before anything is known about
tokens (`tokens_lossless`).

`readsAll_filter` says what is read to the end from any stream. It is an
induction on the tokens left, where a blank that is passed over makes no
difference to what the stream answers.
-/

namespace Lindenmayer

open Lindenmayer.Text

namespace Text

/-- What stands between two texts is between their bytes. -/
theorem sliceBytes_append (front middle back : List Char) :
    sliceBytes (byteLength front) (byteLength front + byteLength middle)
      (front ++ (middle ++ back)) = middle := by
  rw [sliceBytes, cutBytes_byteLength, Nat.add_sub_cancel_left, cutBytes_byteLength]

end Text

namespace Token

theorem text_ne_of_mem_scanFrom {offset : Nat} {cs : List Char} {t : Token}
    (h : t ∈ scanFrom offset cs) : t.text ≠ "" := by
  obtain ⟨c, w, hw, _⟩ := lexeme_of_isLexeme (lexical_of_mem_scanFrom h)
  intro hempty
  simp [hempty] at hw

/-- A token starts behind the bytes of those in front of it. -/
theorem offset_of_scanFrom {offset : Nat} {cs : List Char} {front back : List Token} {t : Token}
    (h : scanFrom offset cs = front ++ t :: back) :
    t.offset = offset + byteLength (front.flatMap fun t => t.text.toList) := by
  induction front generalizing offset cs with
  | nil =>
      cases cs with
      | nil => simp [scanFrom] at h
      | cons c cs =>
          rw [scanFrom_cons] at h
          have hfirst := (List.cons.inj h).1
          simp [← hfirst]
  | cons first front ih =>
      cases cs with
      | nil => simp [scanFrom] at h
      | cons c cs =>
          rw [scanFrom_cons, List.cons_append] at h
          obtain ⟨hfirst, hrest⟩ := List.cons.inj h
          rw [ih hrest, List.flatMap_cons, byteLength_append, ← hfirst, String.toList_ofList]
          omega

theorem join_scan (source : String) : String.join ((scan source).map text) = source := by
  rw [← String.toList_inj, String.toList_join, List.flatMap_map]
  exact flatMap_text_scanFrom 0 source.toList

/-- A token covers its own text. -/
theorem sliceBytes_of_scan {source : String} {front back : List Token} {t : Token}
    (h : scan source = front ++ t :: back) :
    sliceBytes t.offset (t.offset + t.text.utf8ByteSize) source.toList = t.text.toList := by
  have htexts := flatMap_text_scanFrom 0 source.toList
  rw [show scanFrom 0 source.toList = _ from h, List.flatMap_append, List.flatMap_cons] at htexts
  rw [offset_of_scanFrom h, Nat.zero_add, utf8ByteSize_eq, ← htexts, sliceBytes_append]

end Token

/-! ## Reading to the end -/

/-- How a run to the end begins is all there is to it. -/
theorem ReadsAll.congr {σ : Type} {reply : σ → Call → Answer × σ} {s s' : σ} {ts : List Token}
    (heq : reply s .atEnd = reply s' .atEnd) (h : ReadsAll reply s' ts) : ReadsAll reply s ts := by
  cases h with
  | done hend => exact .done (heq.trans hend)
  | more hend hnext h => exact .more (heq.trans hend) hnext h

namespace TokenStream

/-- What is read to the end is what is left, save for the blanks that are passed
over. -/
theorem readsAll_filter (stop : Nat) (skipping : Bool) (ts : List Token) :
    ReadsAll reply ⟨ts, stop, skipping, false⟩ (ts.filter fun t => !(skipping && t.isBlank)) := by
  induction ts with
  | nil =>
      have hnil : (settle ⟨[], stop, skipping, false⟩).rest = [] := by simp [settle]
      exact .done (by rw [reply, atEnd_of_nil hnil])
  | cons t ts ih =>
      by_cases hpassed : (skipping && t.isBlank) = true
      · have hsettle : settle ⟨t :: ts, stop, skipping, false⟩ =
            settle ⟨ts, stop, skipping, false⟩ := by
          simp only [Bool.and_eq_true] at hpassed
          simp [settle, hpassed.1, List.dropWhile_cons_of_pos hpassed.2]
        rw [List.filter_cons_of_neg (by simp [hpassed])]
        exact ih.congr (by simp only [reply, atEnd, hsettle])
      · have hsettle : settle ⟨t :: ts, stop, skipping, false⟩ =
            ⟨t :: ts, stop, skipping, false⟩ := by
          cases skipping with
          | false => rfl
          | true => simp [settle, List.dropWhile_cons_of_neg (by simpa using hpassed)]
        have hrest : (settle ⟨t :: ts, stop, skipping, false⟩).rest = t :: ts := by rw [hsettle]
        have hend : reply ⟨t :: ts, stop, skipping, false⟩ .atEnd =
            (.told false, ⟨t :: ts, stop, skipping, false⟩) := by
          rw [reply, atEnd_of_cons hrest, hsettle]
        have hnext : reply ⟨t :: ts, stop, skipping, false⟩ .next =
            (.handed t, ⟨ts, stop, skipping, false⟩) := by
          rw [reply, next_of_cons hrest, hsettle]
          rfl
        rw [List.filter_cons_of_pos (by simp [hpassed])]
        exact .more hend hnext ih

theorem setSkipping_ofSource (source : String) (b : Bool) :
    (ofSource source).setSkipping b = ⟨Token.scan source, source.utf8ByteSize, b, false⟩ := by
  rw [setSkipping]
  split
  · simp [ofSource]
  · simp [ofSource]

theorem readsAll_ofSource (source : String) :
    ReadsAll reply (ofSource source) ((Token.scan source).filter fun t => !t.isBlank) :=
  readsAll_filter source.utf8ByteSize true (Token.scan source)

theorem readsAll_scan (source : String) :
    ReadsAll reply ((ofSource source).setSkipping false) (Token.scan source) := by
  have h := readsAll_filter source.utf8ByteSize false (Token.scan source)
  rw [setSkipping_ofSource]
  simpa using h

/-- Reading to the end never fails. With blanks it gives the text piece by piece,
and without them the pieces that are not blank, whether the tokens are there
before they are asked for or are made by going through the text. -/
theorem tokens_lossless (source : String) :
    ∃ ts : List Token,
      ReadsAll reply ((ofSource source).setSkipping false) ts ∧
      ReadsAll reply (ofSource source) (ts.filter fun t => !t.isBlank) ∧
      ReadsAll CharReader.reply ((CharReader.ofSource source).setSkipping false) ts ∧
      ReadsAll CharReader.reply (CharReader.ofSource source) (ts.filter fun t => !t.isBlank) ∧
      (∀ t ∈ ts, t.text ≠ "") ∧
      String.join (ts.map Token.text) = source ∧
      ∀ front t back, ts = front ++ t :: back →
        t.offset = (String.join (front.map Token.text)).utf8ByteSize ∧
        sliceBytes t.offset (t.offset + t.text.utf8ByteSize) source.toList = t.text.toList := by
  have hall := readsAll_scan source
  have hdark := readsAll_ofSource source
  refine ⟨Token.scan source, hall, hdark, ?_, ?_, fun t ht => Token.text_ne_of_mem_scanFrom ht,
    Token.join_scan source, fun front t back h => ⟨?_, Token.sliceBytes_of_scan h⟩⟩
  · rw [← CharReader.stream_ofSource, CharReader.stream_setSkipping] at hall
    exact hall.of_map CharReader.stream_reply
  · rw [← CharReader.stream_ofSource] at hdark
    exact hdark.of_map CharReader.stream_reply
  · rw [Token.offset_of_scanFrom h, Nat.zero_add, utf8ByteSize_eq, String.toList_join,
      List.flatMap_map]

end TokenStream

end Lindenmayer
