import Lindenmayer.Proofs.Descent
import Lindenmayer.Proofs.Nesting
import Lindenmayer.Proofs.Rereading

/-!
# Text that is taken as it stands

A string and the two operands of a rule are put together from tokens: what they
hold was cut up as if it were code, into names, numbers, arrows, blanks, quotes of
the other kind. None of this shows.

Every token ends in front of a quote and a quote is a token by itself, so the first
quote of the kind that opened a string closes it; the texts of the tokens in between
are the text in between, cut up; and line ends are tokens with nothing else in them,
and in no other token. So wherever in a source an expression meets a quote, what is
read depends on the text behind the quote alone (`Tree.string_of_meets`): it is all up
to the next such quote, without line ends, and if there is none the source is at fault.
A program has no strings but these (`exists_meets_of_mem_leavesAll`).

Every token ends in front of a blank, too, so an operand of a rule is all up to the
next blank, an arrow or a colon in it included (`Tree.ofSource_rule`).
-/

namespace Lindenmayer

open Lindenmayer.Text

variable {source : String} {before r content : List Char} {q : Char} {offset : Nat}
  {ts : List Token} {y : ShuntingYard}

/-! ## Tokens behind a place -/

namespace Token

/-- The last tokens of a text are the tokens of the last part of it. -/
theorem eq_scanFrom_of_append {cs : List Char} {front : List Token}
    (h : scanFrom offset cs = front ++ ts) :
    ts = scanFrom (offset + byteLength (front.flatMap fun t => t.text.toList))
      (ts.flatMap fun t => t.text.toList) := by
  induction front generalizing offset cs with
  | nil =>
      have hts : scanFrom offset cs = ts := h
      rw [← hts, flatMap_text_scanFrom]
      rfl
  | cons first front ih =>
      cases cs with
      | nil =>
          rw [scanFrom] at h
          cases h
      | cons c cs =>
          rw [scanFrom_cons, List.cons_append] at h
          obtain ⟨hfirst, hrest⟩ := List.cons.inj h
          rw [List.flatMap_cons, byteLength_append, ← Nat.add_assoc, ← hfirst, String.toList_ofList]
          exact ih hrest

/-- The tokens of a source from a place on are those of the text behind it. -/
theorem eq_scanFrom_of_place (hsource : source.toList = before ++ r) (h : ts <:+ scan source)
    (hplace : place source ts = byteLength before) : ts = scanFrom (byteLength before) r := by
  obtain ⟨front, hfront⟩ := h
  have hts := eq_scanFrom_of_append hfront.symm
  have htexts := flatMap_text_scanFrom 0 source.toList
  rw [show scanFrom 0 source.toList = _ from hfront.symm, List.flatMap_append, hsource] at htexts
  have hfrontPlace := place_eq hfront.symm
  rw [hplace] at hfrontPlace
  have hcut := cutBytes_byteLength before r
  rw [hfrontPlace, ← htexts, cutBytes_byteLength] at hcut
  rw [Nat.zero_add, ← hfrontPlace, (Prod.mk.inj hcut).2] at hts
  exact hts

end Token

/-! ## Reading a string -/

/-- What is read up to the next quote is the text up to it, without line ends. -/
theorem readString_scanFrom (hq : q = '"' ∨ q = '\'') (hmem : q ∉ content) (offset : Nat)
    (after : List Char) :
    readString (String.ofList [q]) (Token.scanFrom offset (content ++ q :: after)) =
      some (String.ofList (withoutLineEnds content),
        ⟨.quote, String.ofList [q], offset + byteLength content⟩,
        Token.scanFrom (offset + byteLength content + byteLength [q]) after) := by
  have hopen : ∀ t ∈ Token.scanFrom offset content,
      ¬ t.closes ⟨.quote, String.ofList [q], offset⟩ :=
    fun t ht => Token.not_closes_of_mem_scanFrom hmem ht rfl
  have hcontent : stringContent (Token.scanFrom offset content) =
      String.ofList (withoutLineEnds content) := by
    rw [← String.toList_inj, toList_stringContent_scanFrom, String.toList_ofList]
  have hclose : (⟨.quote, String.ofList [q], offset + byteLength content⟩ : Token).closes
      ⟨.quote, String.ofList [q], offset⟩ := ⟨rfl, rfl⟩
  rw [Token.scanFrom_append_quote hq, readString_of_body hopen hclose, hcontent]

/-- Where there is no such quote, a string is not read. -/
theorem readString_scanFrom_none (hmem : q ∉ r) (offset : Nat) :
    readString (String.ofList [q]) (Token.scanFrom offset r) = none := by
  refine readString_eq_none fun t ht => ?_
  have hopen : ¬ t.closes ⟨.quote, String.ofList [q], offset⟩ :=
    Token.not_closes_of_mem_scanFrom hmem ht rfl
  exact hopen

/-- Wherever an expression meets a quote, a string is read up to the next one of its
kind, and reading goes on behind that; or else there is none, and the source ends too
early. -/
theorem Tree.string_of_meets (h : Meets source ts y) (hsource : source.toList = before ++ q :: r)
    (hplace : Token.place source ts = byteLength before) (hq : q = '"' ∨ q = '\'') :
    (q ∉ r → Tree.ofSource source = .error (.prematureEnd source.utf8ByteSize) ∧
      ∀ (p : Parser) (fuel : Nat), p.reader.At source.utf8ByteSize ts → ts.length ≤ fuel →
        Parser.string fuel p = some (.error (.prematureEnd source.utf8ByteSize))) ∧
    ∀ content after, r = content ++ q :: after → q ∉ content →
      let s := String.ofList (withoutLineEnds content)
      let region : Region := ⟨byteLength before, byteLength (q :: content ++ [q])⟩
      let rest := Token.scanFrom (byteLength (before ++ (q :: content ++ [q]))) after
      Meets source rest (y.push (.string s region) region) ∧
      (∀ t, Tree.ofSource source = .ok t →
        ∃ u ∈ (t.subtree Tree.root).leaves, u.kind = .string s ∧ u.region = region) ∧
      ∀ (p : Parser) (fuel : Nat), p.reader.At source.utf8ByteSize ts → ts.length ≤ fuel →
        ∃ reader, reader.At source.utf8ByteSize rest ∧
          Parser.string fuel p = some (.ok (⟨p.tree.size⟩,
            ⟨reader, (p.tree.newNode (.string s) region).2, p.scope⟩)) := by
  have hts := Token.eq_scanFrom_of_place hsource (in_of_meets h).1 hplace
  rw [Token.scanFrom_quote hq] at hts
  obtain rfl := hts
  constructor
  · intro hmem
    have hread := readString_scanFrom_none hmem (byteLength before + byteLength [q])
    refine ⟨Tree.ofSource_of_meets h ?_, fun p fuel hat hfuel => ?_⟩
    · exact ShuntingYard.read_of_fails (.string rfl hread)
    · exact Parser.string_none hread rfl hat hfuel
  · rintro content after rfl hmem
    have hread := readString_scanFrom hq hmem (byteLength before + byteLength [q]) after
    have hregion : (⟨byteLength before, byteLength [q]⟩ : Region).merge
        ⟨byteLength before + byteLength [q] + byteLength content, byteLength [q]⟩ =
          ⟨byteLength before, byteLength (q :: content ++ [q])⟩ := by
      rw [Region.merge_behind, ← byteLength_append, ← byteLength_append]
      rfl
    have hrest : byteLength before + byteLength [q] + byteLength content + byteLength [q] =
        byteLength (before ++ (q :: content ++ [q])) := by
      rw [← byteLength_append, ← byteLength_append, ← byteLength_append]
      simp
    rw [hrest] at hread
    have hmeets := h.tail (.step (.operand (.string rfl hread)))
    rw [Token.region_ofList, Token.region_ofList, hregion] at hmeets
    refine ⟨hmeets, fun t ht => ?_, fun p fuel hat hfuel => ?_⟩
    · have hleaf := Tree.hasLeaf_of_meets hmeets (List.mem_flatMap.2
        ⟨_, List.mem_cons_self, List.mem_singleton.2 rfl⟩) ht
      obtain ⟨_, u, hu, hkind, hplace⟩ := hleaf
      exact ⟨u, hu, hkind, hplace⟩
    · obtain ⟨reader, hrun, hat'⟩ := Parser.string_some hread rfl hat hfuel
      rw [Token.region_ofList, Token.region_ofList, hregion] at hrun
      exact ⟨reader, hat', hrun⟩

/-- A string over two lines with a quote of the other kind in it, and a quote that is
never closed. -/
theorem Tree.string_of_meets_lines :
    (∃ t, Tree.ofSource "'a\n\"b' + 1" = .ok t ∧
      ∃ u ∈ (t.subtree Tree.root).leaves, u.kind = .string "a\"b" ∧ u.region = ⟨0, 6⟩) ∧
    Tree.ofSource "\"a'" = .error (.prematureEnd 3) := by
  have hfirst := @string_of_meets "'a\n\"b' + 1" [] _ _ _ .empty (meets_start (by decide +kernel))
    rfl (by decide +kernel) (.inr rfl)
  have hsecond := @string_of_meets "\"a'" [] _ _ _ .empty (meets_start (by decide +kernel))
    rfl (by decide +kernel) (.inl rfl)
  have hparses : (Tree.ofSource "'a\n\"b' + 1").toOption.any (fun _ => true) = true := by
    decide +kernel
  obtain ⟨t, ht, _⟩ := ok_of_any hparses
  obtain ⟨_, hleaves, _⟩ := hfirst.2 ['a', '\n', '"', 'b'] [' ', '+', ' ', '1'] rfl (by decide)
  exact ⟨⟨t, ht, hleaves t ht⟩, (hsecond.1 (by decide)).1⟩

/-! ## Reading a rule -/

/-- A text that is scanned as one token, an identifier, can be a name. -/
theorem isName_of_scan {name : String} {t : Token} (h : Token.scan name = [t])
    (hkind : t.kind = .identifier) : IsName name := by
  have hmem : t ∈ Token.scanFrom 0 name.toList := by
    rw [← Token.scan, h]
    exact List.mem_singleton_self t
  have htext := Token.flatMap_text_scanFrom 0 name.toList
  rw [← Token.scan, h, List.flatMap_singleton] at htext
  have hlexical : Token.IsLexeme t.kind t.text.toList := Token.lexical_of_mem_scanFrom hmem
  rw [htext, hkind] at hlexical
  exact hlexical

/-- The source of a rule is that rule, over the whole of it. -/
theorem Statement.ofSource_ruleText {name : Option String} {expected replacement : String}
    (hname : ∀ n, name = some n → IsName n) (hexpected : IsRun expected)
    (hreplacement : IsRun replacement)
    (hsource : source.toList = Subtree.ruleText name expected replacement) :
    Statement.ofSource source = .ok [.rule name expected replacement ⟨0, source.utf8ByteSize⟩] := by
  have hread := @readRule_ofText source.utf8ByteSize 0 [] [] name expected replacement blanks_nil
    hname hexpected hreplacement nofun
  obtain ⟨r, hr, heq⟩ := read_rule hread
  have hend : r.1.2.atEnd.1 = true := by
    rw [heq, TokenStream.ofText, Token.scanFrom]
    rfl
  have hall := readAll_cons hr (readAll_nil hend)
  rw [heq, ← hsource, ← utf8ByteSize_eq, List.nil_append, List.append_nil] at hall
  exact hall

/-- A rule alone has a tree of its statement, with the rule in it. -/
theorem Tree.exists_of_rule {name : Option String} {expected replacement : String} {region : Region}
    (h : Statement.ofSource source = .ok [.rule name expected replacement region]) :
    ∃ t outer statement rule, Tree.ofSource source = .ok t ∧
      t.subtree Tree.root = .node Tree.root (.root Scopes.global) outer
        [.node statement .statement region
          [.node rule (.rule name expected replacement) region []]] := by
  have ht := Tree.ofSource_of_ok h
  obtain ⟨_, outer, ss, hroot, hshows⟩ :=
    Tree.ofStatements_shows [.rule name expected replacement region]
  generalize Tree.ofStatements [.rule name expected replacement region] = t at ht hroot
  rw [Statement.ShowsAll] at hshows
  obtain ⟨s, ss, rfl, hs, hnil⟩ := hshows
  rw [Statement.Shows] at hs
  obtain ⟨statement, full, rule, rfl⟩ := hs
  rw [Statement.ShowsAll] at hnil
  subst hnil
  -- A statement covers what is below it, and below a rule there is nothing.
  have hlaid := Tree.laid_of_ofSource ht
  rw [hroot] at hlaid
  have hfull : full = region := hlaid.2.2.1.2.1 _ List.mem_cons_self
  rw [hfull] at hroot
  exact ⟨t, outer, statement, rule, ht, hroot⟩

theorem toList_ruleSource (name : Option String) (expected replacement : String) :
    ("rule" ++ name.elim "" (" " ++ ·) ++ ": " ++ expected ++ " -> " ++ replacement).toList =
      Subtree.ruleText name expected replacement := by
  have hname : (name.elim "" (" " ++ ·)).toList = Statement.nameText name := by
    cases name with
    | none => rfl
    | some n => exact String.toList_append
  unfold Subtree.ruleText
  rw [String.toList_append, String.toList_append, String.toList_append, String.toList_append,
    String.toList_append, hname]
  rfl

/-- A rule takes its operands as they stand: whatever is in them, a source that is a
rule has one statement, the rule, over the whole of it. -/
theorem Tree.ofSource_rule {name : Option String} {expected replacement : String}
    (hname : ∀ n, name = some n → ∃ t, Token.scan n = [t] ∧ t.kind = .identifier)
    (hexpected : expected ≠ "" ∧ ∀ c ∈ expected.toList, Text.isBlank c = false)
    (hreplacement : replacement ≠ "" ∧ ∀ c ∈ replacement.toList, Text.isBlank c = false) :
    let source := "rule" ++ name.elim "" (" " ++ ·) ++ ": " ++ expected ++ " -> " ++ replacement
    let region : Region := ⟨0, source.utf8ByteSize⟩
    ∃ t outer statement rule, Tree.ofSource source = .ok t ∧
      t.subtree Tree.root = .node Tree.root (.root Scopes.global) outer
        [.node statement .statement region
          [.node rule (.rule name expected replacement) region []]] := by
  have hname' : ∀ n, name = some n → IsName n := by
    intro n hn
    obtain ⟨t, hscan, hkind⟩ := hname n hn
    exact isName_of_scan hscan hkind
  have hexpected' : IsRun expected := ⟨mt String.toList_eq_nil_iff.1 hexpected.1, hexpected.2⟩
  have hreplacement' : IsRun replacement :=
    ⟨mt String.toList_eq_nil_iff.1 hreplacement.1, hreplacement.2⟩
  exact exists_of_rule (Statement.ofSource_ruleText hname' hexpected' hreplacement'
    (toList_ruleSource name expected replacement))

/-- A rule whose operands look like arrows, strings, blocks and rules. -/
theorem Tree.ofSource_rule_arrow :
    ∃ t outer statement rule, Tree.ofSource "rule twice: -> -> \x7b'rule:\"0.5=(\x7d" = .ok t ∧
      t.subtree Tree.root = .node Tree.root (.root Scopes.global) outer
        [.node statement .statement ⟨0, 32⟩
          [.node rule (.rule (some "twice") "->" "\x7b'rule:\"0.5=(\x7d") ⟨0, 32⟩ []]] := by
  have hsource : "rule" ++ (some "twice").elim "" (" " ++ ·) ++ ": " ++ "->" ++ " -> " ++
      "\x7b'rule:\"0.5=(\x7d" = "rule twice: -> -> \x7b'rule:\"0.5=(\x7d" := by decide +kernel
  have hsize : "rule twice: -> -> \x7b'rule:\"0.5=(\x7d".utf8ByteSize = 32 := by decide +kernel
  have hname : ∀ n, some "twice" = some n → ∃ t, Token.scan n = [t] ∧ t.kind = .identifier := by
    intro n hn
    cases hn
    exact ⟨⟨.identifier, "twice", 0⟩, by decide +kernel, rfl⟩
  have hdark : ∀ cs : List Char, cs.all (!Text.isBlank ·) = true →
      ∀ c ∈ cs, Text.isBlank c = false :=
    fun cs h c hc => by simpa using List.all_eq_true.1 h c hc
  have hrule := @ofSource_rule (some "twice") "->" "\x7b'rule:\"0.5=(\x7d" hname
    ⟨by decide +kernel, hdark _ (by decide +kernel)⟩
    ⟨by decide +kernel, hdark _ (by decide +kernel)⟩
  rw [hsource] at hrule
  dsimp only at hrule
  rw [hsize] at hrule
  exact hrule

end Lindenmayer
