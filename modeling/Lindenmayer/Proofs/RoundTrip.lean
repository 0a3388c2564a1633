import Lindenmayer.Proofs.Rereading

/-!
# Printing and reading again

A tree that was read from a source text is printed as a source text for the
same tree. Everything comes back but the regions: the nodes in the order they
were made, their kinds, links and scopes, and the names that the scopes know.
So printing the second tree gives the first text once more.

One thing is asked of the numbers. A double is printed in canonical form, which
is a literal only where it has its digits in place; a literal that stands for
infinity, say, is printed as a name.
-/

namespace Lindenmayer.Tree

theorem ofSource_eq (cs : List Char) :
    TokenStream.ofSource (String.ofList cs) =
      TokenStream.ofText (String.ofList cs).utf8ByteSize 0 ([] ++ cs) := by
  rw [TokenStream.ofSource, TokenStream.ofText, Token.scan, String.toList_ofList, List.nil_append]

/-- Whoever prints a tree and reads the text has the tree again. -/
theorem ofSource_print {source : String} {t : Tree} (h : ofSource source = .ok t)
    (hplain : ∀ n x, t.kind n = .number (.float x) → PlainlyWritten x) :
    ∃ t', ofSource (t.print root) = .ok t' ∧ t'.size = t.size ∧ t'.scopes = t.scopes ∧
      (∀ n, t'.kind n = t.kind n ∧ t'.parent n = t.parent n ∧ t'.children n = t.children n) ∧
      t'.print root = t.print root := by
  rw [ofSource] at h
  split at h
  · next program hprogram =>
      cases h
      have hwritten := Statement.wellWritten_ofSource hprogram
      obtain ⟨_, region, ss, hroot, hshows⟩ := ofStatements_shows program
      have hevery : ((ofStatements program).subtree root).Every NodeKind.FloatPlain :=
        every_subtreeWithin hplain _ root
      rw [hroot] at hevery
      obtain ⟨again, hread, hbare⟩ := Statement.readAll_print
        (String.ofList (Subtree.printStatements 0 ss)).utf8ByteSize 0 program hwritten hshows
        hevery.2 Statement.blanks_nil 0
      have hprint : (ofStatements program).print root =
          String.ofList (Subtree.printStatements 0 ss) := by
        rw [print, hroot, Subtree.print]
      have hsame := bare_ofStatements hbare
      refine ⟨ofStatements again, ?_, size_congr hsame, ?_, fun n => ⟨?_, ?_, ?_⟩,
        print_congr hsame root⟩
      · rw [hprint, ofSource, Statement.ofSource, ofSource_eq, hread]
      · rw [← scopes_bare, hsame, scopes_bare]
      · rw [← kind_bare, hsame, kind_bare]
      · rw [← parent_bare, hsame, parent_bare]
      · rw [← children_bare, hsame, children_bare]
  · cases h

theorem plainlyWritten_half : PlainlyWritten 0.5 := by
  refine ⟨⟨['0'], ['5'], List.cons_ne_nil _ _, List.cons_ne_nil _ _, fun c hc => ?_, ?_⟩, ?_⟩
  · rcases List.mem_cons.1 hc with rfl | hc
    · decide
    · rw [List.mem_singleton.1 hc]
      decide
  · decide +kernel
  · decide +kernel

theorem ofSource_print_block :
    ∃ t t',
      ofSource "set x = (1 + y) * 0.5\n\x7b 'a \"b\"' + (2)\n rule r: F -> F+F\n\x7d" = .ok t ∧
      ofSource (t.print root) = .ok t' ∧ t'.size = t.size ∧ t'.scopes = t.scopes ∧
      (∀ n, t'.kind n = t.kind n ∧ t'.parent n = t.parent n ∧ t'.children n = t.children n) ∧
      t'.print root = t.print root := by
  have hcheck : (ofSource
      "set x = (1 + y) * 0.5\n\x7b 'a \"b\"' + (2)\n rule r: F -> F+F\n\x7d").toOption.any (fun t =>
        t.nodes.toList.all fun node => node.kind.float?.all fun x => x = 0.5) = true := by
    decide +kernel
  obtain ⟨t, ht, hhalf⟩ := exists_of_checked hcheck
  have hplain : ∀ n x, t.kind n = .number (.float x) → PlainlyWritten x := by
    intro n x hx
    have hmem : t.node n ∈ t.nodes.toList ∨ t.node n = default := by
      rw [node]
      cases hget : t.nodes[n.index]? with
      | none => exact .inr rfl
      | some node => exact .inl (Array.mem_toList_iff.2 (Array.mem_of_getElem? hget))
    rw [kind] at hx
    rcases hmem with hmem | hdefault
    · have heq := List.all_eq_true.1 hhalf _ hmem
      rw [hx] at heq
      rw [of_decide_eq_true heq]
      exact plainlyWritten_half
    · rw [hdefault] at hx
      cases hx
  obtain ⟨t', ht'⟩ := ofSource_print ht hplain
  exact ⟨t, t', ht, ht'⟩

end Lindenmayer.Tree
