import Lindenmayer.Proofs.Meaning
import Lindenmayer.Proofs.Placeholders
import Lindenmayer.Proofs.Reachable

/-!
# What a program leaves to be filled in

Whether the placeholders of a word can be filled in depends on the letters that
are in it and on the variables that have values, and both can be read off a
program without running it. Its letters are those of the axiom and of the
replacements, however long the system is rewritten; its variables are the names
that are assigned at the top level, since a program that has a system has run to
the end. So a program in which only such names are mentioned never fails to
resolve, whatever was done to its system before (`build_resolves`).
-/

namespace Lindenmayer

/-- The values that variables fill in, whichever letter they are asked for. -/
def Environment.parameters (env : Environment) : Parameters :=
  fun _ name => (env name).map Value.text

/-- Whether a letter stands in a first word or in the replacement of a rule. -/
def Statement.Offers (program : List Statement) (first : Word) (l : Letter) : Prop :=
  l ∈ first ∨ ∃ d ∈ Statement.definitionsAll program, ∃ w, Word.read d.replacement = .ok w ∧ l ∈ w

/-- Rules that were made of definitions write what the definitions say. -/
theorem RuleDefinition.exists_of_compiled {ds : List RuleDefinition} {rs : List SimpleRule}
    (h : List.Forall₂ (fun d r => d.compile = .ok r) ds rs) {r : SimpleRule} (hr : r ∈ rs) :
    ∃ d ∈ ds, Word.read d.replacement = .ok r.replacement := by
  obtain ⟨d, hd, hcompile⟩ := exists_mem_of_forall₂ (List.Forall₂.flip h) hr
  obtain ⟨l, w, _, hw, rfl⟩ := of_compile_ok hcompile
  exact ⟨d, hd, hw⟩

namespace Tree

variable {t : Tree} {source : String} {system : System}

/-- The values that a system fills in are those of the variables. -/
theorem parameters_of_build (h : ofSource source = .ok t) (hbuild : t.build.1 = .ok system)
    {program : List Statement} (hprogram : Statement.ofSource source = .ok program) :
    system.parameters =
      (Environment.empty.run (Statement.assignments program)).2.parameters := by
  obtain ⟨program', v, s, hprogram', _, hrun, hstands, _, hordered⟩ := run_leaves h
  rw [hprogram] at hprogram'
  cases hprogram'
  obtain ⟨_, v', t', hrun', hassemble⟩ := of_build_ok hbuild
  rw [hrun, Prod.mk.injEq, Prod.mk.injEq] at hrun'
  obtain ⟨_, rfl, rfl⟩ := hrun'
  obtain ⟨_, _, _, _, _, _, _, _, _, rfl⟩ := of_assemble_ok hassemble
  funext l name
  show ((v.globals { t with scopes := s }).lookup name).map Value.text = _
  rw [Variables.lookup_globals hordered, Variables.global?, hstands.value name]
  rfl

theorem state_of_build (hbuild : t.build.1 = .ok system) : system.state = system.initiator := by
  obtain ⟨_, v, t', _, hassemble⟩ := of_build_ok hbuild
  obtain ⟨_, _, _, _, _, _, _, _, _, rfl⟩ := of_assemble_ok hassemble
  rfl

/-- The letters on offer in a system are those of its program. -/
theorem offers_of_build {program : List Statement} {rules : List SimpleRule} {l : Letter}
    (hcompiled : List.Forall₂ (fun d r => RuleDefinition.compile d = .ok r)
      (Statement.definitionsAll program) rules)
    (hrules : system.rules = rules.map .simple) (h : system.Offers l) :
    Statement.Offers program system.initiator l := by
  rcases h with h | ⟨r, hr, w, hw, hl⟩
  · exact Or.inl h
  · rw [hrules] at hr
    obtain ⟨q, hq, rfl⟩ := List.mem_map.1 hr
    obtain ⟨d, hd, hread⟩ := RuleDefinition.exists_of_compiled hcompiled hq
    rw [List.mem_singleton.1 hw] at hl
    exact Or.inr ⟨d, hd, _, hread, hl⟩

/-- A program that has a system says what can be filled in. Wherever the system
gets to, its letters are those of the axiom and of the replacements; its state
can be resolved just if the names that are mentioned in it are assigned at the
top level, and each placeholder then gives way to the text of its variable. So
nothing can go wrong where the axiom and the replacements mention no other
names. -/
theorem build_resolves (h : ofSource source = .ok t) (hbuild : t.build.1 = .ok system) :
    ∃ program env text first, Statement.ofSource source = .ok program ∧
      Environment.empty.run (Statement.assignments program) = (.ok (), env) ∧
      env axiomName = some (.string text) ∧ Word.read text = .ok first ∧
      (∀ name, env name ≠ none ↔ name ∈ (Statement.assignments program).map Prod.fst) ∧
      ∀ {σ : Type} (draw : σ → Float × σ) (random : σ) (s : System) (random' : σ),
        system.Reaches draw random s random' →
        (∀ l ∈ s.state, Statement.Offers program first l) ∧
        ((∃ out, s.resolvedState = .ok out) ↔ ∀ l ∈ s.state, ∀ name, l.Mentions name →
          name ∈ (Statement.assignments program).map Prod.fst) ∧
        (∀ out, s.resolvedState = .ok out →
          out = String.ofList (s.state.flatMap (Letter.filled env.parameters))) ∧
        ((∀ l, Statement.Offers program first l → ∀ name, l.Mentions name →
          name ∈ (Statement.assignments program).map Prod.fst) →
          ∃ out, s.resolvedState = .ok out) := by
  obtain ⟨program, env, text, first, count, rules, hprogram, henv, htext, hfirst, _, _, hcompiled,
    rfl, _, hrules⟩ := of_system h hbuild
  have hparameters := parameters_of_build h hbuild hprogram
  rw [henv] at hparameters
  have hnames : ∀ name, env name ≠ none ↔
      name ∈ (Statement.assignments program).map Prod.fst := by
    intro name
    have hrun : _ ↔ _ ∨ name ∈ _ := Environment.run_ne_none_iff (congrArg Prod.fst henv)
    rw [henv] at hrun
    exact hrun.trans (or_iff_right (fun hne => hne rfl))
  refine ⟨program, env, text, system.initiator, hprogram, henv, htext, hfirst, hnames,
    fun draw random s random' hreaches => ?_⟩
  have hresolved : ∀ out, s.resolvedState = .ok out ↔
      (∀ l ∈ s.state, ∀ name, l.Mentions name →
        name ∈ (Statement.assignments program).map Prod.fst) ∧
        out = String.ofList (s.state.flatMap (Letter.filled env.parameters)) := by
    intro out
    have hkept : s.parameters = env.parameters := by
      rw [hreaches.eq_with]
      exact hparameters
    rw [System.resolvedState, Word.resolve_eq_ok_iff, hkept]
    simp only [Environment.parameters, ne_eq, Option.map_eq_none_iff, ← hnames]
  have hletters : ∀ l ∈ s.state, Statement.Offers program system.initiator l := fun l hl =>
    offers_of_build hcompiled hrules
      (hreaches.offers (fun m hm => Or.inl (by rwa [state_of_build hbuild] at hm)) l hl)
  exact ⟨hletters, ⟨fun ⟨out, hout⟩ => ((hresolved out).1 hout).1,
      fun hall => ⟨_, (hresolved _).2 ⟨hall, rfl⟩⟩⟩, fun out hout => ((hresolved out).1 hout).2,
    fun hall => ⟨_, (hresolved _).2 ⟨fun l hl => hall l (hletters l hl), rfl⟩⟩⟩

/-- The variable of the block could not be filled in, but no letter of the last
generation mentions it. -/
theorem build_resolves_block :
    ∃ t system s random,
      ofSource
        ("set angle = 30\nset axiom = 'F($\x7bangle\x7d)X'\nset recursionCount = 2\n" ++
          "\x7b\n  set hidden = 1\n  rule: Y -> f($\x7bhidden\x7d)\n\x7d\n" ++
          "rule: X -> +($\x7bangle\x7d)X") = .ok t ∧
      t.build.1 = .ok system ∧
      system.Reaches RandomSource.draw (.seeded 5) s random ∧
      s.resolvedState = .ok "F(30)+(30)+(30)X" ∧
      ∀ l ∈ s.state, ∀ name, l.Mentions name → name ∈ ["angle", "axiom", "recursionCount"] := by
  have hcheck : (ofSource
      ("set angle = 30\nset axiom = 'F($\x7bangle\x7d)X'\nset recursionCount = 2\n" ++
        "\x7b\n  set hidden = 1\n  rule: Y -> f($\x7bhidden\x7d)\n\x7d\n" ++
        "rule: X -> +($\x7bangle\x7d)X")).toOption.any
      (fun t => t.build.1.toOption.any fun system =>
        (system.grow RandomSource.draw (.seeded 5)).2.1.resolvedState.toOption =
          some "F(30)+(30)+(30)X") = true := by decide +kernel
  have hnames : (Statement.ofSource
      ("set angle = 30\nset axiom = 'F($\x7bangle\x7d)X'\nset recursionCount = 2\n" ++
        "\x7b\n  set hidden = 1\n  rule: Y -> f($\x7bhidden\x7d)\n\x7d\n" ++
        "rule: X -> +($\x7bangle\x7d)X")).toOption.any
      (fun program => (Statement.assignments program).map Prod.fst =
        ["angle", "axiom", "recursionCount"]) = true := by decide +kernel
  obtain ⟨t, ht, hbuilds⟩ := exists_of_checked hcheck
  obtain ⟨system, hbuild, hout⟩ := ok_of_any hbuilds
  obtain ⟨program, env, text, first, hprogram, _, _, _, _, hreach⟩ := build_resolves ht hbuild
  have hgrow := (System.Reaches.start :
    system.Reaches RandomSource.draw (.seeded 5) system (.seeded 5)).grow
  obtain ⟨_, hiff, _, _⟩ := hreach _ _ _ _ hgrow
  rw [hprogram] at hnames
  rw [show (Statement.assignments program).map Prod.fst = ["angle", "axiom", "recursionCount"] from
    of_decide_eq_true hnames] at hiff
  cases hresolved : (system.grow RandomSource.draw (.seeded 5)).2.1.resolvedState with
  | error e =>
      rw [hresolved] at hout
      cases hout
  | ok out =>
      rw [hresolved] at hout
      obtain rfl : out = "F(30)+(30)+(30)X" := by simpa [Except.toOption] using hout
      exact ⟨t, system, _, _, ht, hbuild, hgrow, hresolved, hiff.1 ⟨_, hresolved⟩⟩

end Tree

end Lindenmayer
