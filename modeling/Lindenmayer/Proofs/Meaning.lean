import Lindenmayer.Program.Session
import Lindenmayer.Proofs.Definitions
import Lindenmayer.Proofs.Globals
import Lindenmayer.Proofs.Growth
import Lindenmayer.Proofs.Validation
import Lindenmayer.Rewriting.RandomSource

/-!
# What a program stands for

From source text to the last generation a program passes through a tree, a
validation, a run with values by symbol, rules collected from nodes and a sweep
over a tape. What comes out can be said of the source alone: the axiom and the
count are the values that the assignments give, every generation replaces each
letter by what the first rule for it says, and that is repeated as often as the
count says.

`RuleDefinition.image` is what one generation makes of one letter. It asks the
rules as they were read, and no rule of the system. That the system agrees is
`image_of_compiled`, by induction along the two lists; all else is taking the
stages apart in reverse, one inversion for each (`of_build_ok`,
`of_assemble_ok`). A program has simple rules only, so no number is ever drawn.
-/

namespace Lindenmayer

/-! ## Definitions on letters -/

namespace RuleDefinition

/-- Whether a rule is for a letter: whether its pattern is one letter that is
written alike. -/
def accepts (d : RuleDefinition) (l : Letter) : Bool :=
  match Word.read d.expected with
  | .ok [m] => m.literal == l.literal
  | _ => false

/-- What a generation puts in the place of a letter. A rule whose replacement is
no word puts nothing there; a program with such a rule has no system. -/
def image (ds : List RuleDefinition) (l : Letter) : Word :=
  match ds.find? (·.accepts l) with
  | none => [l]
  | some d =>
    match Word.read d.replacement with
    | .ok w => w
    | .error _ => []

/-- Whether both sides of a rule can be read, and the pattern is one letter. -/
def Readable (d : RuleDefinition) : Prop :=
  ∃ l w, Word.read d.expected = .ok [l] ∧ Word.read d.replacement = .ok w

variable {d : RuleDefinition} {ds : List RuleDefinition} {r : SimpleRule} {rs : List SimpleRule}

theorem of_compile_ok (h : d.compile = .ok r) :
    ∃ l w, Word.read d.expected = .ok [l] ∧ Word.read d.replacement = .ok w ∧
      r = ⟨d.name, .literal l.literal, w⟩ := by
  rw [compile, SimpleRule.ofDefinition] at h
  split at h
  · next hrule =>
      split at hrule
      · cases hrule
      · next l hl =>
          split at hrule
          · cases hrule
          · next w hw =>
              cases hrule
              cases h
              exact ⟨l, w, hl, hw, rfl⟩
      · cases hrule
  · cases h

theorem readable_of_compiled (h : List.Forall₂ (fun d r => d.compile = .ok r) ds rs) :
    ∀ d ∈ ds, d.Readable := by
  intro d hd
  obtain ⟨r, _, hcompile⟩ := exists_mem_of_forall₂ h hd
  obtain ⟨l, w, hl, hw, _⟩ := of_compile_ok hcompile
  exact ⟨l, w, hl, hw⟩

/-- Rules that definitions were made to make of a letter what the definitions
say. -/
theorem image_of_compiled (h : List.Forall₂ (fun d r => d.compile = .ok r) ds rs) (l : Letter) :
    System.image (rs.map .simple) l = image ds l := by
  induction h with
  | nil => rfl
  | @cons d r ds rs hd _ ih =>
      obtain ⟨m, w, hm, hw, rfl⟩ := of_compile_ok hd
      have haccepts : d.accepts l = (m.literal == l.literal) := by rw [accepts, hm]
      rw [System.image, System.firstRule] at ih ⊢
      rw [image] at ih ⊢
      rw [List.map_cons, List.find?_cons, List.find?_cons, haccepts]
      have hrule : Rule.accepts (.simple ⟨d.name, .literal m.literal, w⟩) l =
          (m.literal == l.literal) := BEq.comm
      rw [hrule]
      cases m.literal == l.literal with
      | true =>
          dsimp only
          rw [hw]
      | false => exact ih

end RuleDefinition

/-! ## The stages of a build -/

namespace Tree

variable {t : Tree} {v : Variables} {system : System}

/-- Steps that all succeeded gave the results one by one. -/
theorem forall₂_of_collect {ε α β : Type} {f : α → Except ε β} {as : List α} {bs : List β}
    (h : collect (as.map f) = .ok bs) : List.Forall₂ (fun a b => f a = .ok b) as bs := by
  induction as generalizing bs with
  | nil => cases h; exact .nil
  | cons a as ih =>
      rw [List.map_cons] at h
      cases ha : f a with
      | error e => rw [ha] at h; cases h
      | ok b =>
          rw [ha, collect] at h
          split at h
          · next rest hrest =>
              cases h
              exact .cons ha (ih hrest)
          · cases h

theorem of_build_ok (h : t.build.1 = .ok system) :
    t.validate = [] ∧ ∃ v t', Variables.empty.run t = (.ok (), v, t') ∧
      t'.assemble v = .ok system := by
  rw [build] at h
  split at h
  · next hvalid =>
      split at h
      · cases h
      · next v t' hrun => exact ⟨hvalid, v, t', hrun, h⟩
  · cases h

theorem of_assemble_ok (h : t.assemble v = .ok system) :
    ∃ text w count rules, v.globalString t axiomName = .ok text ∧ Word.read text = .ok w ∧
      v.globalInteger t recursionCountName = .ok count ∧ 1 ≤ count.toInt ∧
      t.rules = .ok rules ∧
      system = { System.new w count.toInt.toNat with
        rules := rules.map .simple
        parameters := .ofValues (v.globals t) } := by
  rw [assemble] at h
  split at h
  · cases h
  · next text htext =>
      split at h
      · cases h
      · next w hw =>
          split at h
          · cases h
          · next count hcount =>
              split at h
              · cases h
              · next hle =>
                  split at h
                  · cases h
                  · next rules hrules =>
                      cases h
                      exact ⟨text, w, count, rules, htext, hw, hcount, by omega, hrules, rfl⟩

/-- The rules of a program that has a system are made of its definitions, one by
one. -/
theorem compiled_of_rules {program : List Statement} {rules : List SimpleRule}
    (h : (ofStatements program).rules = .ok rules) :
    List.Forall₂ (fun d r => d.compile = .ok r) (Statement.definitionsAll program) rules := by
  have hbare := rules_bare program
  rw [h] at hbare
  exact forall₂_of_collect hbare.symm

end Tree

/-! ## Programs -/

/-- A program that has a system, from the source on: the values of its
assignments, its axiom as a word, its count, its rules as they were read. -/
theorem Tree.of_system {t : Tree} {source : String} {system : System}
    (h : ofSource source = .ok t) (hbuild : t.build.1 = .ok system) :
    ∃ program env text w count rules, Statement.ofSource source = .ok program ∧
      Environment.empty.run (Statement.assignments program) = (.ok (), env) ∧
      env axiomName = some (.string text) ∧ Word.read text = .ok w ∧
      env recursionCountName = some (.integer count) ∧ 1 ≤ count.toInt ∧
      List.Forall₂ (fun d r => RuleDefinition.compile d = .ok r)
        (Statement.definitionsAll program) rules ∧
      system.initiator = w ∧ system.desired = count.toInt.toNat ∧
      system.rules = rules.map .simple := by
  obtain ⟨program, v, s, hprogram, _, hrun, hstands, _, _⟩ := run_leaves h
  obtain ⟨_, v', t', hrun', hassemble⟩ := of_build_ok hbuild
  rw [hrun, Prod.mk.injEq, Prod.mk.injEq] at hrun'
  obtain ⟨hok, rfl, rfl⟩ := hrun'
  obtain ⟨text, w, count, rules, htext, hw, hcount, hle, hrules, rfl⟩ := of_assemble_ok hassemble
  rw [rules_withScopes, eq_ofStatements h hprogram] at hrules
  exact ⟨program, _, text, w, count, rules, hprogram, Prod.ext hok rfl,
    hstands.globalString_ok_iff.1 htext, hw, hstands.globalInteger_ok_iff.1 hcount, hle,
    compiled_of_rules hrules, rfl, rfl, rfl⟩

namespace Program

variable {σ : Type} {draw : σ → Float × σ} {p : Program} {random random' : σ} {system : System}

theorem of_run_ok (h : p.run draw random = (.ok system, random')) :
    ∃ start, p.tree.build.1 = .ok start ∧ start.grow draw random = (.ok (), system, random') := by
  rw [run, compile] at h
  split at h
  · cases h
  · next start hstart =>
      split at hstart
      · next hbuild =>
          cases hstart
          split at h
          · next hgrow =>
              cases h
              exact ⟨start, hbuild, hgrow⟩
          · cases h
      · cases hstart

theorem run_of_ok {start : System} (hbuild : p.tree.build.1 = .ok start)
    (hgrow : start.grow draw random = (.ok (), system, random')) :
    p.run draw random = (.ok system, random') := by
  rw [run, compile, hbuild]
  dsimp only
  rw [hgrow]

theorem tree_of_load {files : Session} {name : FileName} {source : String}
    (h : (files.load name source).1 = .ok p) : Tree.ofSource source = .ok p.tree := by
  rw [Session.load] at h
  dsimp only at h
  split at h
  · next t ht =>
      cases h
      exact ht
  · cases h

/-- What a program that runs draws. Its axiom, read as a word, grows for as many
generations as its count says; in each of them every letter becomes what the
first rule for it says, in the order of the source and whatever blocks they are
in. Where the numbers come from makes no difference, for none is drawn. -/
theorem run_meaning {files : Session} {name : FileName} {source : String}
    (hload : (files.load name source).1 = .ok p)
    (hrun : p.run draw random = (.ok system, random')) :
    ∃ program env text w count, Statement.ofSource source = .ok program ∧
      Environment.empty.run (Statement.assignments program) = (.ok (), env) ∧
      env axiomName = some (.string text) ∧ Word.read text = .ok w ∧
      env recursionCountName = some (.integer count) ∧ 1 ≤ count.toInt ∧
      (∀ d ∈ Statement.definitionsAll program, d.Readable) ∧
      system.state = (fun w => w.flatMap
        (RuleDefinition.image (Statement.definitionsAll program)))^[count.toInt.toNat] w ∧
      system.generation = count.toInt.toNat ∧
      ∀ {τ : Type} (draw' : τ → Float × τ) (random₁ : τ),
        p.run draw' random₁ = (.ok system, random₁) := by
  obtain ⟨start, hbuild, hgrow⟩ := of_run_ok hrun
  obtain ⟨program, env, text, w, count, rules, hprogram, henv, htext, hw, hcount, hle, hcompiled,
    hinitiator, hdesired, hrules⟩ := Tree.of_system (tree_of_load hload) hbuild
  have hsimple : System.AllSimple start.rules := by
    intro r hr
    rw [hrules] at hr
    obtain ⟨q, _, rfl⟩ := List.mem_map.1 hr
    exact ⟨q, rfl⟩
  have himage : System.image start.rules =
      RuleDefinition.image (Statement.definitionsAll program) := by
    rw [hrules]
    exact funext (RuleDefinition.image_of_compiled hcompiled)
  rw [System.grow_of_allSimple draw start random hsimple] at hgrow
  cases hgrow
  refine ⟨program, env, text, w, count, hprogram, henv, htext, hw, hcount, hle,
    RuleDefinition.readable_of_compiled hcompiled, ?_, hdesired, fun draw' random₁ => ?_⟩
  · rw [System.descendant, himage, hinitiator, hdesired]
  · exact run_of_ok hbuild (System.grow_of_allSimple draw' start random₁ hsimple)

/-- The first rule for `X` is the one in the block, and the count hangs on `n`. -/
theorem run_meaning_block :
    ∃ (p : Program) (system : System) (random : RandomSource),
      (Session.empty.load (.path "block.ls")
        ("set n = 1\nset axiom = 'FX'\n\x7b\n  rule: X -> X[Y]\n\x7d\n" ++
          "rule: X -> F\nrule: F -> FF\nset recursionCount = n + 1")).1 = .ok p ∧
      p.run RandomSource.draw (.seeded 5) = (.ok system, random) ∧
      system.state.text = "FFFFX[Y][Y]" ∧ system.generation = 2 ∧
      ∀ values : List Float,
        p.run RandomSource.draw (.ofList values) = (.ok system, .ofList values) := by
  have hcheck : (Session.empty.load (.path "block.ls")
      ("set n = 1\nset axiom = 'FX'\n\x7b\n  rule: X -> X[Y]\n\x7d\n" ++
        "rule: X -> F\nrule: F -> FF\nset recursionCount = n + 1")).1.toOption.any
      (fun p => (p.run RandomSource.draw (.seeded 5)).1.toOption.any fun system =>
        system.state.text = "FFFFX[Y][Y]" ∧ system.generation = 2) = true := by decide +kernel
  obtain ⟨p, hload, hp⟩ := Tree.ok_of_any hcheck
  obtain ⟨system, hsystem, hfacts⟩ := Tree.ok_of_any hp
  obtain ⟨htext, hgeneration⟩ := of_decide_eq_true hfacts
  have hrun : p.run RandomSource.draw (.seeded 5) =
      (.ok system, (p.run RandomSource.draw (.seeded 5)).2) := Prod.ext hsystem rfl
  obtain ⟨_, _, _, _, _, _, _, _, _, _, _, _, _, _, hany⟩ := run_meaning hload hrun
  exact ⟨p, system, _, hload, hrun, htext, hgeneration,
    fun values => hany RandomSource.draw (.ofList values)⟩

end Program

end Lindenmayer
