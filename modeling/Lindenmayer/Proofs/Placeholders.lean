import Lindenmayer.Word.Placeholder
import Mathlib.Data.List.Basic

/-!
# What placeholders a word has, and what they are filled in with

A parameter is scanned for placeholders from left to right. `Piece.Cuts` says
without a scanner what there is to find: a placeholder wherever a dollar sign
and an opening brace are followed by a closing brace in the same line, its name
going to the first of them, and a character everywhere else. A text can be cut
in one way only, and that is the way `Piece.split` cuts it
(`Piece.cuts_iff_eq_split`).

Filling in asks for the values of names, from left to right, and can fail for
one reason, a name without a value. `asking` is all there is to it: the first
such name, or an answer that takes every value to be there. Each layer, from the
pieces of a parameter up to a whole word, is one equation that says which names
are asked for and what the answer is, and everything but the placeholders is in
the answer as it was (`Word.resolve_eq`). What is filled in is a function of
the word and the values alone, `Letter.filled`, so that nothing depends on how
far a run of the filler got before it failed.
-/

namespace Lindenmayer

namespace Piece

/-! ## Cutting a text into pieces -/

/-- Whether characters can stand between the braces of a placeholder. -/
def Nameable (name : List Char) : Prop := '}' ∉ name ∧ '\n' ∉ name

/-- How a text falls into pieces, from left to right. -/
inductive Cuts : List Char → List Piece → Prop
  | nil : Cuts [] []
  | placeholder {name rest : List Char} {ps : List Piece} (hname : Nameable name)
    (hrest : Cuts rest ps) :
      Cuts ('$' :: '{' :: (name ++ '}' :: rest)) (.placeholder name :: ps)
  | char {c : Char} {rest : List Char} {ps : List Piece}
    (hnot : ∀ name rest', Nameable name → c :: rest ≠ '$' :: '{' :: (name ++ '}' :: rest'))
    (hrest : Cuts rest ps) : Cuts (c :: rest) (.char c :: ps)

theorem nameable_cons {c : Char} {name : List Char} (hbrace : c ≠ '}') (hline : c ≠ '\n') :
    Nameable (c :: name) ↔ Nameable name := by
  simp [Nameable, hbrace.symm, hline.symm]

/-- A name goes to the first closing brace, if that comes before the line ends. -/
theorem readName_eq_some_iff {cs name rest : List Char} :
    readName cs = some (name, rest) ↔ cs = name ++ '}' :: rest ∧ Nameable name := by
  fun_induction readName cs generalizing name rest with
  | case1 => simp
  | case2 cs =>
      cases name with
      | nil => simp [Nameable]
      | cons d name =>
          constructor
          · intro h
            cases h
          · rintro ⟨heq, hname⟩
            cases heq
            exact absurd List.mem_cons_self hname.1
  | case3 cs =>
      cases name with
      | nil => simp
      | cons d name =>
          constructor
          · intro h
            cases h
          · rintro ⟨heq, hname⟩
            cases heq
            exact absurd List.mem_cons_self hname.2
  | case4 c cs hbrace hline ih =>
      have hc : c ≠ '}' := hbrace
      have hc' : c ≠ '\n' := hline
      constructor
      · intro h
        obtain ⟨⟨name', rest'⟩, hread, heq⟩ := Option.map_eq_some_iff.1 h
        cases heq
        obtain ⟨rfl, hname⟩ := ih.1 hread
        exact ⟨rfl, (nameable_cons hc hc').2 hname⟩
      · rintro ⟨heq, hname⟩
        cases name with
        | nil => cases heq; exact absurd rfl hc
        | cons d name =>
            cases heq
            rw [ih.2 ⟨rfl, (nameable_cons hc hc').1 hname⟩]
            rfl

theorem cuts_split (cs : List Char) : Cuts cs (split cs) := by
  fun_induction split cs with
  | case1 => exact .nil
  | case2 cs name rest hread _ ih =>
      obtain ⟨rfl, hname⟩ := readName_eq_some_iff.1 hread
      exact .placeholder hname ih
  | case3 cs hread ih =>
      refine .char (fun name rest hname heq => ?_) ih
      cases heq
      rw [readName_eq_some_iff.2 ⟨rfl, hname⟩] at hread
      cases hread
  | case4 c cs hnot ih =>
      refine .char (fun name rest _ heq => ?_) ih
      cases heq
      exact hnot _ rfl rfl

/-- A text falls into pieces in one way only. -/
theorem Cuts.unique {cs : List Char} {ps qs : List Piece} (h : Cuts cs ps) (h' : Cuts cs qs) :
    ps = qs := by
  induction h generalizing qs with
  | nil => cases h'; rfl
  | @placeholder name rest ps hname _ ih =>
      generalize hcs : '$' :: '{' :: (name ++ '}' :: rest) = cs at h'
      cases h' with
      | nil => cases hcs
      | @placeholder name' rest' qs hname' hrest' =>
          have hread : readName (name ++ '}' :: rest) = some (name', rest') :=
            readName_eq_some_iff.2 ⟨by simpa using hcs, hname'⟩
          rw [readName_eq_some_iff.2 ⟨rfl, hname⟩] at hread
          cases hread
          rw [ih hrest']
      | char hnot _ => exact absurd hcs.symm (hnot name rest hname)
  | @char c rest ps hnot _ ih =>
      generalize hcs : c :: rest = cs at h'
      cases h' with
      | nil => cases hcs
      | placeholder hname' _ => exact absurd hcs (hnot _ _ hname')
      | char _ hrest' =>
          cases hcs
          rw [ih hrest']

theorem cuts_iff_eq_split {cs : List Char} {ps : List Piece} : Cuts cs ps ↔ ps = split cs :=
  ⟨fun h => h.unique (cuts_split cs), fun h => h ▸ cuts_split cs⟩

theorem Cuts.flatMap_chars {cs : List Char} {ps : List Piece} (h : Cuts cs ps) :
    ps.flatMap chars = cs := by
  induction h with
  | nil => rfl
  | @placeholder name rest ps _ _ ih =>
      rw [List.flatMap_cons, ih, chars, List.append_assoc]
      rfl
  | char _ _ ih => rw [List.flatMap_cons, ih, chars, List.singleton_append]

end Piece

/-! ## Asking for values -/

section Asking

variable {α β γ : Type} (values : Parameters) (asked more : List (Letter × String))

/-- What comes of asking letters for names in turn: the first name that has no
value, or an answer if there is none. -/
def asking (answer : α) : Except WordError α :=
  match asked.find? fun q => (values q.1 q.2).isNone with
  | some q => .error (.unresolvedPlaceholder q.2)
  | none => .ok answer

/-- There is an answer if every name has a value. -/
theorem asking_eq_ok_iff {answer a : α} :
    asking values asked answer = .ok a ↔
      (∀ q ∈ asked, values q.1 q.2 ≠ none) ∧ a = answer := by
  rw [asking]
  cases hfind : asked.find? fun q => (values q.1 q.2).isNone with
  | none =>
      have hall : ∀ q ∈ asked, values q.1 q.2 ≠ none := by simpa using hfind
      simp only [Except.ok.injEq, iff_true_intro hall, true_and, eq_comm]
  | some q =>
      have hnone : values q.1 q.2 = none := by simpa using List.find?_some hfind
      have hnot : ¬ ∀ q ∈ asked, values q.1 q.2 ≠ none :=
        fun hall => hall q (List.mem_of_find?_eq_some hfind) hnone
      simp only [hnot, reduceCtorEq, false_and]

theorem asking_map (f : α → β) (answer : α) :
    (asking values asked answer).map f = asking values asked (f answer) := by
  rw [asking, asking]
  cases asked.find? fun q => (values q.1 q.2).isNone with
  | none => rfl
  | some q => rfl

/-- More is asked for only once everything before has a value. -/
theorem asking_append (f : α → β → γ) (answer : α) (answer' : β) :
    (asking values asked answer).bind (fun a => (asking values more answer').map (f a)) =
      asking values (asked ++ more) (f answer answer') := by
  simp only [asking_map]
  unfold asking
  rw [List.find?_append]
  cases asked.find? fun q => (values q.1 q.2).isNone with
  | some q => rfl
  | none => rfl

end Asking

/-! ## Filling in -/

namespace Piece

variable {l : Letter} {values : Parameters}

/-- A piece with what is filled in for it. -/
def filled (value : String → Option String) : Piece → List Char
  | char c => [c]
  | placeholder name => ((value (String.ofList name)).getD "").toList

def name? : Piece → Option String
  | char _ => none
  | placeholder name => some (String.ofList name)

/-- The names in a text, from left to right. -/
def names (raw : String) : List String := (split raw.toList).filterMap name?

theorem mem_names_iff {raw name : String} :
    name ∈ names raw ↔ .placeholder name.toList ∈ split raw.toList := by
  rw [names, List.mem_filterMap]
  constructor
  · rintro ⟨p, hp, hname⟩
    cases p with
    | char c => cases hname
    | placeholder name' =>
        cases hname
        rwa [String.toList_ofList]
  · intro h
    exact ⟨_, h, by rw [name?, String.ofList_toList]⟩

theorem fill_char {value : String → Option String} (c : Char) (ps : List Piece) :
    fill value (char c :: ps) = (fill value ps).map (c :: ·) := by
  rw [fill]
  cases fill value ps <;> rfl

theorem fill_placeholder {value : String → Option String} {name : List Char} {text : String}
    (h : value (String.ofList name) = some text) (ps : List Piece) :
    fill value (placeholder name :: ps) = (fill value ps).map (text.toList ++ ·) := by
  rw [fill, h]
  cases fill value ps <;> rfl

/-- Pieces ask for their names and are filled in with the values. -/
theorem fill_eq (ps : List Piece) :
    fill (values l) ps =
      asking values ((ps.filterMap name?).map (l, ·)) (ps.flatMap (filled (values l))) := by
  induction ps with
  | nil => rfl
  | cons p ps ih =>
      cases p with
      | char c =>
          rw [fill_char, ih, asking_map, List.filterMap_cons_none rfl, List.flatMap_cons, filled,
            List.singleton_append]
      | placeholder name =>
          have hname : name? (placeholder name) = some (String.ofList name) := rfl
          rw [List.filterMap_cons_some hname, List.map_cons, List.flatMap_cons, filled]
          cases hvalue : values l (String.ofList name) with
          | none =>
              rw [fill, hvalue, asking, List.find?_cons_of_pos]
              simp [hvalue]
          | some text =>
              rw [fill_placeholder hvalue, ih, asking_map, asking, asking, List.find?_cons_of_neg]
              · rfl
              · simp [hvalue]

end Piece

namespace Letter

variable {l : Letter} {values : Parameters}

/-- Whether a letter has a placeholder of a name in one of its parameters. -/
def Mentions (l : Letter) (name : String) : Prop :=
  ∃ raw ∈ l.parameters, ∃ ps, Piece.Cuts raw.toList ps ∧ .placeholder name.toList ∈ ps

/-- A parameter with what is filled in for its placeholders. -/
def filledParameter (l : Letter) (values : Parameters) (raw : String) : String :=
  String.ofList ((Piece.split raw.toList).flatMap (Piece.filled (values l)))

/-- A letter as it is written, with what is filled in for its placeholders. -/
def filled (values : Parameters) (l : Letter) : List Char :=
  withParameters l.literal.toList (l.parameters.map (l.filledParameter values))

/-- What a letter asks for, parameter by parameter. -/
def asked (l : Letter) : List (Letter × String) :=
  l.parameters.flatMap fun raw => (Piece.names raw).map (l, ·)

theorem substitute_eq (l : Letter) (values : Parameters) (raw : String) :
    l.substitute values raw =
      asking values ((Piece.names raw).map (l, ·)) (l.filledParameter values raw) := by
  rw [substitute, Piece.fill_eq, filledParameter, ← asking_map values _ String.ofList, Piece.names]
  cases asking values _ _ <;> rfl

theorem substituteAll_cons (raw : String) (raws : List String) :
    l.substituteAll values (raw :: raws) =
      (l.substitute values raw).bind fun first =>
        (l.substituteAll values raws).map (first :: ·) := by
  rw [substituteAll]
  cases l.substitute values raw with
  | error e => rfl
  | ok first => cases l.substituteAll values raws <;> rfl

theorem substituteAll_eq (raws : List String) :
    l.substituteAll values raws =
      asking values (raws.flatMap fun raw => (Piece.names raw).map (l, ·))
        (raws.map (l.filledParameter values)) := by
  induction raws with
  | nil => rfl
  | cons raw raws ih =>
      rw [substituteAll_cons, substitute_eq, ih, asking_append values _ _ List.cons,
        List.flatMap_cons, List.map_cons]

theorem resolve_eq (l : Letter) (values : Parameters) :
    l.resolve values = asking values l.asked (l.filled values) := by
  rw [resolve, substituteAll_eq, filled, ← asking_map values _ (withParameters _), asked]
  cases asking values _ _ <;> rfl

/-- A letter asks for the names that it mentions. -/
theorem mem_asked_iff {q : Letter × String} : q ∈ l.asked ↔ q.1 = l ∧ l.Mentions q.2 := by
  rw [asked, List.mem_flatMap]
  constructor
  · rintro ⟨raw, hraw, hq⟩
    obtain ⟨name, hname, rfl⟩ := List.mem_map.1 hq
    exact ⟨rfl, raw, hraw, _, Piece.cuts_split _, Piece.mem_names_iff.1 hname⟩
  · rintro ⟨rfl, raw, hraw, ps, hcuts, hname⟩
    rw [Piece.cuts_iff_eq_split.1 hcuts] at hname
    exact ⟨raw, hraw, List.mem_map.2 ⟨q.2, Piece.mem_names_iff.2 hname, rfl⟩⟩

end Letter

namespace Word

variable {w : Word} {values : Parameters}

/-- What a word asks for, letter by letter. -/
def asked (w : Word) : List (Letter × String) := w.flatMap Letter.asked

theorem resolveChars_cons (l : Letter) (more : Word) :
    resolveChars values (l :: more) =
      (l.resolve values).bind fun first => (resolveChars values more).map (first ++ ·) := by
  rw [resolveChars]
  cases l.resolve values with
  | error e => rfl
  | ok first => cases resolveChars values more <;> rfl

theorem resolveChars_eq (w : Word) (values : Parameters) :
    resolveChars values w = asking values w.asked (w.flatMap (Letter.filled values)) := by
  induction w with
  | nil => rfl
  | cons l more ih =>
      rw [resolveChars_cons, Letter.resolve_eq, ih, asking_append values _ _ (· ++ ·), asked,
        asked, List.flatMap_cons, List.flatMap_cons]

theorem resolve_eq (w : Word) (values : Parameters) :
    w.resolve values =
      asking values w.asked (String.ofList (w.flatMap (Letter.filled values))) := by
  rw [resolve, resolveChars_eq, ← asking_map values _ String.ofList]
  cases asking values _ _ <;> rfl

/-- A word can be resolved if every name that it mentions has a value, and then
every placeholder gives way to the value of its name. -/
theorem resolve_eq_ok_iff {text : String} :
    w.resolve values = .ok text ↔
      (∀ l ∈ w, ∀ name, l.Mentions name → values l name ≠ none) ∧
        text = String.ofList (w.flatMap (Letter.filled values)) := by
  rw [resolve_eq, asking_eq_ok_iff]
  refine and_congr_left fun _ => ⟨fun h l hl name hname => ?_, fun h q hq => ?_⟩
  · exact h (l, name) (List.mem_flatMap.2 ⟨l, hl, Letter.mem_asked_iff.2 ⟨rfl, hname⟩⟩)
  · obtain ⟨l, hl, hmem⟩ := List.mem_flatMap.1 hq
    obtain ⟨rfl, hname⟩ := Letter.mem_asked_iff.1 hmem
    exact h q.1 hl q.2 hname

end Word

/-! ## Texts that stay as they are -/

/-- The values that put every placeholder back. -/
def Parameters.verbatim : Parameters := fun _ name => some ("$\x7b" ++ name ++ "\x7d")

namespace Letter

variable {l : Letter} {values : Parameters} {raw : String}

/-- A parameter stays if every piece of it does. -/
theorem filledParameter_eq_self
    (h : ∀ p ∈ Piece.split raw.toList, Piece.filled (values l) p = p.chars) :
    l.filledParameter values raw = raw := by
  rw [filledParameter, List.flatMap_congr h, (Piece.cuts_split raw.toList).flatMap_chars,
    String.ofList_toList]

theorem filledParameter_of_names_eq_nil (h : Piece.names raw = []) :
    l.filledParameter values raw = raw := by
  refine filledParameter_eq_self fun p hp => ?_
  cases p with
  | char c => rfl
  | placeholder name =>
      have hname : String.ofList name ∈ Piece.names raw := by
        rw [Piece.mem_names_iff, String.toList_ofList]
        exact hp
      rw [h] at hname
      cases hname

theorem filledParameter_verbatim : l.filledParameter .verbatim raw = raw := by
  refine filledParameter_eq_self fun p _ => ?_
  cases p with
  | char c => rfl
  | placeholder name =>
      rw [Piece.filled, Parameters.verbatim, Option.getD_some, String.toList_append,
        String.toList_append, String.toList_ofList (l := name), Piece.chars, List.append_assoc]
      rfl

/-- A letter stays if every parameter of it does. -/
theorem filled_eq_chars (h : ∀ raw ∈ l.parameters, l.filledParameter values raw = raw) :
    l.filled values = l.chars := by
  rw [filled, chars, List.map_congr_left h, List.map_id']

theorem filled_of_asked_eq_nil (h : l.asked = []) : l.filled values = l.chars := by
  refine filled_eq_chars fun raw hraw => filledParameter_of_names_eq_nil ?_
  exact List.map_eq_nil_iff.1 (List.flatMap_eq_nil_iff.1 h raw hraw)

end Letter

namespace Word

/-- A text falls in one way into placeholders, each at the first place where one
starts and up to the brace that ends it first, and characters that are in none.
Filling in puts the value of each placeholder in its place and nothing else: it
asks for the names from left to right, over all parameters and letters, and the
first without a value is the error that it ends with. So it leaves a text without
placeholders as it is, and one whose placeholders stand for themselves. -/
theorem fills_placeholders :
    (∀ cs ps, Piece.Cuts cs ps ↔ ps = Piece.split cs) ∧
    (∀ cs, (Piece.split cs).flatMap Piece.chars = cs) ∧
    (∀ (values : Parameters) (l : Letter) (index : Nat) (raw : String),
      l.parameters[index]? = some raw →
      l.parameter index values =
        asking values ((Piece.names raw).map (l, ·)) (l.filledParameter values raw) ∧
      (Piece.names raw = [] → l.parameter index values = .ok raw)) ∧
    (∀ (values : Parameters) (l : Letter),
      l.resolve values = asking values l.asked (l.filled values)) ∧
    (∀ (values : Parameters) (w : Word),
      w.resolve values =
        asking values w.asked (String.ofList (w.flatMap (Letter.filled values))) ∧
      (w.asked = [] → w.resolve values = .ok w.text)) ∧
    ∀ w : Word, w.resolve .verbatim = .ok w.text := by
  refine ⟨fun _ _ => Piece.cuts_iff_eq_split, fun cs => (Piece.cuts_split cs).flatMap_chars,
    fun values l index raw hraw => ?_, fun values l => Letter.resolve_eq l values,
    fun values w => ⟨resolve_eq w values, fun hnone => ?_⟩, fun w => ?_⟩
  · have hparameter : l.parameter index values = l.substitute values raw := by
      rw [Letter.parameter, hraw]
    rw [hparameter, Letter.substitute_eq]
    refine ⟨rfl, fun hnone => ?_⟩
    rw [hnone, Letter.filledParameter_of_names_eq_nil hnone]
    rfl
  · have hkept : w.flatMap (Letter.filled values) = chars w :=
      List.flatMap_congr fun l hl =>
        Letter.filled_of_asked_eq_nil (List.flatMap_eq_nil_iff.1 hnone l hl)
    rw [resolve_eq, hnone, hkept]
    rfl
  · have hkept : w.flatMap (Letter.filled .verbatim) = chars w :=
      List.flatMap_congr fun l _ =>
        Letter.filled_eq_chars fun raw _ => Letter.filledParameter_verbatim
    rw [resolve_eq, asking_eq_ok_iff, hkept]
    exact ⟨fun _ _ => nofun, rfl⟩

/-- A value that is a placeholder itself, a name with a dollar sign and a brace in
it, and a line feed where a name would have to be. -/
theorem fills_placeholders_nested :
    ∃ (l : Letter) (values few : Parameters),
      l = ⟨.forward, "F", ["$\x7ba\x7d0$\x7bb$\x7bc\x7d\x7d$\x7b\n\x7d"]⟩ ∧
      values l "a" = some "$\x7bb\x7d" ∧ values l "b$\x7bc" = some "" ∧ few l "b$\x7bc" = none ∧
      l.parameter 0 values = .ok "$\x7bb\x7d0\x7d$\x7b\n\x7d" ∧
      l.parameter 0 few = .error (.unresolvedPlaceholder "b$\x7bc") := by
  let values : Parameters := fun _ name => if name = "a" then some "$\x7bb\x7d" else some ""
  let few : Parameters := fun _ name => if name = "a" then some "$\x7bb\x7d" else none
  let l : Letter := ⟨.forward, "F", ["$\x7ba\x7d0$\x7bb$\x7bc\x7d\x7d$\x7b\n\x7d"]⟩
  have hnames : Piece.names "$\x7ba\x7d0$\x7bb$\x7bc\x7d\x7d$\x7b\n\x7d" = ["a", "b$\x7bc"] := by
    cbv
  have hfilled : l.filledParameter values "$\x7ba\x7d0$\x7bb$\x7bc\x7d\x7d$\x7b\n\x7d" =
      "$\x7bb\x7d0\x7d$\x7b\n\x7d" := by
    cbv
  have hfill := fun values => (fills_placeholders.2.2.1 values l 0 _ rfl).1
  rw [hnames] at hfill
  refine ⟨l, values, few, rfl, rfl, by decide, by decide, ?_, (hfill few).trans ?_⟩
  · rw [hfill values, hfilled, asking_eq_ok_iff]
    exact ⟨by simp [values, apply_ite], rfl⟩
  · simp [asking, few]

end Word

end Lindenmayer
