import Lindenmayer.Program.Session
import Lindenmayer.Rewriting.RandomSource
import Lindenmayer.Tree.Graph

/-!
# The command line

A program is given as a file or on standard input, run, and its final word printed. Options
have the program or its graph written out first. What is to be done for a source text is
laid out here as a list of actions, and it is left to `Main` to carry them out one by one;
an action that cannot be carried out ends the run.
-/

namespace Lindenmayer

structure Options where
  /-- The file to read, standard input if there is none. -/
  source : Option String
  seed : Option UInt64
  /-- Whether placeholders are filled in before the word is printed. -/
  resolve : Bool
  /-- Whether the program is printed as the printer writes it. -/
  showProgram : Bool
  /-- The file that the graph of the program goes to. -/
  graph : Option String
  deriving DecidableEq, Repr

inductive Setting where
  | resolve
  | showProgram
  | seed
  | graph
  deriving DecidableEq, Repr

inductive Action where
  | print (text : String)
  | complain (text : String)
  | write (path text : String)
  /-- Ends the run without success. -/
  | fail
  deriving DecidableEq, Repr

namespace Setting

def ofName? (name : String) : Option Setting :=
  if name = "resolve" then some resolve
  else if name = "print-ast" then some showProgram
  else if name = "seed" then some seed
  else if name = "graph" then some graph
  else none

/-- Whether a setting is made by a value. The others are made by their name alone, and a
value that comes with it is not looked at. -/
def needsValue : Setting → Bool
  | resolve | showProgram => false
  | seed | graph => true

/-- Whether an argument is meant as a setting. A hyphen alone is a name like any other. -/
def isMeant (argument : String) : Bool :=
  match argument.toList with
  | '-' :: _ :: _ => true
  | _ => false

/-- The setting that an argument makes, with the value given in it. The name comes after
two hyphens or more, the value after the first equals sign. Further equals signs in front
of the value do not count. -/
def ofArgument? (argument : String) : Option (Setting × Option String) :=
  match argument.toList with
  | '-' :: '-' :: cs =>
    let text := cs.dropWhile (· == '-')
    let name := text.takeWhile (· != '=')
    let given := match text.dropWhile (· != '=') with
      | [] => none
      | value => some (String.ofList (value.dropWhile (· == '=')))
    (ofName? (String.ofList name)).map fun setting => (setting, given)
  | _ => none

end Setting

namespace Options

def unset : Options := ⟨none, none, false, false, none⟩

/-- A seed as the user gives it. -/
def seed? (text : String) : Option UInt64 :=
  match Numeral.natural? (match text.toList with
    | '+' :: digits => digits
    | digits => digits) with
  | some n => if n < UInt64.size then some (UInt64.ofNat n) else none
  | none => none

/-- Takes a file to read, if there is none yet. -/
def withSource (o : Options) (path : String) : Option Options :=
  if o.source.isSome then none else some { o with source := some path }

/-- Takes a setting with its value. No setting is made twice. -/
def withSetting (o : Options) (value : String) : Setting → Option Options
  | .resolve => if o.resolve then none else some { o with resolve := true }
  | .showProgram => if o.showProgram then none else some { o with showProgram := true }
  | .seed =>
    if o.seed.isSome then none
    else (seed? value).map fun seed => { o with seed := some seed }
  | .graph => if o.graph.isSome then none else some { o with graph := some value }

/-- Reads arguments, nothing if they ask for something that there is not. Behind `--` there
are no more settings. A value that is not given together with the name of its setting is
the next argument. -/
def read (o : Options) : List String → Option Options
  | [] => some o
  | argument :: more =>
    if argument = "--" then more.foldlM withSource o
    else if !Setting.isMeant argument then (o.withSource argument).bind fun o => o.read more
    else
      match Setting.ofArgument? argument with
      | none => none
      | some (setting, given) =>
        if setting.needsValue && given.isNone then
          match more with
          | [] => none
          | value :: more =>
            if Setting.isMeant value then none
            else (o.withSetting value setting).bind fun o => o.read more
        else (o.withSetting (given.getD "") setting).bind fun o => o.read more

/-- Where the source text of a run comes from, for those who read about it. -/
def sourceName (o : Options) : FileName :=
  match o.source with
  | some path => .path path
  | none => .described "<stdin>"

end Options

namespace CommandLine

/-- What is to be done for a source text. -/
def actions (o : Options) (entropy : UInt64) (source : String) : List Action :=
  let (loaded, session) := Session.empty.load o.sourceName source
  let giveUp (e : ProgramError) : List Action := [.complain (session.render e), .fail]
  match loaded with
  | .error e => giveUp e
  | .ok program =>
    let shown := if o.showProgram then [Action.complain (program.print ++ "\n")] else []
    let drawn := match o.graph with
      | some path => [Action.write path program.tree.graph]
      | none => []
    let source := RandomSource.seeded (o.seed.getD entropy)
    let finished := match (program.run RandomSource.draw source).1 with
      | .error e => giveUp e
      | .ok system =>
        if o.resolve then
          match program.resolve system with
          | .error e => giveUp e
          | .ok text => [.print (text ++ "\n")]
        else [.print (system.state.text ++ "\n")]
    shown ++ drawn ++ finished

end CommandLine

end Lindenmayer
