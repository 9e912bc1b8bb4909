import InfraLint.Draft.Build
import InfraLint.EventLog.Basic
import InfraLint.Rule
import InfraLint.Settings.Environment

/-!
A session of linting: variables of the environment, the settings read from them, the event log,
and the models and rules that have been made. Settings are read when they are first needed and
kept until they are forgotten; an attempt that fails keeps nothing. A rule takes its settings
when it is made. Models, rules and loggers are known by their numbers.
-/
namespace InfraLint

structure Session where
  environment : Environment
  kept : Option Settings
  log : EventLog
  /-- How many numbers for giving out identities to symbols have been used up. -/
  makers : Nat
  models : List Model
  rules : List Rule

/-- What a call of an analysis or audit shows: the lines written to the log, the questions to
the model, and how it came out. -/
structure Report (ε α : Type) where
  lines : List String
  queries : List Query
  outcome : Except ε α

/-- Why a call that writes to the log does not come to its end. -/
inductive Interruption (ε : Type) where
  | failed (e : ε)
  | unwritable (e : Unwritable)

inductive SetupError where
  | load (e : LoadError)
  | level (e : LevelError)

inductive RuleMakingError where
  | incomplete (e : TitleError)
  | load (e : LoadError)

/-- The event that a resource is skipped. -/
def skipEvent (resource : Symbol) : Event where
  level := .debug
  name := "depends_on_skipped"
  fields := [("resource", .ofText resource.name), ("reason", .text "no_inferred_dependencies")]

/-- The event that a rule has been through a document. -/
def analyzedEvent (code : String) (count : Nat) : Event where
  level := .debug
  name := "rule_analyzed"
  fields := [("rule", .text code), ("diagnostics", .count count)]

def Note.event? : Note → Option (Nat × Event)
  | .skipped resource => some (OwnLogger.redundancy.index, skipEvent resource)
  | .asked _ => none

def RuleNote.event? : RuleNote → Option (Nat × Event)
  | .audit n => n.event?
  | .analyzed code count => some (OwnLogger.rules.index, analyzedEvent code count)
  | .consulted _ => none

namespace Session

def start : Session := ⟨[], none, .unconfigured, 0, [], []⟩

/-- Sets or removes variables one after another. -/
def assignAll (s : Session) (assignments : List (String × Option String)) :
    Session × Except Environment.Refusal Unit :=
  let (environment, outcome) := s.environment.assignAll assignments
  ({ s with environment }, outcome)

/-- The settings that are kept, or else those of the environment. -/
def settings (s : Session) : Except LoadError Settings :=
  match s.kept with
  | some settings => .ok settings
  | none => Settings.load s.environment

/-- Keeps settings that could be read. -/
def keep (s : Session) : Except LoadError Settings → Session
  | .ok settings => { s with kept := some settings }
  | .error _ => s

def loadSettings (s : Session) : Session × Except LoadError Settings :=
  (s.keep s.settings, s.settings)

def forgetSettings (s : Session) : Session := { s with kept := none }

/-- The first text that says something. -/
def given (text : Option String) (standard : String) : String :=
  match text with
  | none | some "" => standard
  | some text => text

/-- Sets the event log up. What is not given is taken from the settings, which are read in any
case. A format that is not JSON is that of the console. -/
def configureLog (s : Session) (level format : Option String) (timestamp : Bool) :
    Session × Except SetupError Int :=
  match s.loadSettings with
  | (s, .error e) => (s, .error (.load e))
  | (s, .ok settings) =>
    let word := given format settings.logging.format.word
    let format := if word = LogFormat.json.word then .json else .console
    match s.log.configure (given level settings.logging.level) format timestamp with
    | (log, .ok ()) => ({ s with log }, .ok log.threshold)
    | (log, .error e) => ({ s with log }, .error (.level e))

def openLogger (s : Session) (name : Option String) : Session × Nat :=
  let (index, log) := s.log.openLogger name
  ({ s with log }, index)

/-- Writes an event, if it could be made, to a logger of the session. -/
def write (s : Session) (logger : Nat) (event : Except NameClash Event) :
    Session × Except LogError (List String) :=
  let (lines, log) := s.log.write logger event
  ({ s with log }, lines)

/-- A number that no model has given out identities under. Zero stays free for symbols that
are made outside of models. -/
def nextMaker (s : Session) : Session × Nat :=
  ({ s with makers := s.makers + 1 }, s.makers + 1)

def adopt (s : Session) (m : Model) : Session × Nat :=
  ({ s with models := s.models ++ [m] }, s.models.length)

def addModel (s : Session) (program : Option Node) : Session × Except Fault Nat :=
  let (s, maker) := s.nextMaker
  match Model.ofRoot maker program with
  | .error e => (s, .error e)
  | .ok m =>
    let (s, index) := s.adopt m
    (s, .ok index)

/-- Builds a draft and adds the model that comes of it. -/
def addDraft (s : Session) (d : Draft) : Session × Draft × Except ModelError Nat :=
  let (s, maker) := s.nextMaker
  match d.build maker with
  | (d, .error e) => (s, d, .error e)
  | (d, .ok m) =>
    let (s, index) := s.adopt m
    (s, d, .ok index)

def replaceModel (s : Session) (index : Nat) (m : Model) : Session :=
  { s with models := s.models.set index m }

/-- Binds a node of a model of the session. -/
def bind (s : Session) (model : Nat) (node : Option Node) (symbol : Symbol) :
    Option (Session × Except ModelError Unit) :=
  s.models[model]?.map fun m =>
    match m.bind node symbol with
    | .ok m => (s.replaceModel model m, .ok ())
    | .error e => (s, .error e)

/-- Declares a node of a model of the session. -/
def declare (s : Session) (model : Nat) (node : Option Node) :
    Option (Session × Except ModelError Symbol) :=
  s.models[model]?.map fun m =>
    match m.declare node with
    | .ok (symbol, m) => (s.replaceModel model m, .ok symbol)
    | .error e => (s, .error e)

def adoptRule (s : Session) (r : Rule) : Session × Nat :=
  ({ s with rules := s.rules ++ [r] }, s.rules.length)

/-- Makes a rule, with the session's settings unless it brings its own. What it has to define
is looked at before any settings are read. -/
def addRule (s : Session) (title : RuleTitle) (check : Check) (own : Option RuleSettings) :
    Session × Except RuleMakingError Nat :=
  match title.validate with
  | .error e => (s, .error (.incomplete e))
  | .ok () =>
    match own with
    | some settings =>
      let (s, index) := s.adoptRule ⟨title, check, settings, []⟩
      (s, .ok index)
    | none =>
      match s.loadSettings with
      | (s, .error e) => (s, .error (.load e))
      | (s, .ok settings) =>
        let (s, index) := s.adoptRule ⟨title, check, settings.rule, []⟩
        (s, .ok index)

/-- An event that cannot be written ends what it belongs to. -/
def interrupted {ε α : Type} (flaw : Option Unwritable) (outcome : Except ε α) :
    Except (Interruption ε) α :=
  match flaw with
  | some e => .error (.unwritable e)
  | none => outcome.mapError .failed

/-- Runs a rule of the session over a model of the session. Consultations of the provider are
remembered however the analysis comes out. -/
def analyze (s : Session) (rule model : Nat) :
    Option (Session × Report (Interruption RuleError) (List Diagnostic)) := do
  let r ← s.rules[rule]?
  let m ← s.models[model]?
  let analysis := r.analyze m
  let played := s.log.play RuleNote.event? analysis.notes
  let consultations := r.consultations ++ RuleNote.consultations played.reached
  let consulted := { r with consultations }
  some ({ s with log := played.log, rules := s.rules.set rule consulted },
    ⟨played.lines, RuleNote.queries played.reached, interrupted played.flaw analysis.outcome⟩)

/-- Looks for redundant entries in a model of the session. -/
def audit (s : Session) (model : Nat) (inferred : DependencyMap) :
    Option (Session × Report (Interruption Fault) (List Redundancy)) := do
  let m ← s.models[model]?
  let audit := Redundancy.audit m inferred
  let played := s.log.play Note.event? audit.notes
  some ({ s with log := played.log },
    ⟨played.lines, Note.queries played.reached, interrupted played.flaw audit.outcome⟩)

end Session

end InfraLint
