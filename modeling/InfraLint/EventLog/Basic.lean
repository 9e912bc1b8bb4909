import InfraLint.EventLog.Event
import InfraLint.Text.LetterCase

/-!
The log of events. Its threshold is decided once, by the first set-up; each set-up chooses the
style anew. A logger takes the style that is in force when it is first used after a set-up, and
keeps it, even if that first event was below the threshold. Before any set-up events are written
from warnings on. An event that cannot be written fails; before any set-up it does so below the
threshold too.
-/
namespace InfraLint

structure Logger where
  name : String
  /-- Fields that all of its events have. -/
  carried : Entries Datum
  distinct : carried.Distinct
  /-- The style it keeps, once it has one of its own. -/
  kept : Option Style

namespace Logger

/-- A logger that carries no fields. -/
def bare (name : String) (kept : Option Style) : Logger := ⟨name, [], .nil, kept⟩

/-- The name of a logger; without one it is the logger at the root. -/
def ofName (name : Option String) : Logger :=
  match name with
  | some "" | none => .bare "root" none
  | some name => .bare name none

/-- The parts of an event as they reach the writer of a style. -/
def partsIn (logger : Logger) (e : Event) (context : Entries Datum) : Style → Entries Datum
  | .plain => e.parts logger.carried context none true
  | .chosen format timestamp =>
    let parts := (e.parts logger.carried context (some logger.name) timestamp).erase
      Event.errorRequest
    match format with
    | .json => Event.jsonParts parts
    | .console => parts

/-- The line of an event in a style. -/
def line (logger : Logger) (e : Event) (context : Entries Datum) (style : Style) :
    Except Unwritable String :=
  let parts := logger.partsIn e context style
  match style with
  | .plain => Event.consoleLine parts
  | .chosen format _ => do
    Event.checkRecord parts
    match format with
    | .json => Event.jsonLine parts
    | .console => Event.consoleLine parts

end Logger

/-- Why an event does not get into the log. -/
inductive LogError where
  | clash (e : NameClash)
  | unwritable (e : Unwritable)
  deriving DecidableEq, Repr

def LogError.message : LogError → String
  | .clash e => e.message
  | .unwritable e => e.message

structure EventLog where
  /-- A set-up has come as far as to decide on the threshold. -/
  installed : Bool
  threshold : Int
  style : Style
  context : Entries Datum
  loggers : List Logger

/-- What a name of a level stands for. Two names stand for something that is no level. -/
inductive LevelMeaning where
  | number (n : Int)
  | text (s : String)
  | other (shown : String)
  deriving DecidableEq, Repr

inductive LevelError where
  | unknown (text : String)
  | notLevel (shown : String)
  deriving DecidableEq, Repr

def LevelError.message : LevelError → String
  | .unknown text => "Unknown level: " ++ Text.quoted text
  | .notLevel shown => "Level not an integer or a valid string: " ++ shown

def percentLayout : String := "%(levelname)s:%(name)s:%(message)s"

def braceLayout : String := "\x7blevelname\x7d:\x7bname\x7d:\x7bmessage\x7d"

def dollarLayout : String := "$\x7blevelname\x7d:$\x7bname\x7d:$\x7bmessage\x7d"

/-- The layouts by their marks, as they are shown. -/
def layoutTable : String :=
  Text.table <|
    [("%", "PercentStyle", percentLayout), ("\x7b", "StrFormatStyle", braceLayout),
      ("$", "StringTemplateStyle", dollarLayout)].map fun (mark, kind, layout) =>
        (Text.quoted mark,
          Text.sequence ["<class 'logging." ++ kind ++ "'>", Text.quoted layout])

/-- Names that stand for something, in capitals. -/
def levelNames : Entries LevelMeaning :=
  [("DEBUG", .number 10), ("INFO", .number 20), ("WARNING", .number 30), ("WARN", .number 30),
    ("ERROR", .number 40), ("CRITICAL", .number 50), ("FATAL", .number 50),
    ("NOTSET", .number 0), ("BASIC_FORMAT", .text percentLayout), ("_STYLES", .other layoutTable)]

/-- A name that stands for nothing is taken for the level of information. -/
def levelMeaning (name : String) : LevelMeaning :=
  (levelNames.get? (Text.capitals name)).getD (.number 20)

def LevelMeaning.level : LevelMeaning → Except LevelError Int
  | .number n => .ok n
  | .text s => .error (.unknown s)
  | .other shown => .error (.notLevel shown)

/-- The loggers of the library's own, in the order in which they are kept. -/
inductive OwnLogger where
  | rules
  | redundancy
  deriving DecidableEq, Repr

def OwnLogger.name : OwnLogger → String
  | .rules => "deplint.rules.base"
  | .redundancy => "deplint.rules.no_unnecessary_depends_on"

def OwnLogger.index : OwnLogger → Nat
  | .rules => 0
  | .redundancy => 1

namespace EventLog

def unconfigured : EventLog where
  installed := false
  threshold := 30
  style := .plain
  context := []
  loggers := [.ofName (some OwnLogger.rules.name), .ofName (some OwnLogger.redundancy.name)]

/-- The first set-up decides on the threshold; if the level is none, the threshold stays as it
was and no later set-up decides on it either. -/
def install (log : EventLog) (meaning : LevelMeaning) : EventLog × Except LevelError Unit :=
  if log.installed then (log, .ok ())
  else
    match meaning.level with
    | .ok n => ({ log with installed := true, threshold := n }, .ok ())
    | .error e => ({ log with installed := true }, .error e)

/-- Sets the log up. The style changes only if the level is accepted. -/
def configure (log : EventLog) (level : String) (format : LogFormat) (timestamp : Bool) :
    EventLog × Except LevelError Unit :=
  match log.install (levelMeaning level) with
  | (log, .ok ()) => ({ log with style := .chosen format timestamp }, .ok ())
  | (log, .error e) => (log, .error e)

/-- Once the threshold has been decided on, a set-up always succeeds and leaves it alone. -/
theorem configure_of_installed {log : EventLog} (h : log.installed = true) (level : String)
    (format : LogFormat) (timestamp : Bool) :
    log.configure level format timestamp =
      ({ log with style := .chosen format timestamp }, .ok ()) := by
  simp [configure, install, h]

/-- Adds a logger and returns its index. -/
def addLogger (log : EventLog) (logger : Logger) : Nat × EventLog :=
  (log.loggers.length, { log with loggers := log.loggers ++ [logger] })

def openLogger (log : EventLog) (name : Option String) : Nat × EventLog :=
  log.addLogger (.ofName name)

/-- The style of a logger's next event. -/
def styleOf (log : EventLog) (logger : Logger) : Style := logger.kept.getD log.style

/-- A logger in use: it keeps the style in force, unless none has been chosen yet. -/
def settle (log : EventLog) (logger : Logger) : Logger :=
  match logger.kept, log.style with
  | none, .chosen format timestamp => { logger with kept := some (.chosen format timestamp) }
  | _, _ => logger

/-- A logger that carries further fields, in the style that is in force now. -/
def derive (log : EventLog) (logger : Logger) (fields : Entries Datum) : Logger :=
  ⟨logger.name, logger.carried.putAll fields, logger.distinct.putAll fields,
    some (log.styleOf logger)⟩

def admits (log : EventLog) (level : EventLevel) : Bool := decide (log.threshold ≤ level.number)

/-- The lines that an event comes to. One below the threshold comes to none, and in a chosen
style it is not even put into words. -/
def linesOf (log : EventLog) (logger : Logger) (e : Event) : Except Unwritable (List String) :=
  match log.admits e.level, log.styleOf logger with
  | false, .chosen .. => .ok []
  | false, style => (logger.line e log.context style).map fun _ => []
  | true, style => (logger.line e log.context style).map fun line => [line]

/-- A logger comes into use. -/
def touch (log : EventLog) (index : Nat) : EventLog :=
  match log.loggers[index]? with
  | none => log
  | some logger => { log with loggers := log.loggers.set index (log.settle logger) }

/-- Passes an event to a logger that is kept. The logger comes into use, whatever comes of the
event. -/
def emit (log : EventLog) (index : Nat) (e : Event) : Except Unwritable (List String) × EventLog :=
  match log.loggers[index]? with
  | none => (.ok [], log)
  | some logger => (log.linesOf logger e, log.touch index)

/-- Writes an event to a logger that is kept. An event that cannot be made has the logger come
into use all the same. -/
def write (log : EventLog) (index : Nat) (event : Except NameClash Event) :
    Except LogError (List String) × EventLog :=
  match event with
  | .error e => (.error (.clash e), log.touch index)
  | .ok e =>
    let (lines, log) := log.emit index e
    (lines.mapError .unwritable, log)

/-- Writes an event to a logger of its own. -/
def writeOnce (log : EventLog) (name : Option String) (event : Except NameClash Event) :
    Except LogError (List String) :=
  match event with
  | .error e => .error (.clash e)
  | .ok e => (log.linesOf (.ofName name) e).mapError .unwritable

/-- How it went to write the events among some notes. -/
structure Playback (ν : Type) where
  lines : List String
  /-- The notes up to the first one whose event could not be written, that one included. -/
  reached : List ν
  flaw : Option Unwritable
  log : EventLog

/-- Writes the events among some notes in order and stops at the first that cannot be written. -/
def play {ν : Type} (event? : ν → Option (Nat × Event)) (log : EventLog) : List ν → Playback ν
  | [] => ⟨[], [], none, log⟩
  | n :: rest =>
    match event? n with
    | none =>
      let later := play event? log rest
      { later with reached := n :: later.reached }
    | some (index, e) =>
      match log.emit index e with
      | (.error flaw, log) => ⟨[], [n], some flaw, log⟩
      | (.ok lines, log) =>
        let later := play event? log rest
        { later with lines := lines ++ later.lines, reached := n :: later.reached }

def setVariable (log : EventLog) (name : String) (value : Datum) : EventLog :=
  { log with context := log.context.put name value }

def clearVariables (log : EventLog) : EventLog := { log with context := [] }

end EventLog

end InfraLint
