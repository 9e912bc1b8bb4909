import InfraLint.Json.Writer
import InfraLint.NameClash
import InfraLint.Settings.Basic

/-!
Events and their written forms. An event has a level, a name and fields; on its way out it is
joined by the variables of the context, its level, the name of its logger and a time stamp. In
JSON the parts keep their order. On the console some parts have a column of their own and come
first; the remaining parts follow by name, and a stack and an exception stand below the line.

An event cannot be written if one of its parts cannot be put into words, if something other than
text is to stand below a line of the console, or if, in a chosen style, something comes with it
that ought to be a record with the name of a logger.
-/
namespace InfraLint

inductive EventLevel where
  | debug
  | info
  | warning
  | error
  | critical
  deriving DecidableEq, Repr

namespace EventLevel

def word : EventLevel → String
  | .debug => "debug"
  | .info => "info"
  | .warning => "warning"
  | .error => "error"
  | .critical => "critical"

def all : List EventLevel := [.debug, .info, .warning, .error, .critical]

def ofWord? (word : String) : Option EventLevel := all.find? fun l => l.word == word

def number : EventLevel → Int
  | .debug => 10
  | .info => 20
  | .warning => 30
  | .error => 40
  | .critical => 50

end EventLevel

structure Event where
  level : EventLevel
  name : String
  fields : Entries Datum

/-- How events are written. A plain line is one of the console with the time and without the
name of the logger. -/
inductive Style where
  | plain
  | chosen (format : LogFormat) (timestamp : Bool)
  deriving DecidableEq, Repr

inductive Unwritable where
  /-- What has to be text is something of this kind. -/
  | notText (kind : String)
  /-- What is asked for its name is something of this kind and has none. -/
  | nameless (kind : String)
  | tooLong (e : TooLong)
  deriving DecidableEq, Repr

def Unwritable.message : Unwritable → String
  | .notText kind => "can only concatenate str (not \"" ++ kind ++ "\") to str"
  | .nameless kind => "'" ++ kind ++ "' object has no attribute 'name'"
  | .tooLong e => e.message

/-- Stands for the time at which an event is written. -/
def timeStamp : String := "<ts>"

/-- Stands for the calls in progress when an event is written. -/
def callStack : String := "<stack>"

namespace Event

/-- An event, unless one of its fields has a name that writing it to the log takes for itself. -/
def make (level : EventLevel) (name : String) (fields : Entries Datum) :
    Except NameClash Event := do
  NameClash.refuse (NameClash.find? ("BoundLogger." ++ level.word) false ["self", "event"] fields)
  NameClash.refuse
    (NameClash.find? "BoundLogger._proxy_to_logger" false ["method_name"] fields)
  return ⟨level, name, fields⟩

/-- The name of the part that asks for the calls in progress. -/
def stackRequest : String := "stack_info"

def stackKey : String := "stack"

/-- The parts of an event in the order in which they are put together. What the logger carries
comes first and the fields of the event go over it; then come the name and those variables of
the context that no part is named like. Level, logger and time take the place of a part of their
name. A part that asks for the calls in progress is not kept; if it does ask, they take the place of
a part of their name. -/
def parts (e : Event) (carried context : Entries Datum) (logger : Option String)
    (timestamp : Bool) : Entries Datum :=
  let own := (carried.putAll e.fields).put "event" (.text e.name)
  let joined := context.foldl (fun acc v => acc.putIfAbsent v.1 v.2) own
  let leveled := joined.put "level" (.text e.level.word)
  let named := match logger with
    | some name => leveled.put "logger" (.text name)
    | none => leveled
  let stamped := if timestamp then named.put "timestamp" (.text timeStamp) else named
  let kept := stamped.erase stackRequest
  if (stamped.get? stackRequest).any Datum.holds then kept.put stackKey (.text callStack) else kept

def recordKey : String := "_record"

/-- A chosen style takes the name of the logger from a record if one comes with the event. No
datum has a name, so that all that can come instead of a record is nothing. -/
def checkRecord (parts : Entries Datum) : Except Unwritable Unit :=
  match parts.get? recordKey with
  | none | some .null => .ok ()
  | some d => .error (.nameless d.kindName)

/-- The name of the part that asks for the error in progress. No error is in progress when an
event is written, so that it is a request for nothing. -/
def errorRequest : String := "exc_info"

/-- In JSON the name of an event is its message. -/
def jsonParts (parts : Entries Datum) : Entries Datum :=
  (parts.erase "event").put "message" ((parts.get? "event").getD .null)

def jsonLine (members : Entries Datum) : Except Unwritable String :=
  (Json.write (.record members)).mapError .tooLong

def padded (width : Nat) (s : String) : String :=
  s ++ String.ofList (List.replicate (width - s.length) ' ')

/-- Texts that could not be told from their surroundings are quoted. -/
def fieldText : Datum → Except TooLong String
  | .text s =>
    if s.toList.any fun c => [' ', '\t', '=', '\r', '\n', '"', '\''].contains c then
      .ok (Text.quoted s)
    else .ok s
  | d => d.describe

def bracketed (s : String) : String := "[" ++ s ++ "]"

/-- The parts that have a column of their own, and how it is laid out. The first is for a part
with an empty name. -/
def columns : List (String × (Datum → Except TooLong String)) :=
  [("", fun d => (fieldText d).map fun s => "=" ++ s),
    ("timestamp", Datum.display),
    ("level", fun d => d.display.map fun s => bracketed (padded 9 s)),
    ("event", fun d => d.display.map (padded 30)),
    ("logger", fun d => d.display.map bracketed),
    ("logger_name", fun d => d.display.map bracketed)]

/-- What a part adds below the line, on lines of its own. -/
def below (parts : Entries Datum) (name : String) : Except Unwritable (Option String) :=
  match parts.get? name with
  | none | some .null => .ok none
  | some (.text s) => .ok (some ("\n" ++ s))
  | some d => .error (.notText d.kindName)

def bar : String := "\n\n" ++ String.ofList (List.replicate 79 '=') ++ "\n"

def exceptionKey : String := "exception"

/-- All that stands below the line. The bar is drawn when an exception is there or when the
error in progress was asked for. -/
def trailer (parts : Entries Datum) : Except Unwritable String := do
  let stack ← below parts stackKey
  let exception ← below parts exceptionKey
  let asked := (parts.get? errorRequest).any Datum.holds
  let shown := exception.getD ""
  match stack with
  | none => return shown
  | some text => return text ++ (if exception.isSome || asked then bar else "") ++ shown

/-- The names of parts that the line itself leaves out. -/
def aside : List String := [stackKey, exceptionKey, errorRequest]

def reserved : List String := columns.map (·.1) ++ aside

def shown (parts : Entries Datum) : Except TooLong (List String) :=
  let fixed := columns.filterMap fun c => (parts.get? c.1).map c.2
  let others := Entries.byKey (parts.filter fun p => !reserved.contains p.1)
  Text.each (fixed ++ others.map fun p => (fieldText p.2).map fun s => p.1 ++ "=" ++ s)

/-- The line comes first, and then what stands below it. -/
def consoleLine (parts : Entries Datum) : Except Unwritable String := do
  let shown ← (shown parts).mapError Unwritable.tooLong
  let rest ← trailer parts
  let line := " ".intercalate (shown.filter fun s => s ≠ "")
  return String.ofList (line.toList.reverse.dropWhile (· == ' ')).reverse ++ rest

end Event

end InfraLint
