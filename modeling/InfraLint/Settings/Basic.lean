import InfraLint.CodedError
import InfraLint.Diagnostic

/-!
Settings of rules and of the event log, and how they are read from data. A member that is
missing takes its default and a member that is not known is ignored. All members that are
invalid are reported, each with the place where it stands.
-/
namespace InfraLint

/-- How events are written. -/
inductive LogFormat where
  | json
  | console
  deriving DecidableEq, Repr

namespace LogFormat

def word : LogFormat → String
  | .json => "json"
  | .console => "console"

def ofWord? (word : String) : Option LogFormat :=
  [LogFormat.json, .console].find? fun f => f.word == word

end LogFormat

/-- Where the documentation of rules is, unless settings say otherwise. -/
def defaultDocUriBase : String := "https://aka.ms/bicep/linter"

structure RuleSettings where
  level : Severity
  docUriBase : String
  deriving DecidableEq, Repr

def RuleSettings.standard : RuleSettings := ⟨.warning, defaultDocUriBase⟩

structure LoggingSettings where
  level : String
  format : LogFormat
  deriving DecidableEq, Repr

def LoggingSettings.standard : LoggingSettings := ⟨"INFO", .console⟩

structure Settings where
  rule : RuleSettings
  logging : LoggingSettings
  deriving DecidableEq, Repr

/-- The two groups of settings. -/
inductive Section where
  | rule
  | logging
  deriving DecidableEq, Repr

namespace Section

def name : Section → String
  | .rule => "rule"
  | .logging => "logging"

def members : Section → List String
  | .rule => ["level", "doc_uri_base"]
  | .logging => ["level", "format"]

def shape : Section → String
  | .rule => "RuleConfig"
  | .logging => "LoggingConfig"

def all : List Section := [.rule, .logging]

end Section

/-- What a member was expected to be. -/
inductive Expected where
  | severity
  | text
  | format
  | group (s : Section)
  deriving DecidableEq, Repr

namespace Expected

def name : Expected → String
  | .severity => "enum"
  | .text => "string_type"
  | .format => "literal_error"
  | .group _ => "model_type"

def message : Expected → String
  | .severity => "Input should be 'off', 'info', 'warning' or 'error'"
  | .text => "Input should be a valid string"
  | .format => "Input should be 'json' or 'console'"
  | .group s => "Input should be a valid dictionary or instance of " ++ s.shape

end Expected

/-- A member that is not what was expected, and the place where it stands. -/
structure Invalid where
  expected : Expected
  place : List String
  input : Datum

namespace Invalid

def toDatum (e : Invalid) : Datum :=
  .record
    [("type", .text e.expected.name), ("loc", .list (e.place.map .text)),
      ("msg", .text e.expected.message), ("input", e.input)]

def under (s : Section) (e : Invalid) : Invalid := { e with place := s.name :: e.place }

end Invalid

/-- A value, unless something about it is invalid. -/
abbrev Checked (α : Type) := Except (List Invalid) α

/-- Two values side by side, with what is invalid about either. -/
def Checked.both {α β γ : Type} (f : α → β → γ) (a : Checked α) (b : Checked β) : Checked γ :=
  match a, b with
  | .ok a, .ok b => .ok (f a b)
  | .ok _, .error es => .error es
  | .error es, .ok _ => .error es
  | .error es, .error fs => .error (es ++ fs)

/-- The member `name` of a record, read by `parse`. -/
def readMember {α : Type} (entries : Entries Datum) (name : String) (standard : α)
    (expected : Expected) (parse : String → Option α) : Checked α :=
  match entries.get? name with
  | none => .ok standard
  | some (.text s) =>
    match parse s with
    | some a => .ok a
    | none => .error [⟨expected, [name], .text s⟩]
  | some d => .error [⟨expected, [name], d⟩]

def RuleSettings.read (entries : Entries Datum) : Checked RuleSettings :=
  Checked.both RuleSettings.mk
    (readMember entries "level" RuleSettings.standard.level .severity Severity.ofWord?)
    (readMember entries "doc_uri_base" RuleSettings.standard.docUriBase .text some)

def LoggingSettings.read (entries : Entries Datum) : Checked LoggingSettings :=
  Checked.both LoggingSettings.mk
    (readMember entries "level" LoggingSettings.standard.level .text some)
    (readMember entries "format" LoggingSettings.standard.format .format LogFormat.ofWord?)

/-- A group of settings, read from a record if it is there. -/
def readSection {α : Type} (s : Section) (entries : Entries Datum) (standard : α)
    (read : Entries Datum → Checked α) : Checked α :=
  match entries.get? s.name with
  | none => .ok standard
  | some (.record members) => (read members).mapError fun es => es.map (Invalid.under s)
  | some d => .error [⟨.group s, [s.name], d⟩]

def Settings.read (entries : Entries Datum) : Checked Settings :=
  Checked.both Settings.mk
    (readSection .rule entries RuleSettings.standard RuleSettings.read)
    (readSection .logging entries LoggingSettings.standard LoggingSettings.read)

inductive OfLevelError where
  | clash (e : NameClash)
  | invalid (e : CodedError)
  /-- The level is invalid and cannot be named. -/
  | tooLong (e : TooLong)

/-- Settings of a rule with a level in words, and possibly further members. -/
def RuleSettings.ofLevel (level : Datum) (overrides : Entries Datum) :
    Except OfLevelError RuleSettings :=
  match NameClash.find? "RuleConfig.from_level" false ["cls", "level"] overrides with
  | some e => .error (.clash e)
  | none =>
    (RuleSettings.read (("level", level) :: overrides)).mapError fun es =>
      match level.describe with
      | .error e => .tooLong e
      | .ok shown => .invalid
        { family := .configuration
          text := "Invalid rule configuration: level=" ++ shown
          context := [("level", level), ("errors", .list (es.map Invalid.toDatum))] }

end InfraLint
