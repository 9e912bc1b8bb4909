import InfraLint.Syntax.Span
import InfraLint.Text.Spelling

/-!
Findings as they are reported: where, how severe, by which rule, in which words, and what would
mend them.
-/
namespace InfraLint

/-- How severe the findings of a rule are. A rule that is off finds nothing. -/
inductive Severity where
  | off
  | info
  | warning
  | error
  deriving DecidableEq, Repr

namespace Severity

def word : Severity → String
  | .off => "off"
  | .info => "info"
  | .warning => "warning"
  | .error => "error"

def name : Severity → String
  | .off => "OFF"
  | .info => "INFO"
  | .warning => "WARNING"
  | .error => "ERROR"

def all : List Severity := [.off, .info, .warning, .error]

def ofWord? (word : String) : Option Severity := all.find? fun s => s.word == word

def describe (s : Severity) : String :=
  "<DiagnosticLevel." ++ s.name ++ ": " ++ Text.quoted s.word ++ ">"

theorem ofWord?_word (s : Severity) : ofWord? s.word = some s := by
  cases s <;> rfl

end Severity

/-- Puts `text` in the place of what `span` covers. -/
structure Replacement where
  span : Span
  text : String
  deriving DecidableEq, Repr

/-- Replacements that belong together, under a title. -/
structure Fix where
  title : String
  replacements : List Replacement
  preferred : Bool
  deriving DecidableEq, Repr

structure Diagnostic where
  span : Span
  level : Severity
  code : String
  message : String
  docUri : Option String
  fixes : List Fix
  deriving DecidableEq, Repr

def Replacement.describe (r : Replacement) : Except TooLong String := do
  let span ← r.span.describe
  return Text.record "CodeReplacement" [("span", span), ("text", Text.quoted r.text)]

def Fix.describe (f : Fix) : Except TooLong String := do
  let replacements ← Text.each (f.replacements.map Replacement.describe)
  return Text.record "CodeFix"
    [("title", Text.quoted f.title), ("replacements", Text.sequence replacements),
      ("is_preferred", Text.truth f.preferred)]

/-- The fix that removes what `span` covers. -/
def Fix.removal (title : String) (span : Span) : Fix := ⟨title, [⟨span, ""⟩], true⟩

namespace Diagnostic

def isFixable (d : Diagnostic) : Bool := !d.fixes.isEmpty

/-- The diagnostic on one line. -/
def render (d : Diagnostic) : Except TooLong String := do
  let span ← d.span.render
  return span ++ ": " ++ d.level.word ++ " " ++ d.code ++ ": " ++ d.message

def describe (d : Diagnostic) : Except TooLong String := do
  let span ← d.span.describe
  let fixes ← Text.each (d.fixes.map Fix.describe)
  return Text.record "Diagnostic"
    [("span", span), ("level", d.level.describe), ("code", Text.quoted d.code),
      ("message", Text.quoted d.message), ("doc_uri", d.docUri.elim Text.absent Text.quoted),
      ("fixes", Text.sequence fixes)]

end Diagnostic

end InfraLint
