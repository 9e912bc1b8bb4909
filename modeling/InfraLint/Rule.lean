import InfraLint.Diagnostic
import InfraLint.Inference.ReferenceScan
import InfraLint.Settings.Basic
import InfraLint.Template

/-!
Rules. A rule has a code, a template for its messages and settings, and checks a model. One
rule reports redundant entries of dependency lists, on the word of a provider of inferred
dependencies; others report every resource by its name. An analysis notes the questions to the
model, the consultations of the provider and what there is to log.
-/
namespace InfraLint

/-- Where inferred dependencies come from. -/
inductive Provider where
  | fixed (map : DependencyMap)
  | scan

def Provider.infer (p : Provider) (m : Model) (ignoreExplicit : Bool) : Audit DependencyMap :=
  match p with
  | .fixed map => return map
  | .scan => ReferenceScan.scan m ignoreExplicit

/-- What makes a rule the rule it is. -/
structure RuleTitle where
  name : String
  code : String
  description : String
  template : String
  deriving DecidableEq, Repr

/-- What is written holds a null character where it should be a name. -/
structure NoName where
  written : String
  deriving DecidableEq, Repr

def NoName.message (_ : NoName) : String := "type name must not contain null characters"

/-- A title under a name that a rule can have. -/
def RuleTitle.named (name code description template : String) : Except NoName RuleTitle :=
  if name.toList.contains '\x00' then .error ⟨name⟩ else .ok ⟨name, code, description, template⟩

/-- A rule lacks something that each rule has to define. -/
inductive TitleError where
  | noCode (name : String)
  | noTemplate (name : String)
  deriving DecidableEq, Repr

def TitleError.message : TitleError → String
  | .noCode name => name ++ " must define CODE"
  | .noTemplate name => name ++ " must define MESSAGE_TEMPLATE"

def RuleTitle.validate (t : RuleTitle) : Except TitleError Unit :=
  if t.code = "" then .error (.noCode t.name)
  else if t.template = "" then .error (.noTemplate t.name)
  else .ok ()

inductive Check where
  | redundantEntries (provider : Provider)
  | everyResource

structure Rule where
  title : RuleTitle
  check : Check
  settings : RuleSettings
  /-- Each consultation of the provider, with whether explicit entries were to be ignored. -/
  consultations : List Bool

inductive RuleError where
  | fault (f : Fault)
  | template (e : TemplateError)
  deriving DecidableEq, Repr

/-- What an analysis writes down. -/
inductive RuleNote where
  | audit (n : Note)
  | consulted (ignoreExplicit : Bool)
  | analyzed (code : String) (count : Nat)

abbrev Analysis := Journal RuleNote RuleError

namespace Rule

def redundancyTitle : RuleTitle where
  name := "NoUnnecessaryDependsOnRule"
  code := "no-unnecessary-dependson"
  description := "No unnecessary dependsOn."
  template := "Resource dependency '\x7b0\x7d' is redundant because it is already implied by " ++
    "a property reference."

def removalTitle : String := "Remove unnecessary dependsOn entry"

def level (r : Rule) : Severity := r.settings.level

def docUri (r : Rule) : String :=
  String.ofList (r.settings.docUriBase.toList.reverse.dropWhile (· == '/')).reverse ++ "/" ++
    r.title.code

/-- The message for some values. The rule on redundant entries names its first value only. -/
def formatMessage (r : Rule) (values : List Datum) : Except TemplateError String :=
  match r.check, values with
  | .redundantEntries _, [] => .error .noValue
  | .redundantEntries _, value :: _ => formatText r.title.template [value]
  | .everyResource, values => formatText r.title.template values

def diagnosticAt (r : Rule) (span : Span) (values : List Datum) (fixes : List Fix) :
    Except TemplateError Diagnostic := do
  let message ← r.formatMessage values
  return ⟨span, r.level, r.title.code, message, some r.docUri, fixes⟩

def ofAudit {α : Type} (a : Audit α) : Analysis α := a.translate .audit .fault

def ofFormat {α : Type} (outcome : Except TemplateError α) : Analysis α :=
  Journal.lift (outcome.mapError .template)

/-- The diagnostic for a redundant entry, with the fix that removes it. -/
def reportRedundancy (r : Rule) (x : Redundancy) : Analysis (List Diagnostic) := do
  let span := x.entry.origin.span
  let d ← ofFormat (r.diagnosticAt span [.ofText x.target.name] [Fix.removal removalTitle span])
  return [d]

/-- The diagnostic for a resource, at its name. -/
def reportResource (r : Rule) (x : Resource) : Analysis (List Diagnostic) := do
  match x.name with
  | none => Journal.fail (.fault .absentNameSpan)
  | some name =>
    let d ← ofFormat (r.diagnosticAt name.origin.span [.ofText name.name] [])
    return [d]

def findAll (r : Rule) (m : Model) : Analysis (List Diagnostic) := do
  match r.check with
  | .redundantEntries provider =>
    Journal.note (.consulted true)
    let inferred ← ofAudit (provider.infer m true)
    let found ← ofAudit (Redundancy.audit m inferred)
    Journal.forEach r.reportRedundancy found
  | .everyResource =>
    let resources ← ofAudit (Audit.ask .resources m.resources)
    Journal.forEach r.reportResource resources

/-- Runs the rule over a document. A rule that is off does not look at it. -/
def analyze (r : Rule) (m : Model) : Analysis (List Diagnostic) := do
  if r.level = .off then return []
  else
    let diagnostics ← r.findAll m
    Journal.note (.analyzed r.title.code diagnostics.length)
    return diagnostics

end Rule

namespace RuleNote

/-- The questions to the model among some notes. -/
def queries (notes : List RuleNote) : List Query :=
  notes.filterMap fun
    | .audit (.asked q) => some q
    | _ => none

def consultations (notes : List RuleNote) : List Bool :=
  notes.filterMap fun
    | .consulted ignoreExplicit => some ignoreExplicit
    | _ => none

end RuleNote

end InfraLint
