import InfraLint.NameClash

/-!
Errors with a stable code. An error belongs to a family, which decides its name and, apart from
the general family, its code; it says what is wrong in words and carries a context of named
data. A context cannot use the names that are taken by the error itself.
-/
namespace InfraLint

inductive ErrorFamily where
  | general (code : String)
  | semanticModel
  | unboundNode
  | configuration
  deriving DecidableEq, Repr

namespace ErrorFamily

def name : ErrorFamily → String
  | .general _ => "DepLintError"
  | .semanticModel => "SemanticModelError"
  | .unboundNode => "UnboundNodeError"
  | .configuration => "ConfigurationError"

def code : ErrorFamily → String
  | .general code => code
  | .semanticModel => "SEMANTIC_MODEL_ERROR"
  | .unboundNode => "UNBOUND_NODE"
  | .configuration => "CONFIGURATION_ERROR"

/-- The family of a name; `code` is that of an error of the general family. -/
def ofName? (name code : String) : Option ErrorFamily :=
  [.general code, .semanticModel, .unboundNode, .configuration].find? fun f => f.name == name

/-- What makes an error of the family. Unbound nodes are errors of the model. -/
def maker : ErrorFamily → String
  | .general _ => "DepLintError.__init__"
  | .semanticModel | .unboundNode => "SemanticModelError.__init__"
  | .configuration => "ConfigurationError.__init__"

/-- The names that are taken where an error of the family is made. -/
def taken : ErrorFamily → List String
  | .general _ => ["self", "code", "message"]
  | _ => ["self", "message"]

/-- A family of its own hands its code on by name. -/
def takenByName : ErrorFamily → List String
  | .general _ => []
  | _ => ["code"]

end ErrorFamily

structure CodedError where
  family : ErrorFamily
  text : String
  context : Entries Datum

namespace CodedError

/-- An error with a context. Of entries with one name the last gives the value. -/
def make (family : ErrorFamily) (text : String) (context : Entries Datum) :
    Except NameClash CodedError := do
  NameClash.refuse (NameClash.find? family.maker false family.taken context)
  NameClash.refuse
    (NameClash.find? "deplint.errors.DepLintError.__init__" true family.takenByName context)
  return ⟨family, text, Entries.putAll [] context⟩

def message (e : CodedError) : String := "[" ++ e.family.code ++ "] " ++ e.text

/-- Without a context the comma behind the text stays. -/
def describe (e : CodedError) : Except TooLong String := do
  let named ← Text.each (e.context.map fun c => c.2.describe.map fun text => c.1 ++ "=" ++ text)
  return e.family.name ++ "(code=" ++ Text.quoted e.family.code ++ ", message=" ++
    Text.quoted e.text ++ ", " ++ ", ".intercalate named ++ ")"

end CodedError

end InfraLint
