import InfraLint.Syntax.Node

/-!
What stops a reading of a malformed document. Most absent parts are harmless; a few are asked
for something that only a part which is there could answer.
-/
namespace InfraLint

namespace Node

/-- The name under which a kind of node is shown. -/
def kindName : Node → String
  | .identifier _ => "IdentifierSyntax"
  | .string _ => "StringSyntax"
  | .integer _ => "IntegerLiteralSyntax"
  | .boolean _ => "BooleanLiteralSyntax"
  | .skipped _ => "SkippedTriviaSyntax"
  | .variableAccess _ => "VariableAccessSyntax"
  | .propertyAccess _ => "PropertyAccessSyntax"
  | .arrayAccess _ => "ArrayAccessSyntax"
  | .property _ => "ObjectPropertySyntax"
  | .object _ => "ObjectSyntax"
  | .item _ => "ArrayItemSyntax"
  | .array _ => "ArraySyntax"
  | .conditional _ => "IfConditionSyntax"
  | .loop _ => "ForSyntax"
  | .resourceDecl _ => "ResourceDeclarationSyntax"
  | .moduleDecl _ => "ModuleDeclarationSyntax"
  | .variableDecl _ => "VariableDeclarationSyntax"
  | .parameterDecl _ => "ParameterDeclarationSyntax"
  | .outputDecl _ => "OutputDeclarationSyntax"
  | .program _ => "ProgramSyntax"

/-- The name under which the absence of a node is shown. -/
def absentName : String := "NoneType"

/-- The kind of what stands at a place, be it a node or none. -/
def kindNameAt : Option Node → String
  | some n => n.kindName
  | none => absentName

end Node

inductive Fault where
  /-- A property of an object is absent where its key is needed. -/
  | absentProperty
  /-- The key of a property is absent. -/
  | absentKey
  /-- An item or property is absent where its value is needed. -/
  | absentHolder
  /-- A declaration has no name to make a symbol of. -/
  | absentName
  /-- A declaration has no name to report at. -/
  | absentNameSpan
  /-- There is no node at a place whose children are needed. -/
  | absentTree
  /-- Something of kind `kind` is asked for `member`, which its kind does not have. -/
  | lacks (kind member : String)
  deriving DecidableEq, Repr

namespace Fault

def lackMessage (kind member : String) : String :=
  "'" ++ kind ++ "' object has no attribute '" ++ member ++ "'"

def message : Fault → String
  | .absentProperty => lackMessage Node.absentName "try_get_key_text"
  | .absentKey => lackMessage Node.absentName "value"
  | .absentHolder => lackMessage Node.absentName "value"
  | .absentName => lackMessage Node.absentName "name"
  | .absentNameSpan => lackMessage Node.absentName "span"
  | .absentTree => "must be called with a dataclass type or instance"
  | .lacks kind member => lackMessage kind member

end Fault

end InfraLint
