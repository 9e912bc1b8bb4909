import InfraLint.Syntax.Span

/-!
Nodes of an infrastructure document, as a parser hands them over. Each node has an identity,
and nodes are told apart by it alone: two nodes of equal content at different places are
different, and one node may stand at several places. A child or a text that the parser could not
supply is absent. The fields of a node are also available by name and in source order, which gives
its children.
-/
namespace InfraLint

/-- An identity is a number given out by one of several independent makers. -/
structure Identity where
  maker : Nat
  serial : Nat
  deriving DecidableEq, Repr, Inhabited

/-- What every node has: its identity and the range of characters it covers. -/
structure Origin where
  id : Identity
  span : Span
  deriving DecidableEq, Repr, Inhabited

structure Identifier where
  origin : Origin
  name : Option String

structure StringLiteral where
  origin : Origin
  value : Option String

structure IntegerLiteral where
  origin : Origin
  value : Option Int

structure BooleanLiteral where
  origin : Origin
  value : Option Bool

/-- Text that the parser could make no sense of. -/
structure SkippedText where
  origin : Origin
  text : Option String

/-- A bare reference to a declared name. -/
structure VariableAccess where
  origin : Origin
  name : Option Identifier

structure Parameter where
  origin : Origin
  name : Option Identifier
  typeName : Option Identifier

/-- A property is named by a plain word or by a quoted one. -/
inductive Key where
  | identifier (x : Identifier)
  | string (x : StringLiteral)

mutual

inductive Node where
  | identifier (x : Identifier)
  | string (x : StringLiteral)
  | integer (x : IntegerLiteral)
  | boolean (x : BooleanLiteral)
  | skipped (x : SkippedText)
  | variableAccess (x : VariableAccess)
  | propertyAccess (x : PropertyAccess)
  | arrayAccess (x : ArrayAccess)
  | property (x : Property)
  | object (x : Object)
  | item (x : Item)
  | array (x : ArrayLiteral)
  | conditional (x : Conditional)
  | loop (x : Loop)
  | resourceDecl (x : Resource)
  | moduleDecl (x : Module)
  | variableDecl (x : Variable)
  | parameterDecl (x : Parameter)
  | outputDecl (x : Output)
  | program (x : Program)

/-- `base.property` -/
structure PropertyAccess where
  origin : Origin
  base : Option Node
  propertyName : Option Identifier

/-- `base[index]` -/
structure ArrayAccess where
  origin : Origin
  base : Option Node
  index : Option Node

structure Property where
  origin : Origin
  key : Option Key
  value : Option Node

/-- An object literal. As the body of a resource it may hold further resources. -/
structure Object where
  origin : Origin
  properties : List (Option Property)
  resources : List (Option Resource)

structure Item where
  origin : Origin
  value : Option Node

structure ArrayLiteral where
  origin : Origin
  items : List (Option Item)

/-- `if (condition) body` -/
structure Conditional where
  origin : Origin
  condition : Option Node
  body : Option Node

/-- `[for item in expression: body]` -/
structure Loop where
  origin : Origin
  itemVariable : Option Identifier
  expression : Option Node
  body : Option Node

structure Resource where
  origin : Origin
  name : Option Identifier
  typeString : Option StringLiteral
  value : Option Node

structure Module where
  origin : Origin
  name : Option Identifier
  path : Option StringLiteral
  value : Option Node

structure Variable where
  origin : Origin
  name : Option Identifier
  value : Option Node

structure Output where
  origin : Origin
  name : Option Identifier
  typeName : Option Identifier
  value : Option Node

structure Program where
  origin : Origin
  declarations : List (Option Node)

end

def Key.node : Key → Node
  | .identifier x => .identifier x
  | .string x => .string x

def Key.text : Key → Option String
  | .identifier x => x.name
  | .string x => x.value

/-- What a field of a node holds. -/
inductive Content where
  | text (s : Option String)
  | integer (n : Option Int)
  | boolean (b : Option Bool)
  | one (child : Option Node)
  | many (children : List (Option Node))

/-- The places for nodes that a field offers, absent ones included. -/
def Content.places : Content → List (Option Node)
  | .one child => [child]
  | .many children => children
  | _ => []

namespace Node

def origin : Node → Origin
  | .identifier x => x.origin
  | .string x => x.origin
  | .integer x => x.origin
  | .boolean x => x.origin
  | .skipped x => x.origin
  | .variableAccess x => x.origin
  | .propertyAccess x => x.origin
  | .arrayAccess x => x.origin
  | .property x => x.origin
  | .object x => x.origin
  | .item x => x.origin
  | .array x => x.origin
  | .conditional x => x.origin
  | .loop x => x.origin
  | .resourceDecl x => x.origin
  | .moduleDecl x => x.origin
  | .variableDecl x => x.origin
  | .parameterDecl x => x.origin
  | .outputDecl x => x.origin
  | .program x => x.origin

def id (n : Node) : Identity := n.origin.id

def span (n : Node) : Span := n.origin.span

/-- The fields after the span, by name and in source order. -/
def fields : Node → List (String × Content)
  | .identifier x => [("name", .text x.name)]
  | .string x => [("value", .text x.value)]
  | .integer x => [("value", .integer x.value)]
  | .boolean x => [("value", .boolean x.value)]
  | .skipped x => [("text", .text x.text)]
  | .variableAccess x => [("name", .one (x.name.map .identifier))]
  | .propertyAccess x =>
    [("base_expression", .one x.base), ("property_name", .one (x.propertyName.map .identifier))]
  | .arrayAccess x => [("base_expression", .one x.base), ("index_expression", .one x.index)]
  | .property x => [("key", .one (x.key.map Key.node)), ("value", .one x.value)]
  | .object x =>
    [("properties", .many (x.properties.map (·.map .property))),
      ("resources", .many (x.resources.map (·.map .resourceDecl)))]
  | .item x => [("value", .one x.value)]
  | .array x => [("items", .many (x.items.map (·.map .item)))]
  | .conditional x => [("condition_expression", .one x.condition), ("body", .one x.body)]
  | .loop x =>
    [("item_variable", .one (x.itemVariable.map .identifier)), ("expression", .one x.expression),
      ("body", .one x.body)]
  | .resourceDecl x =>
    [("name", .one (x.name.map .identifier)), ("type_string", .one (x.typeString.map .string)),
      ("value", .one x.value)]
  | .moduleDecl x =>
    [("name", .one (x.name.map .identifier)), ("path", .one (x.path.map .string)),
      ("value", .one x.value)]
  | .variableDecl x => [("name", .one (x.name.map .identifier)), ("value", .one x.value)]
  | .parameterDecl x =>
    [("name", .one (x.name.map .identifier)), ("type_name", .one (x.typeName.map .identifier))]
  | .outputDecl x =>
    [("name", .one (x.name.map .identifier)), ("type_name", .one (x.typeName.map .identifier)),
      ("value", .one x.value)]
  | .program x => [("declarations", .many x.declarations)]

/-- All places for nodes below a node, in source order, absent children included. -/
def places (n : Node) : List (Option Node) := n.fields.flatMap fun f => f.2.places

def children (n : Node) : List Node := n.places.filterMap fun place => place

theorem places_variableAccess (x : VariableAccess) :
    (Node.variableAccess x).places = [x.name.map .identifier] := rfl

theorem places_propertyAccess (x : PropertyAccess) :
    (Node.propertyAccess x).places = [x.base, x.propertyName.map .identifier] := rfl

theorem places_arrayAccess (x : ArrayAccess) :
    (Node.arrayAccess x).places = [x.base, x.index] := rfl

theorem places_property (x : Property) :
    (Node.property x).places = [x.key.map Key.node, x.value] := rfl

theorem places_object (x : Object) :
    (Node.object x).places =
      x.properties.map (·.map .property) ++ x.resources.map (·.map .resourceDecl) := by
  simp only [places, fields, Content.places, List.flatMap_cons, List.flatMap_nil, List.append_nil]

theorem places_item (x : Item) :
    (Node.item x).places = [x.value] := rfl

theorem places_array (x : ArrayLiteral) :
    (Node.array x).places = x.items.map (·.map .item) := by
  simp only [places, fields, Content.places, List.flatMap_cons, List.flatMap_nil, List.append_nil]

theorem places_conditional (x : Conditional) :
    (Node.conditional x).places = [x.condition, x.body] := rfl

theorem places_loop (x : Loop) :
    (Node.loop x).places = [x.itemVariable.map .identifier, x.expression, x.body] := rfl

theorem places_resourceDecl (x : Resource) :
    (Node.resourceDecl x).places =
      [x.name.map .identifier, x.typeString.map .string, x.value] := rfl

theorem places_moduleDecl (x : Module) :
    (Node.moduleDecl x).places = [x.name.map .identifier, x.path.map .string, x.value] := rfl

theorem places_variableDecl (x : Variable) :
    (Node.variableDecl x).places = [x.name.map .identifier, x.value] := rfl

theorem places_parameterDecl (x : Parameter) :
    (Node.parameterDecl x).places = [x.name.map .identifier, x.typeName.map .identifier] := rfl

theorem places_outputDecl (x : Output) :
    (Node.outputDecl x).places =
      [x.name.map .identifier, x.typeName.map .identifier, x.value] := rfl

theorem places_program (x : Program) : (Node.program x).places = x.declarations := by
  simp only [places, fields, Content.places, List.flatMap_cons, List.flatMap_nil, List.append_nil]

theorem mem_children_iff {n c : Node} : c ∈ n.children ↔ some c ∈ n.places := by
  simp [children]

end Node

end InfraLint
