import InfraLint.Semantics.Dependency
import InfraLint.Semantics.Model

/-!
Documents drafted by hand. A draft takes the spans of its nodes one after another from a
running position, so that no two of them overlap. References are written by name and bound when
the draft is built: a name stands for its last declaration in document order, and a name that
is never declared stays without meaning.
-/
namespace InfraLint

/-- A written value. Lists and records become nodes only when the value is placed. -/
inductive Literal where
  | node (n : Node)
  | boolean (b : Bool)
  | integer (n : Int)
  | text (s : String)
  | list (items : List Literal)
  | record (entries : List (String × Literal))
  /-- Something that no node can be made of. -/
  | other (d : Datum)

/-- A record of entries some of which may have one key; the last of these counts. -/
def Literal.ofEntries (entries : Entries Literal) : Literal :=
  .record (Entries.putAll [] entries)

/-- Why no node comes of a written value. -/
inductive Unplaceable where
  | unsupported (shown : String)
  | tooLong (e : TooLong)
  deriving DecidableEq, Repr

namespace Unplaceable

def message : Unplaceable → String
  | .unsupported shown => "Unsupported literal: " ++ shown
  | .tooLong e => e.message

/-- A value that no node can be made of; the refusal shows it. -/
def ofDatum (d : Datum) : Unplaceable :=
  match d.describe with
  | .ok shown => .unsupported shown
  | .error e => .tooLong e

end Unplaceable

/-- A reference by name that waits for its symbol. -/
structure Reference where
  node : Node
  name : String

structure Draft where
  /-- The number under which this draft gives out identities to nodes. -/
  maker : Nat
  /-- How many nodes it has made. -/
  issued : Nat
  position : Nat
  declarations : List Node
  references : List Reference
  /-- The symbols of all builds, the latest first. -/
  symbols : List Symbol
  /-- Declarations that are to get no symbol. -/
  undeclared : List Identity

/-- A change of a draft that yields a value. What was done before a failure stays. -/
abbrev Drafting := ExceptT Unplaceable (StateM Draft)

namespace Draft

def start (maker : Nat) : Draft := ⟨maker, 0, 0, [], [], [], []⟩

/-- A text, if it can be had. -/
def spelled : Except TooLong String → Drafting String
  | .ok text => return text
  | .error e => throw (.tooLong e)

/-- The place of a new node that covers `text`; one character is left free behind it. -/
def place (text : String) : Drafting Origin := do
  let d ← get
  set { d with issued := d.issued + 1, position := d.position + text.length + 1 }
  return ⟨⟨d.maker, d.issued⟩, ⟨d.position, text.length⟩⟩

def identifier (name : String) : Drafting Identifier := do
  return ⟨← place name, some name⟩

def string (value : String) : Drafting StringLiteral := do
  return ⟨← place value, some value⟩

/-- A reference to whatever will have the name. -/
def reference (name : String) : Drafting Node := do
  let origin ← place name
  let node := Node.variableAccess ⟨origin, some (← identifier name)⟩
  modify fun d => { d with references := d.references ++ [⟨node, name⟩] }
  return node

/-- The properties of `base` along a path. -/
def along (base : Node) : List String → Drafting Node
  | [] => return base
  | segment :: rest => do
    let origin ← place segment
    let name ← identifier segment
    along (.propertyAccess ⟨origin, some base, some name⟩) rest

/-- `name.path` -/
def member (name : String) (path : List String) : Drafting Node := do
  along (← reference name) path

/-- `name[i].path` -/
def element (name : String) (i : Int) (path : List String) : Drafting Node := do
  let digits ← spelled (Text.whole i)
  let origin ← place s!"{name}[{digits}]"
  let base ← reference name
  let index ← place digits
  along (.arrayAccess ⟨origin, some base, some (.integer ⟨index, some i⟩)⟩) path

/-- An item takes its place behind its value, while a property takes it in front. -/
def wrapItem (value : Node) : Drafting (Option Item) := do
  return some ⟨← place "_", some value⟩

mutual

/-- The node of a written value. -/
def placeValue : Literal → Drafting Node
  | .node n => return n
  | .boolean b => return .boolean ⟨← place (Text.truth b), some b⟩
  | .integer n => return .integer ⟨← place (← spelled (Text.whole n)), some n⟩
  | .text s => return .string (← string s)
  | .list items => do
    let items ← placeItems items
    return .array ⟨← place "[]", items⟩
  | .record entries => do
    let properties ← placeProperties entries
    return .object ⟨← place "\x7b\x7d", properties, []⟩
  | .other d => throw (.ofDatum d)

def placeItems : List Literal → Drafting (List (Option Item))
  | [] => return []
  | x :: rest => do
    let here ← wrapItem (← placeValue x)
    return here :: (← placeItems rest)

def placeProperties : List (String × Literal) → Drafting (List (Option Property))
  | [] => return []
  | (key, x) :: rest => do
    let origin ← place key
    let name ← identifier key
    let here : Property := ⟨origin, some (.identifier name), some (← placeValue x)⟩
    return some here :: (← placeProperties rest)

end

/-- An object of some entries; resources may be nested in it. -/
def object (entries : Entries Literal) (resources : List (Option Resource)) : Drafting Object := do
  let properties ← placeProperties (Entries.putAll [] entries)
  return ⟨← place "\x7b\x7d", properties, resources⟩

def array (values : List Literal) : Drafting ArrayLiteral := do
  let items ← placeItems values
  return ⟨← place "[]", items⟩

/-- Explicit dependencies: names and values, or a node to be used as it is. -/
inductive Explicit where
  | entries (values : List Literal)
  | node (n : Node)

/-- Names among explicit dependencies are references. -/
def readEntry : Literal → Drafting Literal
  | .text name => return .node (← reference name)
  | x => return x

def readEntries : List Literal → Drafting (List Literal)
  | [] => return []
  | x :: rest => do
    let here ← readEntry x
    return here :: (← readEntries rest)

def explicitNode : Explicit → Drafting Node
  | .node n => return n
  | .entries values => do
    return .array (← array (← readEntries values))

/-- Puts a body behind a condition and into a loop. -/
def wrap (body : Node) (loop condition : Bool) : Drafting Node := do
  let guarded ←
    if condition then do
      let origin ← place "if"
      let truth ← place "true"
      pure (.conditional ⟨origin, some (.boolean ⟨truth, some true⟩), some body⟩)
    else pure body
  if loop then
    let origin ← place "for"
    let variableName ← identifier "i"
    let range ← array [.integer 1, .integer 2, .integer 3]
    return .loop ⟨origin, some variableName, some (.array range), some guarded⟩
  else return guarded

def enter (n : Node) : Drafting Node := do
  modify fun d => { d with declarations := d.declarations ++ [n] }
  return n

/-- The entry for explicit dependencies, if there are any. -/
def explicitEntry : Option Explicit → Drafting (Entries Literal)
  | none => return []
  | some x => return [(dependsOnKey, .node (← explicitNode x))]

structure ResourceForm where
  name : String
  properties : Option (Entries Literal)
  dependsOn : Option Explicit
  /-- Stands for the whole right-hand side. -/
  value : Option Node
  loop : Bool
  condition : Bool
  /-- Otherwise the resource waits to be nested in another one. -/
  topLevel : Bool
  /-- Otherwise the resource gets no symbol. -/
  declared : Bool
  children : List (Option Resource)

def resourceValue (form : ResourceForm) : Drafting Node := do
  match form.value with
  | some n => return n
  | none =>
    let own := form.properties.elim [] fun p => [("properties", Literal.ofEntries p)]
    let listed ← explicitEntry form.dependsOn
    let body ← object (own ++ listed) form.children
    wrap (.object body) form.loop form.condition

def declareResource (form : ResourceForm) : Drafting Node := do
  let value ← resourceValue form
  let origin ← place form.name
  let name ← identifier form.name
  let typeString ← string "Microsoft.Fake/things@2024-01-01"
  let node := Node.resourceDecl ⟨origin, some name, some typeString, some value⟩
  if !form.declared then
    modify fun d => { d with undeclared := origin.id :: d.undeclared }
  if form.topLevel then enter node else return node

structure ModuleForm where
  name : String
  params : Option (Entries Literal)
  dependsOn : Option Explicit
  loop : Bool

def declareModule (form : ModuleForm) : Drafting Node := do
  let own := form.params.elim [] fun p => [("params", Literal.ofEntries p)]
  let listed ← explicitEntry form.dependsOn
  let origin ← place form.name
  let name ← identifier form.name
  let path ← string ("./" ++ form.name ++ ".bicep")
  let body ← object (("name", .text form.name) :: own ++ listed) []
  let value ← wrap (.object body) form.loop false
  enter (.moduleDecl ⟨origin, some name, some path, some value⟩)

def declareVariable (name : String) (x : Literal) : Drafting Node := do
  let origin ← place name
  let given ← identifier name
  enter (.variableDecl ⟨origin, some given, some (← placeValue x)⟩)

def declareParameter (name typeName : String) : Drafting Node := do
  let origin ← place name
  let given ← identifier name
  enter (.parameterDecl ⟨origin, some given, some (← identifier typeName)⟩)

def declareOutput (name : String) (x : Literal) : Drafting Node := do
  let origin ← place name
  let given ← identifier name
  let typeName ← identifier "string"
  enter (.outputDecl ⟨origin, some given, some typeName, some (← placeValue x)⟩)

end Draft

end InfraLint
