import InfraLint.Syntax.Fault

/-!
Bodies of declarations and the properties in them. A body may stand behind one loop, one
condition, or a loop around a condition; anything else has no body. Of several properties with
one key text the first counts.
-/
namespace InfraLint

/-- What a loop repeats; anything else stands for itself. -/
def Node.underLoop : Option Node → Option Node
  | some (.loop x) => x.body
  | value => value

/-- What a condition guards; anything else stands for itself. -/
def Node.underCondition : Option Node → Option Node
  | some (.conditional x) => x.body
  | value => value

/-- The object behind the accepted wrappers of a value. -/
def Node.body (value : Option Node) : Option Object :=
  match Node.underCondition (Node.underLoop value) with
  | some (.object x) => some x
  | _ => none

/-- Whether a value repeats its body. -/
def Node.isLoop : Option Node → Bool
  | some (.loop _) => true
  | _ => false

namespace Resource

def body (x : Resource) : Option Object := Node.body x.value

/-- Declared with `for`. -/
def isCollection (x : Resource) : Bool := Node.isLoop x.value

end Resource

namespace Module

def body (x : Module) : Option Object := Node.body x.value

/-- Declared with `for`. -/
def isCollection (x : Module) : Bool := Node.isLoop x.value

end Module

/-- The text of the key. A key that is there may lack a text. -/
def Property.keyText (x : Property) : Except Fault (Option String) :=
  match x.key with
  | some key => .ok key.text
  | none => .error .absentKey

/-- The key text of what stands in a list of properties. -/
def Property.keyTextAt : Option Property → Except Fault (Option String)
  | some x => x.keyText
  | none => .error .absentProperty

/-- The first property with key text `name`. Absent properties and keys before it, or
anywhere if there is none, cannot be passed over. -/
def Property.first (name : Option String) : List (Option Property) → Except Fault (Option Property)
  | [] => .ok none
  | place :: rest =>
    match Property.keyTextAt place with
    | .error e => .error e
    | .ok text => if text = name then .ok place else Property.first name rest

def Object.property (x : Object) (name : Option String) : Except Fault (Option Property) :=
  Property.first name x.properties

/-- The key of the list of explicit dependencies. -/
def dependsOnKey : String := "dependsOn"

/-- The entries of the list of explicit dependencies in a body. Anything but an array is no
list. -/
def explicitEntries (body : Option Object) : Except Fault (Option (List (Option Item))) :=
  match body with
  | none => .ok none
  | some body =>
    match body.property (some dependsOnKey) with
    | .error e => .error e
    | .ok none => .ok none
    | .ok (some p) =>
      match p.value with
      | some (.array a) => .ok (some a.items)
      | _ => .ok none

end InfraLint
