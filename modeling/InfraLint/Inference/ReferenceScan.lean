import InfraLint.Redundancy

/-!
Dependencies inferred from references. A resource depends on every resource and module that is
referred to in the properties of its body; resources nested in the body are left to their own
scan. A reference to a member of a collection records which member. Such a reference counts
even if the collection is the resource itself, any other reference to itself does not.
-/
namespace InfraLint

namespace ReferenceScan

/-- What one node below a property refers to. -/
def ofNode (m : Model) (source : Symbol) (n : Node) : Audit (List Dependency) := do
  match n with
  | .arrayAccess x =>
    match ← Audit.ask (.symbolOf x.base) (m.symbolOf x.base) with
    | some target => return if target.isEntity then [⟨source, target, x.index⟩] else []
    | none => return []
  | _ =>
    match ← Audit.ask (.symbolOf n) (m.symbolOf n) with
    | some target =>
      return if target.isEntity && !target.is source then [⟨source, target, none⟩] else []
    | none => return []

/-- All references in a value. A value that is absent is asked for and cannot be entered. -/
def ofValue (m : Model) (source : Symbol) : Option Node → Audit (List Dependency)
  | some n => Journal.forEach (ofNode m source) n.walk
  | none => do
    let _ ← Audit.ask (.symbolOf none) (m.symbolOf none)
    Journal.fail .absentTree

/-- Whether a property is passed over. Its key is looked at only where that matters. -/
def passesOver (ignoreExplicit : Bool) (place : Option Property) : Except Fault Bool :=
  if ignoreExplicit then (Property.keyTextAt place).map fun text => text == some dependsOnKey
  else .ok false

def ofProperty (m : Model) (ignoreExplicit : Bool) (source : Symbol)
    (place : Option Property) : Audit (List Dependency) := do
  if ← Journal.lift (passesOver ignoreExplicit place) then return []
  else
    match place with
    | none => Journal.fail .absentHolder
    | some p => ofValue m source p.value

/-- The records of one resource, if it has a symbol and a body. -/
def ofResource (m : Model) (ignoreExplicit : Bool) (x : Resource) :
    Audit (List (Symbol × List Dependency)) := do
  let node := Node.resourceDecl x
  match ← Audit.ask (.symbolOf node) (m.symbolOf node), x.body with
  | some source, some body =>
    let references ← Journal.forEach (ofProperty m ignoreExplicit source) body.properties
    return [(source, Dependency.ofList references)]
  | _, _ => return []

/-- The map of a whole document. A resource without dependencies is not in it. -/
def scan (m : Model) (ignoreExplicit : Bool) : Audit DependencyMap := do
  let resources ← Audit.ask .resources m.resources
  let sets ← Journal.forEach (ofResource m ignoreExplicit) resources
  return (sets.filter fun e => !e.2.isEmpty).foldl (fun map e => map.put e.1 e.2) []

end ReferenceScan

end InfraLint
