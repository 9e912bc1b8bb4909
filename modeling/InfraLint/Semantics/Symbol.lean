import InfraLint.Syntax.Body
import InfraLint.Text.Spelling

/-!
Symbols: what names in a document stand for. A symbol remembers the node that declares it.
Symbols are told apart by their identity, never by name.
-/
namespace InfraLint

inductive SymbolKind where
  | resource
  | module
  | variable
  | parameter
  | output
  deriving DecidableEq, Repr

namespace SymbolKind

def word : SymbolKind → String
  | .resource => "resource"
  | .module => "module"
  | .variable => "variable"
  | .parameter => "parameter"
  | .output => "output"

def all : List SymbolKind := [.resource, .module, .variable, .parameter, .output]

def ofWord? (word : String) : Option SymbolKind := all.find? fun k => k.word == word

/-- The name under which symbols of a kind are shown. -/
def symbolName : SymbolKind → String
  | .resource => "ResourceSymbol"
  | .module => "ModuleSymbol"
  | .variable => "VariableSymbol"
  | .parameter => "ParameterSymbol"
  | .output => "OutputSymbol"

/-- Resources and modules are what other declarations can depend on. -/
def isEntity : SymbolKind → Bool
  | .resource | .module => true
  | _ => false

theorem ofWord?_word (k : SymbolKind) : ofWord? k.word = some k := by
  cases k <;> rfl

end SymbolKind

/-- The kind of symbol that a node declares, if it is a declaration. -/
def Node.declares? : Node → Option SymbolKind
  | .resourceDecl _ => some .resource
  | .moduleDecl _ => some .module
  | .variableDecl _ => some .variable
  | .parameterDecl _ => some .parameter
  | .outputDecl _ => some .output
  | _ => none

/-- The name that a declaration gives. -/
def Node.declaredName? : Node → Option Identifier
  | .resourceDecl x => x.name
  | .moduleDecl x => x.name
  | .variableDecl x => x.name
  | .parameterDecl x => x.name
  | .outputDecl x => x.name
  | _ => none

structure Symbol where
  id : Identity
  kind : SymbolKind
  name : Option String
  declaring : Option Node

namespace Symbol

def is (a b : Symbol) : Bool := a.id == b.id

def isEntity (s : Symbol) : Bool := s.kind.isEntity

def describe (s : Symbol) : String :=
  s.kind.symbolName ++ "(" ++ Text.optional Text.quoted s.name ++ ")"

/-- Declared with `for`, by a declaration of the kind of the symbol. -/
def isCollection (s : Symbol) : Bool :=
  match s.kind, s.declaring with
  | .resource, some (.resourceDecl x) => x.isCollection
  | .module, some (.moduleDecl x) => x.isCollection
  | _, _ => false

/-- Only resources and modules can be asked whether they are collections. -/
def askCollection (s : Symbol) : Except Fault Bool :=
  if s.isEntity then .ok s.isCollection
  else .error (.lacks s.kind.symbolName "is_collection")

end Symbol

end InfraLint
