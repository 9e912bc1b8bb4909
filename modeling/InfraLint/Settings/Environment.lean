import InfraLint.Json.Reader
import InfraLint.Settings.Basic
import InfraLint.Text.LetterCase

/-!
Settings from variables of the environment. A variable named for a group of settings holds the
group as JSON; a variable whose name goes on behind two underscores holds one member, or a
member of a member, as plain text. Names are compared in small letters. Arguments, where there
are any, go over the environment member by member.
-/
namespace InfraLint

/-- Variables in the order in which they were set. -/
abbrev Environment := Entries String

namespace Environment

/-- Why a variable cannot be set. -/
inductive Refusal where
  | nullCharacter
  | equalsSign
  | emptyName
  deriving DecidableEq, Repr

def Refusal.message : Refusal → String
  | .nullCharacter => "embedded null byte"
  | .equalsSign => "illegal environment variable name"
  | .emptyName => "[Errno 22] Invalid argument"

/-- What speaks against a variable, if anything does. -/
def refusal? (name value : String) : Option Refusal :=
  if name.toList.contains '\x00' || value.toList.contains '\x00' then some .nullCharacter
  else if name.toList.contains '=' then some .equalsSign
  else if name = "" then some .emptyName
  else none

/-- Forgets a variable and, if there is a value that it can have, sets it anew at the end. -/
def assign (env : Environment) (name : String) (value : Option String) :
    Environment × Except Refusal Unit :=
  match value with
  | none => (env.erase name, .ok ())
  | some v =>
    match refusal? name v with
    | some e => (env.erase name, .error e)
    | none => (env.erase name ++ [(name, v)], .ok ())

/-- Assigns variables one after another, up to the first that cannot be set. -/
def assignAll (env : Environment) :
    List (String × Option String) → Environment × Except Refusal Unit
  | [] => (env, .ok ())
  | (name, value) :: rest =>
    match env.assign name value with
    | (env, .ok ()) => assignAll env rest
    | (env, .error e) => (env, .error e)

/-- Variables by their names in small letters. Of several the last gives the value. -/
def lowered (env : Environment) : Entries String :=
  env.foldl (fun acc e => acc.put (Text.small e.1) e.2) []

end Environment

/-- What stands before the names of all variables of the program. -/
def variablePrefix : String := "deplint_"

def nestingMark : String := "__"

/-- Puts `value` under a path of names. A text that already stands on the path is left there;
at the end of the path the value replaces what was there. -/
def nest : List String → String → Entries Datum → Entries Datum
  | [], _, entries => entries
  | [name], value, entries => entries.put name (.text value)
  | name :: rest, value, entries =>
    match entries.get? name with
    | none => entries.put name (.record (nest rest value []))
    | some (.record members) => entries.put name (.record (nest rest value members))
    | some _ => entries

/-- The members of a group that variables of their own give, in order. -/
def nestedMembers (s : Section) (lowered : Entries String) : Entries Datum :=
  let start := variablePrefix ++ s.name ++ nestingMark
  lowered.foldl (fun acc e =>
    match e.1.dropPrefix? start with
    | some rest => nest (rest.copy.splitOn nestingMark) e.2 acc
    | none => acc) []

mutual

/-- Puts the members of one record over those of another; two records under one name are
merged the same way, anything else is replaced. -/
def mergeInto (entries : Entries Datum) : List (String × Datum) → Entries Datum
  | [] => entries
  | (name, d) :: rest => mergeInto (entries.put name (mergeOver (entries.get? name) d)) rest

def mergeOver (old : Option Datum) : Datum → Datum
  | .record members =>
    match old with
    | some (.record before) => .record (mergeInto before members)
    | _ => .record members
  | d => d

end

/-- A variable that should hold a group holds no JSON. -/
structure UnreadableSection where
  group : Section
  deriving DecidableEq, Repr

def UnreadableSection.message (e : UnreadableSection) : String :=
  "error parsing value for field \"" ++ e.group.name ++ "\" from source \"EnvSettingsSource\""

/-- Known members under their own names, whatever letters they were written in. -/
def canonicalMembers (s : Section) (entries : Entries Datum) : Entries Datum :=
  entries.foldl (fun acc e =>
    acc.put ((s.members.find? fun m => m == Text.small e.1).getD e.1) e.2) []

/-- What the environment says about a group, if it says anything. -/
def sectionFrom (s : Section) (lowered : Entries String) :
    Except UnreadableSection (Option Datum) :=
  match lowered.get? (variablePrefix ++ s.name) with
  | none =>
    match nestedMembers s lowered with
    | [] => .ok none
    | members => .ok (some (.record (canonicalMembers s members)))
  | some text =>
    match Json.read? text with
    | none => .error ⟨s⟩
    | some .null => .ok none
    | some (.record members) =>
      .ok (some (.record (canonicalMembers s (mergeInto members (nestedMembers s lowered)))))
    | some d => .ok (some d)

def sectionsFrom (lowered : Entries String) :
    List Section → Except UnreadableSection (Entries Datum)
  | [] => .ok []
  | s :: rest =>
    match sectionFrom s lowered with
    | .error e => .error e
    | .ok found =>
      (sectionsFrom lowered rest).map fun more =>
        match found with
        | some d => (s.name, d) :: more
        | none => more

inductive SettingsError where
  | unreadable (e : UnreadableSection)
  | invalid (errors : List Invalid)

/-- Arguments by their names in small letters. Of several the first counts. -/
def loweredArguments (arguments : Entries Datum) : Entries Datum :=
  arguments.foldl (fun acc e => acc.putIfAbsent (Text.small e.1) e.2) []

/-- Settings from the environment with arguments over it. Arguments are matched with the groups
whatever letters they are written in. -/
def Settings.ofEnvironment (env : Environment) (arguments : Entries Datum) :
    Except SettingsError Settings :=
  match sectionsFrom env.lowered Section.all with
  | .error e => .error (.unreadable e)
  | .ok sections =>
    (Settings.read (mergeInto sections (loweredArguments arguments))).mapError .invalid

inductive LoadError where
  | unreadable (e : UnreadableSection)
  | invalid (e : CodedError)

/-- Settings from the environment alone. -/
def Settings.load (env : Environment) : Except LoadError Settings :=
  (Settings.ofEnvironment env []).mapError fun
    | .unreadable e => .unreadable e
    | .invalid es => .invalid
      { family := .configuration
        text := "Invalid DEPLINT_* environment configuration"
        context := [("errors", .list (es.map Invalid.toDatum))] }

end InfraLint
