import InfraLint.Datum.Basic
import InfraLint.Text.DecimalDigit

/-!
Message templates. Between braces a template has fields for values: by number, or without one
for the next value; a name stands for no value. Behind a mark a field may say how its value is
spelled. Braces of the text are written twice. A template is read up to its first flaw, and a
flaw shows only when everything before it could be filled in: whether a template works depends
on the number of the values and not on what they are, if all of them can be put into words.

Not covered are fields that go into their value, as by `[` or `.` behind the number, and fields
that lay it out, as by `:` and something behind it. A template is cut off with
`TemplateError.uncovered` at the first such field, and nothing is said here about what it comes to.
-/
namespace InfraLint

inductive TemplateError where
  | loneOpen
  | loneClose
  | unclosed
  | nestedOpen
  | manualThenAutomatic
  | automaticThenManual
  | tooManyDigits
  | unknownName (name : String)
  | missingConversion
  | afterConversion
  | unmatchedLayout
  | unknownConversion (c : Char)
  /-- Not a flaw: a field of a kind that is not covered. -/
  | uncovered
  | outOfRange (index : Nat)
  | tooLong (e : TooLong)
  /-- A message that names its one value got none. -/
  | noValue
  deriving DecidableEq, Repr

namespace TemplateError

def message : TemplateError → String
  | .loneOpen => "Single '\x7b' encountered in format string"
  | .loneClose => "Single '\x7d' encountered in format string"
  | .unclosed => "expected '\x7d' before end of string"
  | .nestedOpen => "unexpected '\x7b' in field name"
  | .manualThenAutomatic =>
    "cannot switch from manual field specification to automatic field numbering"
  | .automaticThenManual =>
    "cannot switch from automatic field numbering to manual field specification"
  | .tooManyDigits => "Too many decimal digits in format string"
  | .unknownName name => Text.quoted name
  | .missingConversion => "end of string while looking for conversion specifier"
  | .afterConversion => "expected ':' after conversion specifier"
  | .unmatchedLayout => "unmatched '\x7b' in format spec"
  | .unknownConversion c =>
    if 32 < c.toNat ∧ c.toNat < 127 then "Unknown conversion specifier " ++ c.toString
    else "Unknown conversion specifier \\x" ++ Text.hex 1 c.toNat
  | .uncovered => "Field of a kind that is not covered"
  | .outOfRange index =>
    s!"Replacement index {index} out of range for positional args tuple"
  | .tooLong e => e.message
  | .noValue => "tuple index out of range"

end TemplateError

/-- How a field spells its value. -/
inductive Conversion where
  | display
  | describe
  /-- Described in ASCII alone. -/
  | ascii
  deriving DecidableEq, Repr

namespace Conversion

def apply (c : Conversion) (d : Datum) : Except TooLong String :=
  match c with
  | .display => d.display
  | .describe => d.describe
  | .ascii => d.describe.map fun text => String.join (text.toList.map Text.asciiForm)

theorem exists_apply_iff (c : Conversion) (d : Datum) :
    (∃ text, c.apply d = .ok text) ↔ d.Spellable := by
  cases c with
  | display => exact d.exists_display_iff
  | describe => exact d.exists_spell_iff
  | ascii =>
    rw [← d.exists_spell_iff (w := Datum.messageWords), ← Datum.describe, apply]
    cases d.describe <;> simp [Except.map]

end Conversion

inductive Piece where
  | literal (s : String)
  | slot (index : Nat) (conversion : Conversion)
  deriving DecidableEq, Repr

/-- The pieces up to the first flaw, if there is one. -/
structure Template where
  pieces : List Piece
  flaw : Option TemplateError
  deriving DecidableEq, Repr

namespace Template

/-- How the fields so far have been numbered. -/
inductive Numbering where
  | undecided
  | automatic (next : Nat)
  | manual
  deriving DecidableEq, Repr

/-- Where the reader is. Held characters are in reverse. -/
inductive Mode where
  | literal (held : List Char)
  | afterOpen (held : List Char)
  | afterClose (held : List Char)
  | field (held : List Char)
  | bracket (held : List Char)
  | conversion (held : List Char)
  | afterConversion (held : List Char) (c : Char)
  | layout (held : List Char) (c : Option Char) (depth : Nat) (empty : Bool)

def literalPiece (held : List Char) : List Piece :=
  if held.isEmpty then [] else [.literal (String.ofList held.reverse)]

/-- Numbers of fields end where indices of the machine do. -/
def maxIndex : Nat := Nat.pow 2 63 - 1

/-- The number that a field's name writes in decimal digits of any script, if it does. A number
that grows too large is refused on the way, whatever comes behind it. -/
def numberFrom (n : Nat) : List Char → Except TemplateError (Option Nat)
  | [] => .ok (some n)
  | c :: rest =>
    match Text.digitValue? c with
    | none => .ok none
    | some d =>
      if 10 * n + d > maxIndex then .error .tooManyDigits else numberFrom (10 * n + d) rest

/-- Which value a field takes, and how the numbering goes on. -/
def index (numbering : Numbering) (name : List Char) : Except TemplateError (Nat × Numbering) :=
  if name.isEmpty then
    match numbering with
    | .undecided => .ok (0, .automatic 1)
    | .automatic next => .ok (next, .automatic (next + 1))
    | .manual => .error .manualThenAutomatic
  else
    match numberFrom 0 name with
    | .error e => .error e
    | .ok none => .error (.unknownName (String.ofList name))
    | .ok (some n) =>
      match numbering with
      | .automatic _ => .error .automaticThenManual
      | _ => .ok (n, .manual)

/-- The name of a field ends where a member or an element of its value is asked for. -/
def endsName (c : Char) : Bool := c == '.' || c == '['

/-- A complete field. What is wrong with its spelling shows after its value is found. A field that
goes into its value or lays it out is the last one read. -/
def field (numbering : Numbering) (held : List Char) (conversion : Option Char)
    (plainLayout : Bool) : Except TemplateError (Piece × Numbering × Option TemplateError) := do
  let (name, part) := held.reverse.span fun c => !endsName c
  let (n, numbering) ← index numbering name
  let cut := if plainLayout && part.isEmpty then none else some .uncovered
  match conversion with
  | none | some 's' => return (.slot n .display, numbering, cut)
  | some 'r' => return (.slot n .describe, numbering, cut)
  | some 'a' => return (.slot n .ascii, numbering, cut)
  | some c => return (.slot n .display, numbering, some (.unknownConversion c))

/-- What follows a character. -/
inductive Next where
  | go (mode : Mode)
  /-- A field ends here. -/
  | close (held : List Char) (conversion : Option Char) (plainLayout : Bool)
  | stop (e : TemplateError)

/-- A character of a field, the first one included. -/
def inField (held : List Char) (c : Char) : Next :=
  if c = '\x7b' then .stop .nestedOpen
  else if c = '\x7d' then .close held none true
  else if c = ':' then .go (.layout held none 1 true)
  else if c = '!' then .go (.conversion held)
  else if c = '[' then .go (.bracket (c :: held))
  else .go (.field (c :: held))

/-- What a character completes and what follows it. -/
def react : Mode → Char → List Piece × Next
  | .literal held, c =>
    if c = '\x7b' then ([], .go (.afterOpen held))
    else if c = '\x7d' then ([], .go (.afterClose held))
    else ([], .go (.literal (c :: held)))
  | .afterOpen held, c =>
    if c = '\x7b' then ([], .go (.literal (c :: held))) else (literalPiece held, inField [] c)
  | .afterClose held, c =>
    if c = '\x7d' then ([], .go (.literal (c :: held))) else ([], .stop .loneClose)
  | .field held, c => ([], inField held c)
  | .bracket held, c =>
    ([], .go (if c = ']' then .field (c :: held) else .bracket (c :: held)))
  | .conversion held, c => ([], .go (.afterConversion held c))
  | .afterConversion held conversion, c =>
    if c = '\x7d' then ([], .close held (some conversion) true)
    else if c = ':' then ([], .go (.layout held (some conversion) 1 true))
    else ([], .stop .afterConversion)
  | .layout held conversion depth empty, c =>
    if c = '\x7b' then ([], .go (.layout held conversion (depth + 1) false))
    else if c = '\x7d' then
      if depth ≤ 1 then ([], .close held conversion empty)
      else ([], .go (.layout held conversion (depth - 1) false))
    else ([], .go (.layout held conversion depth false))

/-- What is left when the text ends. -/
def finish : Mode → Template
  | .literal held => ⟨literalPiece held, none⟩
  | .afterOpen _ => ⟨[], some .loneOpen⟩
  | .afterClose _ => ⟨[], some .loneClose⟩
  | .field _ | .bracket _ => ⟨[], some .unclosed⟩
  | .conversion _ => ⟨[], some .missingConversion⟩
  | .afterConversion .. | .layout .. => ⟨[], some .unmatchedLayout⟩

def after (pieces : List Piece) (t : Template) : Template := ⟨pieces ++ t.pieces, t.flaw⟩

def parseFrom (numbering : Numbering) (mode : Mode) : List Char → Template
  | [] => finish mode
  | c :: rest =>
    let (pieces, next) := react mode c
    after pieces <|
      match next with
      | .stop e => ⟨[], some e⟩
      | .go mode => parseFrom numbering mode rest
      | .close held conversion plainLayout =>
        match field numbering held conversion plainLayout with
        | .error e => ⟨[], some e⟩
        | .ok (piece, _, some flaw) => ⟨[piece], some flaw⟩
        | .ok (piece, numbering, none) =>
          after [piece] (parseFrom numbering (.literal []) rest)

def parse (s : String) : Template := parseFrom .undecided (.literal []) s.toList

def fill (values : List Datum) : Piece → Except TemplateError String
  | .literal s => .ok s
  | .slot index conversion =>
    match values[index]? with
    | some value => (conversion.apply value).mapError .tooLong
    | none => .error (.outOfRange index)

def fillAll (values : List Datum) : List Piece → Except TemplateError (List String)
  | [] => .ok []
  | piece :: rest => do
    let text ← fill values piece
    let more ← fillAll values rest
    return text :: more

/-- The text of a template whose fields are filled with `values`. -/
def render (t : Template) (values : List Datum) : Except TemplateError String := do
  let texts ← fillAll values t.pieces
  match t.flaw with
  | some e => .error e
  | none => .ok (String.join texts)

end Template

/-- Fills a written template. -/
def formatText (template : String) (values : List Datum) : Except TemplateError String :=
  (Template.parse template).render values

end InfraLint
