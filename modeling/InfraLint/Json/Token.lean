import InfraLint.Datum.Basic

/-!
The tokens of a JSON text. The text is read one character at a time; between characters the
lexer is in one of four modes, so that a text of any length is cut in one pass. A word is a
longest run of the characters that numbers and names are made of, and is judged when it ends.
-/
namespace InfraLint.Json

inductive Token where
  | openRecord
  | closeRecord
  | openList
  | closeList
  | colon
  | comma
  | scalar (d : Datum)

/-- Where the lexer is. The characters of a text or word are held back in reverse. -/
inductive Mode where
  | between
  | word (held : List Char)
  | text (held : List Nat)
  | escape (held : List Nat)
  | code (held : List Nat) (digits : List Char)

def isWordChar (c : Char) : Bool :=
  c.isAlphanum || c == '-' || c == '+' || c == '.'

def hexValue? (c : Char) : Option Nat :=
  if c.isDigit then some (c.toNat - '0'.toNat)
  else if 'a' ≤ c ∧ c ≤ 'f' then some (c.toNat - 'a'.toNat + 10)
  else if 'A' ≤ c ∧ c ≤ 'F' then some (c.toNat - 'A'.toNat + 10)
  else none

def isHighHalf (n : Nat) : Bool := 0xD800 ≤ n && n < 0xDC00

def isLowHalf (n : Nat) : Bool := 0xDC00 ≤ n && n < 0xE000

/-- Puts a code point that was given by number; the second half of a pair joins the first. -/
def pushCode : List Nat → Nat → List Nat
  | h :: held, n =>
    if isHighHalf h && isLowHalf n then
      (0x10000 + (h - 0xD800) * 0x400 + (n - 0xDC00)) :: held
    else n :: h :: held
  | [], n => [n]

/-- The text of code points held in reverse; a half without its partner has no character. -/
def textOf (held : List Nat) : String :=
  String.ofList (held.reverse.map fun n =>
    if n.isValidChar then Char.ofNat n else Char.ofNat 0xFFFD)

def decimal (digits : List Char) : Nat :=
  digits.foldl (fun n c => 10 * n + (c.toNat - '0'.toNat)) 0

/-- The digits after a mark, if the mark is there; at least one has to follow it. -/
def fraction? : List Char → Option (List Char × List Char)
  | '.' :: rest =>
    match rest.takeWhile Char.isDigit with
    | [] => none
    | digits => some (digits, rest.dropWhile Char.isDigit)
  | rest => some ([], rest)

def signed? : List Char → Option Int
  | '-' :: digits =>
    if digits.all Char.isDigit ∧ digits ≠ [] then some (-(decimal digits)) else none
  | '+' :: digits => if digits.all Char.isDigit ∧ digits ≠ [] then some (decimal digits) else none
  | digits => if digits.all Char.isDigit ∧ digits ≠ [] then some (decimal digits) else none

/-- The power of ten at the end of a number, if any. -/
def power? : List Char → Option (Option Int)
  | [] => some none
  | c :: rest => if c = 'e' ∨ c = 'E' then (signed? rest).map some else none

/-- A number without its sign. A zero at the front has to stand alone, and a whole number has to be
one that could be written. -/
def number? (negative : Bool) (cs : List Char) : Option Datum := do
  let whole := cs.takeWhile Char.isDigit
  guard (whole ≠ [] ∧ (whole.head? ≠ some '0' ∨ whole.length = 1))
  let (behind, rest) ← fraction? (cs.dropWhile Char.isDigit)
  let power ← power? rest
  match behind, power with
  | [], none =>
    guard (whole.length ≤ Text.maxDigits)
    some (.integer (if negative then -(decimal whole) else decimal whole))
  | _, _ =>
    some (.float (Decimal.toFloat negative (decimal (whole ++ behind))
      (power.getD 0 - behind.length)))

def word? (word : List Char) : Option Datum :=
  match String.ofList word with
  | "null" => some .null
  | "true" => some (.boolean true)
  | "false" => some (.boolean false)
  | "NaN" => some (.float (0.0 / 0.0))
  | "Infinity" => some (.float (1.0 / 0.0))
  | "-Infinity" => some (.float (-1.0 / 0.0))
  | _ =>
    match word with
    | '-' :: rest => number? true rest
    | _ => number? false word

/-- One character outside texts and words. -/
def stepBetween (c : Char) : Option (Mode × List Token) :=
  if c = ' ' ∨ c = '\t' ∨ c = '\n' ∨ c = '\r' then some (.between, [])
  else if c = '\x7b' then some (.between, [.openRecord])
  else if c = '\x7d' then some (.between, [.closeRecord])
  else if c = '[' then some (.between, [.openList])
  else if c = ']' then some (.between, [.closeList])
  else if c = ':' then some (.between, [.colon])
  else if c = ',' then some (.between, [.comma])
  else if c = '"' then some (.text [], [])
  else if isWordChar c then some (.word [c], [])
  else none

def escaped? (c : Char) : Option Nat :=
  match c with
  | '"' => some 0x22
  | '\\' => some 0x5C
  | '/' => some 0x2F
  | 'b' => some 8
  | 'f' => some 12
  | 'n' => some 10
  | 'r' => some 13
  | 't' => some 9
  | _ => none

def step : Mode → Char → Option (Mode × List Token)
  | .between, c => stepBetween c
  | .word held, c =>
    if isWordChar c then some (.word (c :: held), [])
    else do
      let d ← word? held.reverse
      let (mode, tokens) ← stepBetween c
      some (mode, .scalar d :: tokens)
  | .text held, c =>
    if c = '"' then some (.between, [.scalar (.text (textOf held))])
    else if c = '\\' then some (.escape held, [])
    else if c.toNat < 32 then none
    else some (.text (c.toNat :: held), [])
  | .escape held, c =>
    if c = 'u' then some (.code held [], [])
    else (escaped? c).map fun n => (.text (n :: held), [])
  | .code held digits, c => do
    let _ ← hexValue? c
    let digits := digits ++ [c]
    if digits.length < 4 then some (.code held digits, [])
    else
      let n := digits.foldl (fun n c => 16 * n + (hexValue? c).getD 0) 0
      some (.text (pushCode held n), [])

/-- What is left when the text ends. -/
def finish : Mode → Option (List Token)
  | .between => some []
  | .word held => (word? held.reverse).map fun d => [.scalar d]
  | _ => none

def tokensFrom (mode : Mode) : List Char → Option (List Token)
  | [] => finish mode
  | c :: rest => do
    let (mode, tokens) ← step mode c
    let more ← tokensFrom mode rest
    some (tokens ++ more)

def tokens (s : String) : Option (List Token) := tokensFrom .between s.toList

end InfraLint.Json
