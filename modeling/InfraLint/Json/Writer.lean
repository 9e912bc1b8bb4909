import InfraLint.Datum.Basic

/-!
Data as JSON on one line of ASCII, with a blank behind commas and colons.
-/
namespace InfraLint.Json

/-- A code point by its 16-bit units. -/
def escapeCode (n : Nat) : String :=
  if n < 0x10000 then "\\u" ++ Text.hex 4 n
  else
    let m := n - 0x10000
    "\\u" ++ Text.hex 4 (0xD800 + m / 0x400) ++ "\\u" ++ Text.hex 4 (0xDC00 + m % 0x400)

def escape (c : Char) : String :=
  if c = '"' then "\\\""
  else if c = '\\' then "\\\\"
  else if c = '\n' then "\\n"
  else if c = '\r' then "\\r"
  else if c = '\t' then "\\t"
  else if c = '\x08' then "\\b"
  else if c = '\x0c' then "\\f"
  else if 32 ≤ c.toNat ∧ c.toNat < 127 then c.toString
  else escapeCode c.toNat

def writeText (s : String) : String := "\"" ++ String.join (s.toList.map escape) ++ "\""

def words : Datum.Words where
  absent := "null"
  truth := fun b => if b then "true" else "false"
  numbers := ⟨"NaN", "Infinity", "-Infinity"⟩
  quoted := writeText

def write (d : Datum) : Except TooLong String := d.spell words

end InfraLint.Json
