import InfraLint.Text.Printable

/-!
Quoted text. A text stands between single quotes, or between double quotes when it holds a
single quote and no double one. Backslashes, the surrounding quote and characters without a
printed form are escaped, so that a quoted text is always one line.
-/
namespace InfraLint.Text

/-- `width` lower-case hexadecimal digits; a longer number keeps all of its digits. -/
def hex (width n : Nat) : String :=
  let digits := Nat.toDigits 16 n
  String.ofList (List.replicate (width - digits.length) '0' ++ digits)

/-- The surrounding quote: a double one only where that saves an escape. -/
def delimiter (s : String) : Char :=
  if s.toList.contains '\'' && !s.toList.contains '"' then '"' else '\''

/-- A character by its code point. -/
def codeForm (c : Char) : String :=
  if c.toNat < 0x100 then "\\x" ++ hex 2 c.toNat
  else if c.toNat < 0x10000 then "\\u" ++ hex 4 c.toNat
  else "\\U" ++ hex 8 c.toNat

/-- A character as it is, if it is ASCII, and by its code point otherwise. -/
def asciiForm (c : Char) : String := if c.toNat < 128 then c.toString else codeForm c

def escapeIn (delim c : Char) : String :=
  if c = '\\' then "\\\\"
  else if c = delim then String.ofList ['\\', c]
  else if c = '\n' then "\\n"
  else if c = '\r' then "\\r"
  else if c = '\t' then "\\t"
  else if isPrintable c then c.toString
  else codeForm c

def quoted (s : String) : String :=
  let delim := (delimiter s).toString
  delim ++ String.join (s.toList.map (escapeIn (delimiter s))) ++ delim

end InfraLint.Text
