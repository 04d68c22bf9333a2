import WebTidy.Text.Basic

/-
  Quoted text, as it appears in log messages.

  The text stands between double quotes.  Double quotes and
  backslashes are escaped, line feeds, carriage returns,
  tabs and NUL have short forms, and every other control
  character is written with its hexadecimal code point.

  Key definitions include:
    * `WebTidy.Text.quoted`
-/

------------------------------------------------------------
-- Escapes
------------------------------------------------------------

namespace WebTidy

namespace Text

/- The codes of control characters. -/
def isControl
    (c : Char) :
    Bool :=
  c.toNat < 0x20 || (0x7F ≤ c.toNat && c.toNat < 0xA0)

/- One character of a quoted text. -/
def escape
    (c : Char) :
    Text :=
  if c = '"' ∨ c = '\\' then ['\\', c]
  else if c = '\n' then ['\\', 'n']
  else if c = '\r' then ['\\', 'r']
  else if c = '\t' then ['\\', 't']
  else if c.toNat = 0 then ['\\', '0']
  else if isControl c then
    ['\\', 'u', '{'] ++ Nat.toDigits 16 c.toNat ++ ['}']
  else [c]

/- A text between double quotes, with escapes. -/
def quoted
    (s : Text) :
    Text :=
  '"' :: s.flatMap escape ++ ['"']

end Text

end WebTidy
