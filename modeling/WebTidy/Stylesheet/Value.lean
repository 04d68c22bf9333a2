import WebTidy.Stylesheet.Scanner

/-
  Characters of property values.

  Runs of blanks become one space, without a space after an
  opening or before a closing parenthesis.  Inside a calc
  expression the arithmetic operators get a space on both
  sides, unless the character is the sign of a number or a
  hyphen of a name.

  Key definitions include:
    * `WebTidy.Stylesheet.Scanner.trackCalc`
    * `WebTidy.Stylesheet.Scanner.readOperator`
    * `WebTidy.Stylesheet.Scanner.readValue`
-/

------------------------------------------------------------
-- Calc Expressions
------------------------------------------------------------

namespace WebTidy

namespace Stylesheet

/- The arithmetic operators. -/
def isOperator
    (c : Char) :
    Bool :=
  c = '+' ∨ c = '-' ∨ c = '*' ∨ c = '/'

/- Characters inside a name. -/
def isIdentChar
    (c : Char) :
    Bool :=
  c.isAlphanum ∨ c = '-' ∨ c = '_'

/- Characters that a name goes on with after a hyphen. -/
def isIdentStart
    (c : Char) :
    Bool :=
  c.isAlpha ∨ c = '-' ∨ c = '_'

namespace Scanner

/-
  Follow the parentheses of a calc expression, which begins
  at the word calc and ends when they are balanced.
-/
def trackCalc
    (s : Scanner)
    (c : Char)
    (rest : Text) :
    Scanner :=
  let parens :=
    if s.parens = none ∧
        Text.beginsWith "calc(".toList (c :: rest) then
      some 0
    else s.parens
  { s with
    parens :=
      if c = '(' then parens.map (· + 1)
      else if c = ')' then
        (parens.map (· - 1)).filter (0 < ·)
      else parens }

/- A plus or minus with no left operand is a sign. -/
def isSign
    (s : Scanner)
    (c : Char) :
    Bool :=
  (c = '+' ∨ c = '-') ∧
    s.trimmed.last?.all fun d =>
      d = '(' ∨ d = ',' ∨ isOperator d

/- A minus between two parts of a name is a hyphen. -/
def isHyphen
    (s : Scanner)
    (c : Char)
    (rest : Text) :
    Bool :=
  c = '-' ∧ s.before.any isIdentChar ∧
    rest.head?.any isIdentStart

/- Read an operator character inside a calc expression. -/
def readOperator
    (s : Scanner)
    (c : Char)
    (rest : Text) :
    Scanner :=
  if c = '-' ∧ rest.head? = some '-' then
    { s.write [c] with context := .dash }
  else if s.isSign c ∨ s.isHyphen c rest then s.put c
  else
    { s.trimmed.write [' ', c, ' '] with skipping := true }

end Scanner

end Stylesheet

end WebTidy

------------------------------------------------------------
-- Value Characters
------------------------------------------------------------

namespace WebTidy

namespace Stylesheet

namespace Scanner

/- A blank may be written as a space here. -/
def takesSpace
    (s : Scanner) :
    Bool :=
  s.last?.any fun d => d ≠ '(' ∧ d ≠ ' ' ∧ d ≠ '\n'

/- Read a character of a property value. -/
def readValue
    (s : Scanner)
    (c : Char)
    (rest : Text) :
    Scanner :=
  let s := s.trackCalc c rest
  if s.parens.isSome ∧ isOperator c then s.readOperator c rest
  else if isBlank c then
    if s.takesSpace then s.write [' '] else s
  else if c = ')' then s.trimmed.put c
  else s.put c

end Scanner

end Stylesheet

end WebTidy
