import WebTidy.CharRef.Table

/-
  Decoding of character references.

  A reference is an ampersand, a payload and a semicolon.
  The payload is a name, or a hash sign with a decimal
  number, or a hash sign, the letter x and a hexadecimal
  number.  A reference is replaced by its character unless
  that would introduce markup: ampersands and angle
  brackets stay encoded everywhere, quotes stay encoded
  inside attribute values.  All else is left as it is.

  Key definitions include:
    * `WebTidy.CharRef.Mode`
    * `WebTidy.CharRef.appendDigit?`
    * `WebTidy.CharRef.number?`
    * `WebTidy.CharRef.resolve?`
    * `WebTidy.CharRef.payload?`
    * `WebTidy.CharRef.decode`
-/

------------------------------------------------------------
-- Numbers
------------------------------------------------------------

namespace WebTidy

namespace CharRef

/- The value of a digit, in bases up to sixteen. -/
def digit?
    (base : Nat)
    (c : Char) :
    Option Nat :=
  let value :=
    if c.isDigit then some (c.toNat - '0'.toNat)
    else if 'a' ≤ c ∧ c ≤ 'f' then
      some (c.toNat - 'a'.toNat + 10)
    else if 'A' ≤ c ∧ c ≤ 'F' then
      some (c.toNat - 'A'.toNat + 10)
    else none
  value.filter (· < base)

/- A number that fits into a word of 32 bits. -/
def word?
    (n : Nat) :
    Option Nat :=
  if n < UInt32.size then some n else none

/-
  One more digit behind a number.  Neither the product nor
  the sum may overflow.
-/
def appendDigit?
    (base n : Nat)
    (c : Char) :
    Option Nat := do
  let value ← digit? base c
  let product ← word? (base * n)
  word? (product + value)

/-
  The value of a non-empty digit sequence, read into a word
  from left to right.
-/
def number?
    (base : Nat)
    (digits : Text) :
    Option Nat :=
  if digits = [] then none
  else digits.foldlM (appendDigit? base) 0

/- The character with a code point, if there is one. -/
def scalar?
    (n : Nat) :
    Option Char :=
  if n.isValidChar then some (Char.ofNat n) else none

end CharRef

end WebTidy

------------------------------------------------------------
-- Payloads
------------------------------------------------------------

namespace WebTidy

namespace CharRef

/- Where a reference stands. -/
inductive Mode
| text
| attribute
deriving DecidableEq, Repr

/- Characters that stay encoded. -/
def Mode.keeps
    (mode : Mode)
    (c : Char) :
    Bool :=
  c = '&' ∨ c = '<' ∨ c = '>' ∨
    (mode = .attribute ∧ (c = '"' ∨ c = '\''))

/- The character that a payload denotes. -/
def denoted? :
    Text → Option Char
| '#' :: 'x' :: digits => (number? 16 digits).bind scalar?
| '#' :: 'X' :: digits => (number? 16 digits).bind scalar?
| '#' :: digits => (number? 10 digits).bind scalar?
| name => named? name

/- The character that replaces a payload's reference. -/
def resolve?
    (mode : Mode)
    (payload : Text) :
    Option Char :=
  (denoted? payload).filter (!mode.keeps ·)

/- Characters of a payload after its hash sign. -/
def isPayloadChar
    (c : Char) :
    Bool :=
  c.isAlphanum ∨ c = '_'

/-
  The payload that follows an ampersand, if the text goes
  on with a payload and a semicolon.
-/
def payload?
    (s : Text) :
    Option Text :=
  let hash := if s.head? = some '#' then 1 else 0
  let size := ((s.drop hash).takeWhile isPayloadChar).length
  if 0 < size ∧ s[hash + size]? = some ';' then
    some (s.take (hash + size))
  else none

end CharRef

end WebTidy

------------------------------------------------------------
-- Decoding
------------------------------------------------------------

namespace WebTidy

namespace CharRef

/- Replace the character references of a text. -/
def decode
    (mode : Mode) :
    Text → Text
| [] => []
| c :: rest =>
    if c = '&' then
      match payload? rest with
      | some payload =>
          match resolve? mode payload with
          | some d =>
              d :: decode mode
                (rest.drop (payload.length + 1))
          | none => c :: decode mode rest
      | none => c :: decode mode rest
    else c :: decode mode rest
termination_by s => s.length
decreasing_by
  all_goals
    simp only [List.length_drop, List.length_cons]
    omega

end CharRef

end WebTidy
