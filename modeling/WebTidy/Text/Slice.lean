import WebTidy.Error
import WebTidy.Text.Octet

/-
  Indexes and parts that are checked.

  An index has to lie inside a list.  A part has to begin
  before it ends and end inside the list, and a part of a
  text given as octets has to begin and end between two
  characters.  A loop reads item after item and so checks
  every index that it comes to.

  Key definitions include:
    * `WebTidy.Octet.itemAt`
    * `WebTidy.Octet.slice`
    * `WebTidy.Octet.cutText`
    * `WebTidy.Octet.holdsAt`
    * `WebTidy.Octet.skipWhile`
    * `WebTidy.Octet.beginsWith`
-/

------------------------------------------------------------
-- Items And Parts
------------------------------------------------------------

namespace WebTidy

namespace Octet

variable {α : Type}

/- The item at an index. -/
def itemAt
    (s : List α)
    (i : Nat) :
    Except Fault α :=
  match s[i]? with
  | some item => .ok item
  | none => .error .outside

/- There is an item at an index, and it is in a class. -/
def holdsAt
    (p : α → Bool)
    (s : List α)
    (i : Nat) :
    Except Fault Bool :=
  if i < s.length then do return p (← itemAt s i)
  else return false

/- The part from one index up to another. -/
def slice
    (s : List α)
    (start stop : Nat) :
    Except Fault (List α) :=
  if start ≤ stop ∧ stop ≤ s.length then
    .ok ((s.take stop).drop start)
  else .error .outside

/- The part from an index on. -/
def sliceFrom
    (s : List α)
    (start : Nat) :
    Except Fault (List α) :=
  slice s start s.length

/- The part up to an index. -/
def sliceTo
    (s : List α)
    (stop : Nat) :
    Except Fault (List α) :=
  slice s 0 stop

/- The part of a text in UTF-8, which divides no character. -/
def cutText
    (s : Text)
    (start stop : Nat) :
    Except Fault Text :=
  if isBoundary s start ∧ isBoundary s stop then
    slice s start stop
  else .error .cut

end Octet

end WebTidy

------------------------------------------------------------
-- Loops
------------------------------------------------------------

namespace WebTidy

namespace Octet

/-
  The first index, from a given one on, whose item is not
  in a class, or the end.
-/
def skipWhile
    {α : Type}
    (p : α → Bool)
    (s : List α)
    (i : Nat) :
    Except Fault { n : Nat // i ≤ n } :=
  if i < s.length then do
    if p (← itemAt s i) then
      let stop ← skipWhile p s (i + 1)
      return ⟨stop, by omega⟩
    else return ⟨i, Nat.le_refl i⟩
  else return ⟨i, Nat.le_refl i⟩
termination_by s.length - i

/-
  A text begins with another one, whose letters are given
  in lower case.  Only as much as the other is long is cut
  off and compared.
-/
def beginsWith
    (word s : Text) :
    Except Fault Bool :=
  if word.length ≤ s.length then do
    return Text.sameLetters (← sliceTo s word.length) word
  else return false

end Octet

end WebTidy
