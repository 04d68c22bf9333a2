import WebTidy.Markup.Tag
import WebTidy.Text.Slice

/-
  Tags by an index into their octets.

  The end of a tag, its name and its normal form are sought
  with an index that moves over the octets.  Every look-up
  is checked.  The name of a tag begins behind its first
  octet, so a tag without any octet has none that could be
  cut off.

  Key definitions include:
    * `WebTidy.Markup.Indexed.endIndex`
    * `WebTidy.Markup.Indexed.head`
    * `WebTidy.Markup.Indexed.normalize`
-/

------------------------------------------------------------
-- Ends And Heads
------------------------------------------------------------

namespace WebTidy

namespace Markup

namespace Indexed

open Octet (itemAt slice sliceFrom skipWhile)

/-
  The index of the first greater-than sign outside quotes,
  from an index on.  The mark is that of a value which the
  index lies in.
-/
def closeFrom
    (s : Text)
    (mark : Option Char)
    (i : Nat) :
    Except Octet.Fault (Option { n : Nat // i ≤ n }) :=
  if i < s.length then do
    let c ← itemAt s i
    if mark = none ∧ c = '>' then
      return some ⟨i, Nat.le_refl i⟩
    else
      let next :=
        match mark with
        | some quote => if c = quote then none else some quote
        | none => if Tag.isQuote c then some c else none
      let found ← closeFrom s next (i + 1)
      return found.map fun ⟨n, hn⟩ =>
        ⟨n, Nat.le_of_succ_le hn⟩
  else return none
termination_by s.length - i

/- The index of the end of the tag that starts at `i`. -/
def endIndex
    (s : Text)
    (i : Nat) :
    Except Octet.Fault (Option { n : Nat // i < n }) :=
  closeFrom s none (i + 1)

/- The head of a tag. -/
def head
    (tag : Text) :
    Except Octet.Fault Tag.Head := do
  let isEnd ← Octet.holdsAt (· = '/') tag 1
  let start ← skipWhile isBlank tag (if isEnd then 2 else 1)
  let stop ← skipWhile isNameChar tag start
  return {
    name := ← slice tag start stop
    isEnd := isEnd
    selfClosing := "/>".toList <:+ tag.trimEnd isBlank }

/- Document type declarations. -/
def isDoctype
    (tag : Text) :
    Except Octet.Fault Bool :=
  Octet.beginsWith "<!doctype".toList tag

end Indexed

end Markup

end WebTidy

------------------------------------------------------------
-- Normal Form
------------------------------------------------------------

namespace WebTidy

namespace Markup

namespace Indexed

open Octet (itemAt slice sliceFrom skipWhile)

/- A text that begins like a tag. -/
def opensTag
    (tag : Text) :
    Except Octet.Fault Bool :=
  if tag.length < 2 then return false
  else do return (← itemAt tag 0) = '<'

/- What stands between the brackets of a tag. -/
def inside
    (tag : Text) :
    Except Octet.Fault Text :=
  if tag.getLast? = some '>' then
    slice tag 1 (tag.length - 1)
  else sliceFrom tag 1

/- A text without the spaces at both of its ends. -/
def trimSpaces
    (s : Text) :
    Except Octet.Fault Text :=
  let s : Text := s.trimEnd (· = ' ')
  sliceFrom s (s.takeWhile (· = ' ')).length

/-
  The normal form of a tag.  A value that encodes no text is
  not decoded.
-/
def normalize
    (tag : Text) :
    Except Octet.Fault Text := do
  if ← opensTag tag then
    let pieces := Tag.pieces (← inside tag)
    let normal ← trimSpaces
      (pieces.flatMap (Tag.Piece.normal
        (Octet.mapUtf8 (CharRef.decode .attribute))))
    return '<' :: normal ++
      if tag.getLast? = some '>' then ['>'] else []
  else return tag

end Indexed

end Markup

end WebTidy
