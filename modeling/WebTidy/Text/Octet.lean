import WebTidy.Text.Basic

/-
  Octet texts.

  Raw bytes are read as a text with one character per
  octet, so the scanners apply to them unchanged.  Such a
  text need not be valid UTF-8; `ofUtf8?` gives the text it
  encodes when it is, and `toUtf8` writes a text back as
  octets.  A place between two octets is a boundary if it
  divides no character.

  Key definitions include:
    * `WebTidy.Octet.ofBytes`
    * `WebTidy.Octet.toBytes`
    * `WebTidy.Octet.ofUtf8?`
    * `WebTidy.Octet.toUtf8`
    * `WebTidy.Octet.mapUtf8`
    * `WebTidy.Octet.isBoundary`
-/

------------------------------------------------------------
-- Bytes
------------------------------------------------------------

namespace WebTidy

namespace Octet

/- The octet text of a byte sequence. -/
def ofBytes
    (bytes : ByteArray) :
    Text :=
  bytes.toList.map fun b => Char.ofNat b.toNat

/- The byte sequence of an octet text. -/
def toBytes
    (s : Text) :
    ByteArray :=
  ⟨(s.map fun c => c.toNat.toUInt8).toArray⟩

end Octet

end WebTidy

------------------------------------------------------------
-- UTF-8
------------------------------------------------------------

namespace WebTidy

namespace Octet

/- The text that an octet text encodes, if it is valid. -/
def ofUtf8?
    (s : Text) :
    Option Text :=
  (String.fromUTF8? (toBytes s)).map String.toList

/- The octets of a text in UTF-8. -/
def toUtf8
    (s : Text) :
    Text :=
  ofBytes (String.ofList s).toUTF8

/-
  Apply a function on texts below UTF-8.  Octets that
  encode no text are left as they are.
-/
def mapUtf8
    (f : Text → Text)
    (s : Text) :
    Text :=
  match ofUtf8? s with
  | some t => toUtf8 (f t)
  | none => s

end Octet

end WebTidy

------------------------------------------------------------
-- Boundaries
------------------------------------------------------------

namespace WebTidy

namespace Octet

/- An octet of a character behind its first octet. -/
def isContinuation
    (c : Char) :
    Bool :=
  0x80 ≤ c.toNat ∧ c.toNat < 0xC0

/-
  An index at which octets can be cut.  It lies inside them
  or at their end, and no character goes across it.
-/
def isBoundary
    (s : Text)
    (n : Nat) :
    Bool :=
  n ≤ s.length ∧ s[n]?.all (!isContinuation ·)

end Octet

end WebTidy
