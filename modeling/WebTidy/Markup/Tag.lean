import WebTidy.CharRef.Decode
import WebTidy.Markup.Name
import WebTidy.Text.Blank
import WebTidy.Text.Octet

/-
  Tags: where one ends, what its head says, and its normal
  form.

  A greater-than sign inside a quoted value does not end a
  tag.  In normal form every run of blanks is one space,
  also inside values, no space stands after the opening or
  before the closing bracket, and the character references
  of values are decoded.

  Key definitions include:
    * `WebTidy.Markup.Tag.endIndex?`
    * `WebTidy.Markup.Tag.Head`
    * `WebTidy.Markup.Tag.head?`
    * `WebTidy.Markup.Tag.pieces`
    * `WebTidy.Markup.Tag.normalize`
-/

------------------------------------------------------------
-- The End Of A Tag
------------------------------------------------------------

namespace WebTidy

namespace Markup

namespace Tag

/- The marks around values. -/
def isQuote
    (c : Char) :
    Bool :=
  c = '"' ∨ c = '\''

/-
  The index of the first greater-than sign outside quotes.
  The first argument is the mark of a value that the text
  starts in.
-/
def closeIndex? :
    Option Char → Text → Option Nat
| _, [] => none
| some mark, c :: rest =>
    (closeIndex? (if c = mark then none else some mark)
      rest).map (· + 1)
| none, c :: rest =>
    if c = '>' then some 0
    else
      (closeIndex? (if isQuote c then some c else none)
        rest).map (· + 1)

/- The index of the end of the tag that starts at `start`. -/
def endIndex?
    (s : Text)
    (start : Nat) :
    Option Nat :=
  (closeIndex? none (s.drop (start + 1))).map
    (· + (start + 1))

/- The end lies inside the text. -/
theorem closeIndex?_lt
    {mark : Option Char}
    {s : Text}
    {n : Nat}
    (h : closeIndex? mark s = some n) :
    n < s.length := by
  induction s generalizing mark n with
  | nil => simp [closeIndex?] at h
  | cons c rest ih =>
      cases mark with
      | none =>
          unfold closeIndex? at h
          split at h
          · cases h
            simp
          · rcases Option.map_eq_some_iff.mp h with
              ⟨m, hm, rfl⟩
            simpa using ih hm
      | some mark =>
          unfold closeIndex? at h
          rcases Option.map_eq_some_iff.mp h with
            ⟨m, hm, rfl⟩
          simpa using ih hm

end Tag

end Markup

end WebTidy

------------------------------------------------------------
-- Heads
------------------------------------------------------------

namespace WebTidy

namespace Markup

namespace Tag

/- What the layout needs to know of a tag. -/
structure Head where
  name : Text
  isEnd : Bool
  selfClosing : Bool
deriving DecidableEq, Repr

/-
  Read a head.  `inner` is what follows the first octet of
  the tag.  A tag without a name, such as a declaration,
  has the empty name.
-/
def Head.read
    (tag inner : Text) :
    Head :=
  let isEnd := inner.head? = some '/'
  let inner := if isEnd then inner.drop 1 else inner
  { name :=
      (inner.dropWhile isBlank).takeWhile isNameChar
    isEnd := isEnd
    selfClosing :=
      "/>".toList <:+ tag.trimEnd isBlank }

/-
  The head of a tag.  A first character of several octets
  is no opening mark, and what follows its first octet is
  neither a slash nor a name.
-/
def head? :
    Text → Option Head
| [] => none
| c :: rest =>
    some (Head.read (c :: rest)
      (if c.toNat < 0x80 then rest else []))

/- The head of a tag given as octets. -/
def headOfOctets? :
    Text → Option Head
| [] => none
| c :: rest => some (Head.read (c :: rest) rest)

/- Declarations and processing instructions. -/
def isDeclaration
    (tag : Text) :
    Bool :=
  "<!".toList <+: tag ∨ "<?".toList <+: tag

/- Document type declarations. -/
def isDoctype
    (tag : Text) :
    Bool :=
  Text.beginsWith "<!doctype".toList tag

/- Only the empty text has no head. -/
theorem head?_eq_none_iff
    (tag : Text) :
    head? tag = none ↔ tag = [] := by
  cases tag with
  | nil => simp [head?]
  | cons c rest => simp [head?]

end Tag

end Markup

end WebTidy

------------------------------------------------------------
-- Pieces
------------------------------------------------------------

namespace WebTidy

namespace Markup

namespace Tag

/-
  A piece of the inside of a tag: text outside quotes, or a
  quoted value, whose closing mark may be missing at the
  end of the tag.
-/
inductive Piece
| bare (text : Text)
| value (mark : Char) (text : Text) (closed : Bool)
deriving DecidableEq, Repr

/- A piece as it is written. -/
def Piece.source :
    Piece → Text
| .bare text => text
| .value mark text closed =>
    mark :: text ++ if closed then [mark] else []

/- Split the inside of a tag at its quotes. -/
def pieces :
    Text → List Piece
| [] => []
| c :: rest =>
    if isQuote c then
      let text := rest.takeWhile (· ≠ c)
      if text.length < rest.length then
        .value c text true ::
          pieces (rest.drop (text.length + 1))
      else [.value c rest false]
    else
      let text := rest.takeWhile (!isQuote ·)
      .bare (c :: text) :: pieces (rest.drop text.length)
termination_by s => s.length
decreasing_by
  all_goals
    simp only [List.length_drop, List.length_cons]
    omega

end Tag

end Markup

end WebTidy

------------------------------------------------------------
-- Normal Form
------------------------------------------------------------

namespace WebTidy

namespace Markup

namespace Tag

/- A piece in normal form. -/
def Piece.normal
    (decodeValue : Text → Text) :
    Piece → Text
| .bare text => text.fold isBlank
| .value mark text closed =>
    mark :: decodeValue (text.fold isBlank) ++
      if closed then [mark] else []

/-
  The normal form of a tag, for a given way to decode
  values.  A text that is no tag is left as it is, and a
  missing closing bracket stays missing.
-/
def normalizeWith
    (decodeValue : Text → Text)
    (tag : Text) :
    Text :=
  match tag with
  | '<' :: c :: rest =>
      let closed := (c :: rest).getLast? = some '>'
      let inner :=
        if closed then (c :: rest).dropLast else c :: rest
      let normal : Text :=
        (pieces inner).flatMap (Piece.normal decodeValue)
      '<' :: normal.trim (· = ' ') ++
        if closed then ['>'] else []
  | _ => tag

/- The normal form of a tag. -/
def normalize
    (tag : Text) :
    Text :=
  normalizeWith (CharRef.decode .attribute) tag

/-
  The normal form of a tag given as octets.  A value that
  is not valid UTF-8 is not decoded.
-/
def normalizeOctets
    (tag : Text) :
    Text :=
  normalizeWith
    (Octet.mapUtf8 (CharRef.decode .attribute)) tag

end Tag

end Markup

end WebTidy
