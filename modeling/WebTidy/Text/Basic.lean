/-
  Text as a list of characters, and the operations on it
  that the scanners share.

  Character classes are Boolean predicates, so trimming and
  folding are stated once for every class of white space.
  Letters are compared with the case of the ASCII letters
  ignored; every other character stands for itself.

  Key definitions include:
    * `WebTidy.Text`
    * `WebTidy.Text.sameLetters`
    * `WebTidy.Text.indexOf?`
    * `WebTidy.Text.trim`
    * `WebTidy.Text.fold`
    * `WebTidy.Text.lines`
-/

------------------------------------------------------------
-- Texts
------------------------------------------------------------

namespace WebTidy

/- A text is a list of characters. -/
abbrev Text := List Char

namespace Text

/- The number of octets of a text written in UTF-8. -/
def utf8Size :
    Text → Nat
| [] => 0
| c :: rest => c.utf8Size + utf8Size rest

end Text

end WebTidy

------------------------------------------------------------
-- Letters
------------------------------------------------------------

namespace WebTidy

namespace Text

/- Lower the ASCII letters of a text. -/
def lower
    (s : Text) :
    Text :=
  s.map Char.toLower

/- Equality up to the case of ASCII letters. -/
def sameLetters
    (s t : Text) :
    Bool :=
  s.lower = t.lower

/- A text begins with a mark, up to the case of letters. -/
def beginsWith
    (mark s : Text) :
    Bool :=
  sameLetters (s.take mark.length) mark

/- Lowering letters keeps the length. -/
@[simp] theorem length_lower
    (s : Text) :
    s.lower.length = s.length := by
  simp [lower]

/- Texts with the same letters have the same length. -/
theorem length_eq_of_sameLetters
    {s t : Text}
    (h : sameLetters s t = true) :
    s.length = t.length := by
  have hLower : s.lower = t.lower := by
    simpa [sameLetters] using h
  simpa using congrArg List.length hLower

end Text

end WebTidy

------------------------------------------------------------
-- Searching
------------------------------------------------------------

namespace WebTidy

namespace Text

/- The index of the first occurrence of a mark. -/
def indexOf?
    (mark : Text) :
    Text → Option Nat
| [] => if mark = [] then some 0 else none
| c :: rest =>
    if mark <+: c :: rest then some 0
    else (indexOf? mark rest).map (· + 1)

/- The index of the last occurrence of a character. -/
def lastIndexOf?
    (c : Char) :
    Text → Option Nat
| [] => none
| d :: rest =>
    match lastIndexOf? c rest with
    | some n => some (n + 1)
    | none => if d = c then some 0 else none

end Text

end WebTidy

------------------------------------------------------------
-- Trimming And Folding
------------------------------------------------------------

namespace WebTidy

namespace Text

/- Drop the trailing characters of a class. -/
def trimEnd
    (p : Char → Bool)
    (s : Text) :
    Text :=
  (s.reverse.dropWhile p).reverse

/- Drop the characters of a class at both ends. -/
def trim
    (p : Char → Bool)
    (s : Text) :
    Text :=
  trimEnd p (s.dropWhile p)

/-
  Fold runs of a class to one space.  The flag tells that
  the text continues a run whose space is already written.
-/
def foldFrom
    (p : Char → Bool) :
    Bool → Text → Text
| _, [] => []
| inRun, c :: rest =>
    if p c then
      if inRun then foldFrom p true rest
      else ' ' :: foldFrom p true rest
    else c :: foldFrom p false rest

/- Fold every maximal run of a class to one space. -/
def fold
    (p : Char → Bool)
    (s : Text) :
    Text :=
  foldFrom p false s

end Text

end WebTidy

------------------------------------------------------------
-- Lines
------------------------------------------------------------

namespace WebTidy

namespace Text

/-
  The lines of a text, without their ends.  A line ends at
  a line feed, together with one carriage return directly
  before it; no empty line follows a final line feed.
-/
def lines :
    Text → List Text
| [] => []
| c :: rest =>
    if c = '\n' then [] :: lines rest
    else if c = '\r' ∧ rest.head? = some '\n' then
      lines rest
    else
      match lines rest with
      | [] => [[c]]
      | line :: more => (c :: line) :: more

end Text

end WebTidy
