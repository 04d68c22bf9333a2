import WebTidy.Markup.Indexed.Tags
import WebTidy.Markup.Token

/-
  Tokens by an index into the octets of a document.

  The next token begins at the index and ends behind it.  It
  is cut out of the octets, and the cut must not divide a
  character.

  Key definitions include:
    * `WebTidy.Markup.Indexed.verbatimEnd`
    * `WebTidy.Markup.Indexed.markerEnd`
    * `WebTidy.Markup.Indexed.segmentAt`
    * `WebTidy.Markup.Indexed.scan`
-/

------------------------------------------------------------
-- Verbatim Elements
------------------------------------------------------------

namespace WebTidy

namespace Markup

namespace Indexed

open Octet (itemAt slice sliceFrom skipWhile holdsAt)

/- An index that lies behind another one, if it is found. -/
abbrev Behind?
    (i : Nat) :
    Type :=
  Option { n : Nat // i < n }

/-
  The end of the end tag of a name whose opening marks stand
  at an index.
-/
def endTagAt
    (name s : Text)
    (i : Nat) :
    Except Octet.Fault (Behind? i) :=
  if i + 2 + name.length ≤ s.length then do
    let written ← slice s (i + 2) (i + 2 + name.length)
    if Text.sameLetters written name then
      let ⟨m, hm⟩ ←
        skipWhile isBlank s (i + 2 + name.length)
      if ← holdsAt (· = '>') s m then
        return some ⟨m + 1, by omega⟩
      else return none
    else return none
  else return none

/- The end of the first end tag of a name from an index on. -/
def endTagFrom
    (name s : Text)
    (i : Nat) :
    Except Octet.Fault (Behind? i) := do
  let rest ← sliceFrom s i
  if i < s.length then
    match Text.indexOf? "</".toList rest with
    | none => return none
    | some p =>
        match ← endTagAt name s (i + p) with
        | some ⟨n, hn⟩ => return some ⟨n, by omega⟩
        | none =>
            let stop ← endTagFrom name s (i + p + 2)
            return stop.map fun ⟨n, hn⟩ => ⟨n, by omega⟩
  else return none
termination_by s.length - i

/- A name ends in front of this character. -/
def endsNameAt
    (c : Char) :
    Bool :=
  isBlank c ∨ c = '>' ∨ c = '/'

/-
  The end of the verbatim element that opens at an index.
  Its name has to end there, and its end tag has to follow.
-/
def verbatimEnd
    (s : Text)
    (i : Nat) :
    Except Octet.Fault (Behind? i) := do
  let ⟨k, hk⟩ ← skipWhile isNameChar s (i + 1)
  let name ← slice s (i + 1) k
  if name = [] ∨ !isVerbatim name then return none
  else if ← holdsAt (!endsNameAt ·) s k then return none
  else
    let stop ← endTagFrom name s k
    return stop.map fun ⟨n, hn⟩ => ⟨n, by omega⟩

end Indexed

end Markup

end WebTidy

------------------------------------------------------------
-- Scanning
------------------------------------------------------------

namespace WebTidy

namespace Markup

namespace Indexed

open Octet (itemAt slice sliceFrom skipWhile holdsAt)

/- The end of the comment or marker that opens at an index. -/
def markerEnd
    (s : Text)
    (i : Nat) :
    Except Octet.Fault (Behind? i) := do
  let rest ← sliceFrom s i
  if "<!--".toList <+: rest then
    let body ← sliceFrom rest 4
    return (Text.indexOf? "-->".toList body).map fun p =>
      ⟨i + 4 + p + 3, by omega⟩
  else if "<![".toList <+: rest then
    let body ← sliceFrom rest 3
    return (Text.indexOf? "]>".toList body).map fun p =>
      ⟨i + 3 + p + 2, by omega⟩
  else return none

/- The kind of a token that begins at an index, and its end. -/
structure Segment (start : Nat) where
  kind : Text → Token
  stop : Nat
  later : start < stop

/- The segment that begins with an opening bracket. -/
def bracketAt
    (s : Text)
    (i : Nat)
    (hInside : i < s.length) :
    Except Octet.Fault (Segment i) := do
  match ← verbatimEnd s i with
  | some stop => return ⟨.verbatim, stop, stop.property⟩
  | none =>
      match ← markerEnd s i with
      | some stop => return ⟨.comment, stop, stop.property⟩
      | none =>
          match ← endIndex s i with
          | some last =>
              return ⟨.tag, last + 1,
                Nat.lt_succ_of_lt last.property⟩
          | none => return ⟨.tag, s.length, hInside⟩

/-
  The segment that begins at an index.  A text ends in front
  of the next opening bracket; its first octet is none.
-/
def segmentAt
    (s : Text)
    (i : Nat)
    (hInside : i < s.length) :
    Except Octet.Fault (Segment i) := do
  if (← itemAt s i) = '<' then bracketAt s i hInside
  else
    let rest ← sliceFrom s i
    let more := rest.tail.takeWhile (· ≠ '<')
    return ⟨.text, i + 1 + more.length, by omega⟩

/- The tokens from an index on, each of them cut out. -/
def scan
    (s : Text)
    (i : Nat) :
    Except Octet.Fault (List Token) :=
  if hInside : i < s.length then do
    let segment ← segmentAt s i hInside
    let source ← Octet.cutText s i segment.stop
    let tokens ← scan s segment.stop
    return segment.kind source :: tokens
  else return []
termination_by s.length - i
decreasing_by
  have hLater := segment.later
  omega

end Indexed

end Markup

end WebTidy
