import WebTidy.Error
import WebTidy.Markup.Nest
import WebTidy.Markup.Tag

/-
  Style elements.

  The body of a style element is passed through a given
  style sheet formatter and set one level deeper than its
  tags, which are written as they are.

  Key definitions include:
    * `WebTidy.Markup.StyleFormatter`
    * `WebTidy.Markup.StyleParts.of?`
    * `WebTidy.Markup.styleElement`
-/

------------------------------------------------------------
-- Style Elements
------------------------------------------------------------

namespace WebTidy

namespace Markup

/- A formatter for the bodies of style elements. -/
abbrev StyleFormatter := Text → Except FormatError Text

/- The parts of a style element. -/
structure StyleParts where
  start : Text
  body : Text
  finish : Text
deriving DecidableEq, Repr

/-
  Split a style element after its start tag and before its
  last opening bracket.
-/
def StyleParts.of?
    (source : Text) :
    Option StyleParts :=
  match Tag.endIndex? source 0,
      Text.lastIndexOf? '<' source with
  | some last, some close =>
      if last < close then
        some
          { start := source.take (last + 1)
            body := (source.take close).drop (last + 1)
            finish := source.drop close }
      else none
  | _, _ => none

/- A line of a style sheet; empty lines are not indented. -/
def styleLine
    (nest : Nest)
    (content : Text) :
    Item :=
  if content = [] then .line 0 []
  else nest.enter.line content

/- The lines of a style element. -/
def styleElement
    (format : StyleFormatter)
    (nest : Nest)
    (source : Text) :
    Except Fault (List Item) :=
  match StyleParts.of? source with
  | none => .ok [nest.line source]
  | some parts =>
      match format parts.body with
      | .error error => .error (.style error)
      | .ok sheet =>
          let lines := Text.lines (sheet.trimEnd isSpace)
          .ok
            (nest.line parts.start ::
              lines.map (styleLine nest) ++
              [nest.line parts.finish])

end Markup

end WebTidy
