import WebTidy.Text.Basic

/-
  Element names.

  Names are compared with the case of ASCII letters
  ignored.  The classes decide how an element is laid out.

  Key definitions include:
    * `WebTidy.Markup.isNameChar`
    * `WebTidy.Markup.isVoid`
    * `WebTidy.Markup.isInline`
    * `WebTidy.Markup.isCollapsible`
    * `WebTidy.Markup.isAutoClosing`
    * `WebTidy.Markup.isVerbatim`
-/

------------------------------------------------------------
-- Name Characters
------------------------------------------------------------

namespace WebTidy

namespace Markup

/- Letters, digits, hyphens, underscores and colons. -/
def isNameChar
    (c : Char) :
    Bool :=
  c.isAlphanum ∨ c = '-' ∨ c = '_' ∨ c = ':'

end Markup

end WebTidy

------------------------------------------------------------
-- Classes
------------------------------------------------------------

namespace WebTidy

namespace Markup

/- A name is one of those listed. -/
def isAmong
    (names : List String)
    (name : Text) :
    Bool :=
  names.any fun listed =>
    Text.sameLetters name listed.toList

/- Elements without content. -/
def isVoid
    (name : Text) :
    Bool :=
  isAmong
    ["area", "base", "br", "col", "embed", "hr", "img",
      "input", "link", "meta", "param", "source", "track",
      "wbr"]
    name

/- Elements that stay on the line of their surroundings. -/
def isInline
    (name : Text) :
    Bool :=
  isAmong
    ["a", "abbr", "b", "button", "cite", "code", "del",
      "dfn", "em", "i", "ins", "kbd", "label", "mark", "q",
      "samp", "small", "span", "strong", "sub", "sup",
      "td", "th", "time", "u", "var"]
    name

/- Blocks that are set on one line if they hold no block. -/
def isCollapsible
    (name : Text) :
    Bool :=
  isAmong
    ["title", "h1", "h2", "h3", "h4", "h5", "h6", "p",
      "li", "figcaption", "dt", "dd"]
    name

/- Elements that end where a sibling of their name starts. -/
def isAutoClosing
    (name : Text) :
    Bool :=
  isAmong ["p", "li", "dt", "dd", "option"] name

/- Elements whose content is kept as it is written. -/
def isVerbatim
    (name : Text) :
    Bool :=
  isAmong ["pre", "textarea", "script", "style"] name

/- Classes do not depend on the case of letters. -/
theorem isAmong_congr
    (names : List String)
    {s t : Text}
    (h : s.lower = t.lower) :
    isAmong names s = isAmong names t := by
  simp [isAmong, Text.sameLetters, h]

end Markup

end WebTidy
