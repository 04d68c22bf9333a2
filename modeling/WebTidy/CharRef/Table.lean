import WebTidy.Text.Basic

/-
  Named character references.

  The names of the Latin-1 characters from U+00A0 to U+00FF
  are listed in the order of their code points, so a name's
  position gives its character.  The remaining names stand
  for markup characters and for punctuation.  Names are
  case-sensitive.

  Key definitions include:
    * `WebTidy.CharRef.named?`
-/

------------------------------------------------------------
-- Names
------------------------------------------------------------

namespace WebTidy

namespace CharRef

/- The names of U+00A0 to U+00FF, in order. -/
def latinNames :
    List String :=
  ["nbsp", "iexcl", "cent", "pound", "curren", "yen",
    "brvbar", "sect", "uml", "copy", "ordf", "laquo",
    "not", "shy", "reg", "macr", "deg", "plusmn", "sup2",
    "sup3", "acute", "micro", "para", "middot", "cedil",
    "sup1", "ordm", "raquo", "frac14", "frac12", "frac34",
    "iquest", "Agrave", "Aacute", "Acirc", "Atilde",
    "Auml", "Aring", "AElig", "Ccedil", "Egrave",
    "Eacute", "Ecirc", "Euml", "Igrave", "Iacute",
    "Icirc", "Iuml", "ETH", "Ntilde", "Ograve", "Oacute",
    "Ocirc", "Otilde", "Ouml", "times", "Oslash",
    "Ugrave", "Uacute", "Ucirc", "Uuml", "Yacute",
    "THORN", "szlig", "agrave", "aacute", "acirc",
    "atilde", "auml", "aring", "aelig", "ccedil",
    "egrave", "eacute", "ecirc", "euml", "igrave",
    "iacute", "icirc", "iuml", "eth", "ntilde", "ograve",
    "oacute", "ocirc", "otilde", "ouml", "divide",
    "oslash", "ugrave", "uacute", "ucirc", "uuml",
    "yacute", "thorn", "yuml"]

/- The names of markup characters and of punctuation. -/
def otherNames :
    List (String × Char) :=
  [("amp", '&'), ("lt", '<'), ("gt", '>'), ("quot", '"'),
    ("apos", '\''), ("ndash", '\u2013'),
    ("mdash", '\u2014'), ("lsquo", '\u2018'),
    ("rsquo", '\u2019'), ("ldquo", '\u201C'),
    ("rdquo", '\u201D'), ("bull", '\u2022'),
    ("hellip", '\u2026'), ("euro", '\u20AC'),
    ("trade", '\u2122')]

/- The Latin-1 block is complete. -/
theorem length_latinNames :
    latinNames.length = 0x100 - 0xA0 := by
  decide

/- No name is given to two characters. -/
theorem nodup_names :
    (latinNames ++ otherNames.map Prod.fst).Nodup := by
  decide +kernel

end CharRef

end WebTidy

------------------------------------------------------------
-- Look-Up
------------------------------------------------------------

namespace WebTidy

namespace CharRef

/- The character that a name stands for. -/
def named?
    (name : Text) :
    Option Char :=
  match latinNames.findIdx? (·.toList = name) with
  | some i => some (Char.ofNat (0xA0 + i))
  | none =>
      (otherNames.find? (·.1.toList = name)).map Prod.snd

end CharRef

end WebTidy
