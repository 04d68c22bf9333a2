import WebTidy.Markup.Layout

/-
  Layout of documents as octets, token by token.

  Tags, texts and comments are found by ASCII characters
  alone, so a document in UTF-8 can be read octet by octet.
  The functions of the layout are applied to the octets as
  they stand, and take what is left of them as a list.  A
  token is cut off at a boundary, values and bodies of style
  elements have to be texts, and so has what is written.
  This form stands between the layout of texts and the one
  that moves an index over the octets.

  Key definitions include:
    * `WebTidy.Markup.Token.firstLength`
    * `WebTidy.Markup.Octets.scan`
    * `WebTidy.Markup.Octets.step`
    * `WebTidy.Markup.Octets.layout`
    * `WebTidy.Markup.Octets.prettify`
-/

------------------------------------------------------------
-- Tokens
------------------------------------------------------------

namespace WebTidy

namespace Markup

/- The index at which the first token is cut off. -/
def Token.firstLength
    (s : Text) :
    Nat :=
  if s.head? = some '<' then
    match verbatimLength? s with
    | some n => n
    | none =>
        match (commentLength? s).or (markerLength? s) with
        | some n => n
        | none =>
            match Tag.endIndex? s 0 with
            | some n => n + 1
            | none => s.length
  else (s.takeWhile (· ≠ '<')).length

namespace Octets

/- The tokens of a document, each cut off at a boundary. -/
def scan :
    Text → Except Octet.Fault (List Token)
| [] => .ok []
| c :: rest =>
    let stop := Token.firstLength (c :: rest)
    if Octet.isBoundary (c :: rest) stop then
      (scan (rest.drop (stop - 1))).map
        (Token.first (c :: rest) :: ·)
    else .error .cut
termination_by s => s.length
decreasing_by
  simp only [List.length_drop, List.length_cons]
  omega

end Octets

end Markup

end WebTidy

------------------------------------------------------------
-- Lines
------------------------------------------------------------

namespace WebTidy

namespace Markup

namespace Octets

/- A tag as it is written in the layout. -/
def tagText
    (source : Text) :
    Text :=
  Tag.normalizeOctets (source.trim isBlank)

/- Decode the text that octets encode. -/
def decodeText
    (source : Text) :
    Text :=
  Octet.mapUtf8 (CharRef.decode .text) source

/- A token inside a line. -/
def inlineText :
    Token → Text
| .text s => (decodeText s).fold isBlank
| .tag s => tagText s
| _ => []

/- The end tag of a block on one line. -/
def endingText
    (name : Text) :
    Ending → Text
| .written tag => tagText tag
| .implied => endTag name.lower

/- A block on one line. -/
def spanLine
    (start name : Text)
    (span : Span) :
    Text :=
  let inner : Text := span.between.flatMap inlineText
  tagText start ++ inner.trim isBlank ++
    endingText name span.ending

/- A tag on a line of its own. -/
def element
    (nest : Nest)
    (tag : Text)
    (head : Tag.Head) :
    List Item × Nest :=
  let content := Tag.normalizeOctets tag
  let name := head.name.lower
  if Tag.isDoctype tag then ([.line 0 content], nest)
  else if Tag.isDeclaration tag ∨ name = [] then
    ([nest.line content], nest)
  else if head.isEnd then endElement nest name content
  else if head.selfClosing ∨ isVoid name then
    ([nest.line content], nest)
  else startElement nest name content

/-
  The lines of a style element.  Its body has to be a text,
  and so is what the formatter makes of it.
-/
def styleElement
    (format : StyleFormatter)
    (nest : Nest)
    (source : Text) :
    Except Octet.Fault (List Item) :=
  match StyleParts.of? source with
  | none => .ok [nest.line source]
  | some parts =>
      match Octet.ofUtf8? parts.body with
      | none => .error (.failed .invalidHtml)
      | some body =>
          match format body with
          | .error error => .error (.failed error)
          | .ok sheet =>
              let lines :=
                Text.lines (sheet.trimEnd isSpace)
              .ok
                (nest.line parts.start ::
                  lines.map
                    (styleLine nest ∘ Octet.toUtf8) ++
                  [nest.line parts.finish])

end Octets

end Markup

end WebTidy

------------------------------------------------------------
-- Steps
------------------------------------------------------------

namespace WebTidy

namespace Markup

namespace Octets

/- Lay out a tag. -/
def stepTag
    (nest : Nest)
    (source : Text)
    (rest : List Token) :
    Except Octet.Fault Outcome := do
  let tag : Text := source.trim isBlank
  match Tag.head? tag with
  | none => .error .outside
  | some head =>
      match ← (span? nest head rest).mapError
          Octet.Fault.ofFault with
      | some span =>
          return {
            items :=
              [.joined head.name span.size,
                nest.line (spanLine source head.name span)]
            nest := nest
            taken := span.taken }
      | none =>
          let written := element nest tag head
          return { items := written.1, nest := written.2 }

/- Lay out a verbatim element. -/
def stepVerbatim
    (format : StyleFormatter)
    (nest : Nest)
    (source : Text) :
    Except Octet.Fault Outcome :=
  match Tag.head? source with
  | none => .error .outside
  | some head =>
      if Text.sameLetters head.name "style".toList then do
        let items ← styleElement format nest source
        return { items := items, nest := nest }
      else
        .ok { items := [nest.line source], nest := nest }

/- Lay out one token, with the tokens that follow it. -/
def step
    (format : StyleFormatter)
    (nest : Nest)
    (rest : List Token) :
    Token → Except Octet.Fault Outcome
| .verbatim source => stepVerbatim format nest source
| .comment source =>
    let written := comment nest source
    .ok { items := written.1, nest := written.2 }
| .text source =>
    let text : Text := source.trim isBlank
    .ok
      { items :=
          if text = [] then []
          else [nest.line (decodeText text)]
        nest := nest }
| .tag source => stepTag nest source rest

end Octets

end Markup

end WebTidy

------------------------------------------------------------
-- Documents
------------------------------------------------------------

namespace WebTidy

namespace Markup

namespace Octets

/- Everything that the layout of some tokens writes. -/
def layout
    (format : StyleFormatter)
    (nest : Nest) :
    List Token → Except Octet.Fault (List Item)
| [] => .ok []
| token :: rest =>
    match step format nest rest token with
    | .error fault => .error fault
    | .ok outcome =>
        match layout format outcome.nest
            (rest.drop outcome.taken) with
        | .error fault => .error fault
        | .ok items => .ok (outcome.items ++ items)
termination_by tokens => tokens.length
decreasing_by
  simp only [List.length_drop, List.length_cons]
  omega

/-
  The layout of a document.  The spaces around it are those
  of its text.
-/
def prettify
    (format : StyleFormatter)
    (document : Text) :
    Except Octet.Fault Text := do
  let tokens ←
    scan (Octet.toUtf8 (document.trim isSpace))
  let items ← layout format {} tokens
  match Octet.ofUtf8? (pageText items) with
  | some page => return page
  | none => .error (.failed .invalidHtml)

end Octets

end Markup

end WebTidy
