import WebTidy.Markup.Indexed.Tokens
import WebTidy.Markup.Layout

/-
  Layout of documents by an index into their tokens.

  A step lays out the token at an index, or a whole block
  whose end is sought from there, and goes on behind it.
  The tokens inside a block are cut out of all tokens, and
  the parts of a style element out of its octets.  What is
  written has to be a text again.

  Key definitions include:
    * `WebTidy.Markup.Indexed.styleElement`
    * `WebTidy.Markup.Indexed.collapse`
    * `WebTidy.Markup.Indexed.step`
    * `WebTidy.Markup.Indexed.layout`
    * `WebTidy.Markup.Indexed.prettify`
-/

------------------------------------------------------------
-- Comments And Elements
------------------------------------------------------------

namespace WebTidy

namespace Markup

namespace Indexed

/- A comment, or one of the conditional markers. -/
def comment
    (nest : Nest)
    (source : Text) :
    Except Octet.Fault (List Item × Nest) := do
  let source : Text := source.trim isBlank
  if ← Octet.beginsWith "<![endif".toList source then
    return ([nest.dedent.line source], nest.dedent)
  else if ← Octet.beginsWith "<![if".toList source then
    return ([nest.line source], nest.enter)
  else return ([nest.line source], nest)

/- A tag on a line of its own. -/
def element
    (nest : Nest)
    (tag : Text) :
    Except Octet.Fault (List Item × Nest) := do
  let content ← normalize tag
  if ← isDoctype tag then
    return ([.line 0 content], nest)
  else
    let head ← head tag
    let name := head.name.lower
    if Tag.isDeclaration tag ∨ name = [] then
      return ([nest.line content], nest)
    else if head.isEnd then
      return endElement nest name content
    else if head.selfClosing ∨ isVoid name then
      return ([nest.line content], nest)
    else return startElement nest name content

end Indexed

end Markup

end WebTidy

------------------------------------------------------------
-- Style Elements
------------------------------------------------------------

namespace WebTidy

namespace Markup

namespace Indexed

open Octet (slice sliceFrom sliceTo)

/- A formatter for style sheets that may fail in any way. -/
abbrev StyleFormatter := Text → Except Octet.Fault Text

/- A formatter that only fails with a reported error. -/
def StyleFormatter.ofFormatter
    (format : Markup.StyleFormatter) :
    StyleFormatter :=
  fun sheet => (format sheet).mapError .failed

/-
  The lines of a style element whose start tag ends at one
  index and whose end tag starts at another.
-/
def styleParts
    (format : StyleFormatter)
    (nest : Nest)
    (source : Text)
    (last close : Nat) :
    Except Octet.Fault (List Item) := do
  match Octet.ofUtf8? (← slice source (last + 1) close) with
  | none => .error (.failed .invalidHtml)
  | some body =>
      let sheet ← format body
      let lines := Text.lines (sheet.trimEnd isSpace)
      let start ← sliceTo source (last + 1)
      let finish ← sliceFrom source close
      return nest.line start ::
        lines.map (styleLine nest ∘ Octet.toUtf8) ++
        [nest.line finish]

/- The lines of a style element. -/
def styleElement
    (format : StyleFormatter)
    (nest : Nest)
    (source : Text) :
    Except Octet.Fault (List Item) := do
  match ← endIndex source 0, Text.lastIndexOf? '<' source with
  | some last, some close =>
      if close ≤ last then return [nest.line source]
      else styleParts format nest source last close
  | _, _ => return [nest.line source]

end Indexed

end Markup

end WebTidy

------------------------------------------------------------
-- Blocks On One Line
------------------------------------------------------------

namespace WebTidy

namespace Markup

namespace Indexed

open Octet (itemAt slice)

/-
  The index of the tag that ends a block, and whether it is
  the end tag of the block.  The tokens are those from an
  index on.
-/
def findEnd
    (name : Text)
    (opened : List Text)
    (balance : Int)
    (j : Nat) :
    List Token →
      Except Octet.Fault (Option ({ n : Nat // j ≤ n } × Bool))
| [] => return none
| .text _ :: rest => do
    let found ← findEnd name opened balance (j + 1) rest
    return found.map fun (⟨n, hn⟩, consumed) =>
      (⟨n, by omega⟩, consumed)
| .tag s :: rest => do
    let head ← head (s.trim isBlank)
    if balance = 0 ∧ head.isEnd ∧
        Text.sameLetters head.name name then
      return some (⟨j, Nat.le_refl j⟩, true)
    else if balance = 0 ∧ isAutoClosing name ∧
        impliesEnd name opened head then
      return some (⟨j, Nat.le_refl j⟩, false)
    else if isInline head.name then
      let found ←
        findEnd name opened (balance + balanceOf head)
          (j + 1) rest
      return found.map fun (⟨n, hn⟩, consumed) =>
        (⟨n, by omega⟩, consumed)
    else return none
| _ :: _ => return none

/- A tag as it is written in the layout. -/
def tagText
    (source : Text) :
    Except Octet.Fault Text :=
  normalize (source.trim isBlank)

/- A token inside a line. -/
def inlineText :
    Token → Except Octet.Fault Text
| .text s =>
    let decoded := Octet.mapUtf8 (CharRef.decode .text) s
    return decoded.fold isBlank
| .tag s => tagText s
| _ => return []

/- Some tokens inside a line. -/
def inlineTexts :
    List Token → Except Octet.Fault Text
| [] => return []
| token :: rest => do
    let part ← inlineText token
    return part ++ (← inlineTexts rest)

/- What closes the line of a block that ends at an index. -/
def closing
    (tokens : List Token)
    (name : Text)
    (stop : Nat)
    (consumed : Bool) :
    Except Octet.Fault Text :=
  if consumed then do
    tagText (← itemAt tokens stop).source
  else return endTag name.lower

/-
  The outcome of a step from an index: what is written, the
  open elements after it, and the index to go on with.
-/
structure Outcome (start : Nat) where
  items : List Item
  nest : Nest
  next : Nat
  later : start < next

/- Set the block at an index on one line, if it can be. -/
def collapse
    (nest : Nest)
    (tokens : List Token)
    (start : Nat)
    (name : Text) :
    Except Octet.Fault (Option (Outcome start)) := do
  match ← findEnd name nest.opened 0 (start + 1)
      (tokens.drop (start + 1)) with
  | none => return none
  | some (⟨stop, hStop⟩, consumed) =>
      let inner ←
        inlineTexts (← slice tokens (start + 1) stop)
      let first ← tagText (← itemAt tokens start).source
      let last ← closing tokens name stop consumed
      return some {
        items :=
          [.joined name (stop - start + 1),
            nest.line
              (first ++ inner.trim isBlank ++ last)]
        nest := nest
        next := if consumed then stop + 1 else stop
        later := by split <;> omega }

end Indexed

end Markup

end WebTidy

------------------------------------------------------------
-- Steps
------------------------------------------------------------

namespace WebTidy

namespace Markup

namespace Indexed

open Octet (itemAt)

/- What is written for the token at an index alone. -/
def Outcome.single
    (start : Nat)
    (written : List Item × Nest) :
    Outcome start where
  items := written.1
  nest := written.2
  next := start + 1
  later := Nat.lt_succ_self start

/- Set the block at an index on one line, if it is one. -/
def joined?
    (nest : Nest)
    (tokens : List Token)
    (i : Nat)
    (head : Tag.Head) :
    Except Octet.Fault (Option (Outcome i)) :=
  if !head.isEnd ∧ isCollapsible head.name then
    collapse nest tokens i head.name
  else return none

/- Lay out a tag. -/
def stepTag
    (nest : Nest)
    (tokens : List Token)
    (i : Nat)
    (source : Text) :
    Except Octet.Fault (Outcome i) := do
  let tag : Text := source.trim isBlank
  let head ← head tag
  match ← joined? nest tokens i head with
  | some outcome => return outcome
  | none => return .single i (← element nest tag)

/- Lay out a verbatim element. -/
def stepVerbatim
    (format : StyleFormatter)
    (nest : Nest)
    (i : Nat)
    (source : Text) :
    Except Octet.Fault (Outcome i) := do
  let head ← head source
  if Text.sameLetters head.name "style".toList then
    let items ← styleElement format nest source
    return .single i (items, nest)
  else return .single i ([nest.line source], nest)

/- Lay out the token at an index. -/
def step
    (format : StyleFormatter)
    (nest : Nest)
    (tokens : List Token)
    (i : Nat) :
    Except Octet.Fault (Outcome i) := do
  match ← itemAt tokens i with
  | .verbatim source => stepVerbatim format nest i source
  | .comment source =>
      return .single i (← comment nest source)
  | .text source =>
      let text : Text := source.trim isBlank
      let decoded :=
        Octet.mapUtf8 (CharRef.decode .text) text
      return .single i
        (if text = [] then [] else [nest.line decoded], nest)
  | .tag source => stepTag nest tokens i source

end Indexed

end Markup

end WebTidy

------------------------------------------------------------
-- Documents
------------------------------------------------------------

namespace WebTidy

namespace Markup

namespace Indexed

/- Everything that the layout writes from an index on. -/
def layout
    (format : StyleFormatter)
    (nest : Nest)
    (tokens : List Token)
    (i : Nat) :
    Except Octet.Fault (List Item) :=
  if i < tokens.length then do
    let outcome ← step format nest tokens i
    let items ←
      layout format outcome.nest tokens outcome.next
    return outcome.items ++ items
  else return []
termination_by tokens.length - i
decreasing_by
  have hLater := outcome.later
  omega

/-
  The layout of a document.  The spaces around it are those
  of its text.
-/
def prettify
    (format : StyleFormatter)
    (document : Text) :
    Except Octet.Fault Text := do
  let tokens ←
    scan (Octet.toUtf8 (document.trim isSpace)) 0
  let items ← layout format {} tokens 0
  match Octet.ofUtf8? (pageText items) with
  | some page => return page
  | none => .error (.failed .invalidHtml)

end Indexed

end Markup

end WebTidy
