import WebTidy.Proofs.Markup.Octets.Tags

/-
  Documents laid out octet by octet.

  Every step on octets does what the step on texts does, so
  what is written for the octets of a document are the
  octets of its layout.  A failure is the same failure.

  Key definitions include:
    * `WebTidy.Markup.Nest.encoded`
    * `WebTidy.Markup.Item.encoded`
    * `WebTidy.Markup.Outcome.encoded`

  Key theorems include:
    * `WebTidy.Markup.findSpan_encoded`
    * `WebTidy.Markup.Octets.step_encoded`
    * `WebTidy.Markup.Octets.layout_encoded`
    * `WebTidy.Markup.Octets.prettify_eq`
-/

------------------------------------------------------------
-- Open Elements
------------------------------------------------------------

namespace WebTidy

namespace Markup

open Octet

/- The classes of names do not change below a text. -/
theorem isAmong_toUtf8
    (names : List String)
    (hNames :
      (names.all fun listed =>
        !listed.toList.any isWide) = true)
    (name : Text) :
    isAmong names (toUtf8 name) = isAmong names name := by
  induction names with
  | nil => rfl
  | cons listed names ih =>
      rw [List.all_cons, Bool.and_eq_true,
        Bool.not_eq_true'] at hNames
      have hFirst :
          Text.sameLetters (toUtf8 name) listed.toList =
            Text.sameLetters name listed.toList := by
        conv_lhs => rw [← toUtf8_of_ascii hNames.1]
        exact sameLetters_toUtf8 name listed.toList
      have hRest := ih hNames.2
      unfold isAmong at hRest ⊢
      rw [List.any_cons, List.any_cons, hFirst, hRest]

theorem isAutoClosing_toUtf8
    (name : Text) :
    isAutoClosing (toUtf8 name) = isAutoClosing name := by
  exact isAmong_toUtf8 _ (by decide) name

/- A line or a note given as octets. -/
def Item.encoded :
    Item → Item
| .line depth content => .line depth (toUtf8 content)
| .supplied name => .supplied (toUtf8 name)
| .joined name tokens => .joined (toUtf8 name) tokens

/- The end tag of an element in octets. -/
theorem endTag_toUtf8
    (name : Text) :
    endTag (toUtf8 name) = toUtf8 (endTag name) := by
  have hOpen : toUtf8 "</".toList = "</".toList :=
    toUtf8_of_ascii (by decide)
  have hClose : toUtf8 ['>'] = ['>'] :=
    toUtf8_of_ascii (by decide)
  rw [endTag, endTag, toUtf8_append, toUtf8_append, hOpen,
    hClose]

/- A name is open in both or in none. -/
theorem isOpen_encoded
    (opened : List Text)
    (name : Text) :
    isOpen (opened.map toUtf8) (toUtf8 name) =
      isOpen opened name := by
  simp [isOpen]

namespace Nest

/- The open elements, given as octets. -/
def encoded
    (nest : Nest) :
    Nest :=
  { nest with opened := nest.opened.map toUtf8 }

/- What is written, and the open elements behind it. -/
def encodedWritten
    (written : List Item × Nest) :
    List Item × Nest :=
  (written.1.map Item.encoded, written.2.encoded)

/- Lines and levels, -/
theorem line_encoded
    (nest : Nest)
    (content : Text) :
    nest.encoded.line (toUtf8 content) =
      (nest.line content).encoded := by
  rfl

/- opening an element, -/
theorem push_encoded
    (nest : Nest)
    (name : Text) :
    nest.encoded.push (toUtf8 name) =
      (nest.push name).encoded := by
  rfl

/- forgetting it, -/
theorem pop_encoded
    (nest : Nest)
    (name : Text) :
    nest.encoded.pop (toUtf8 name) =
      (nest.pop name).encoded := by
  have hHead :
      nest.encoded.opened.head? = some (toUtf8 name) ↔
        nest.opened.head? = some name := by
    simp [encoded]
  unfold pop
  simp only [hHead]
  split
  · simp [encoded]
  · rfl

/- and closing it. -/
theorem closeTop_encoded
    (nest : Nest) :
    nest.encoded.closeTop = encodedWritten nest.closeTop := by
  rcases nest with ⟨indent, opened⟩
  cases opened with
  | nil => rfl
  | cons name rest =>
      simp [closeTop, encoded, encodedWritten, dedent, line,
        endTag_toUtf8, Item.encoded]

/- The elements above another one are closed alike. -/
theorem closeAbove_encoded
    (name : Text)
    (indent : Nat)
    (opened : List Text) :
    closeAbove (toUtf8 name) indent (opened.map toUtf8) =
      encodedWritten (closeAbove name indent opened) := by
  induction opened generalizing indent with
  | nil => rfl
  | cons top rest ih =>
      have hTop :=
        closeTop_encoded
          { indent := indent, opened := top :: rest }
      rw [encoded, List.map_cons] at hTop
      rw [List.map_cons, closeAbove, closeAbove]
      simp only [ne_eq, toUtf8_inj, isAutoClosing_toUtf8, ih,
        hTop]
      split
      · simp only [encodedWritten, List.map_append]
      · rfl

end Nest

end Markup

end WebTidy

------------------------------------------------------------
-- Elements And Comments
------------------------------------------------------------

namespace WebTidy

namespace Markup

open Octet

/- A name that is read from a tag is its own octets. -/
theorem Tag.toUtf8_name
    {tag : Text}
    {head : Tag.Head}
    (h : Tag.head? tag = some head) :
    toUtf8 head.name = head.name := by
  cases tag with
  | nil => cases h
  | cons c rest =>
      cases h
      exact toUtf8_of_ascii
        (treatsWide_isNameChar.any_isWide List.all_takeWhile)

/- An end tag. -/
theorem endElement_encoded
    (nest : Nest)
    (name content : Text) :
    endElement nest.encoded (toUtf8 name) (toUtf8 content) =
      Nest.encodedWritten (endElement nest name content) := by
  have hOpen :
      isOpen nest.encoded.opened (toUtf8 name) =
        isOpen nest.opened name :=
    isOpen_encoded nest.opened name
  have hAbove :
      Nest.closeAbove (toUtf8 name) nest.encoded.indent
          nest.encoded.opened =
        Nest.encodedWritten
          (Nest.closeAbove name nest.indent nest.opened) :=
    Nest.closeAbove_encoded name nest.indent nest.opened
  have hPop (items : List Item) (closed : Nest) :
      (items.map Item.encoded ++
          [((closed.encoded.dedent).pop (toUtf8 name)).line
            (toUtf8 content)],
        (closed.encoded.dedent).pop (toUtf8 name)) =
      Nest.encodedWritten
        (items ++ [(closed.dedent.pop name).line content],
          closed.dedent.pop name) := by
    have hDedent :
        closed.encoded.dedent = closed.dedent.encoded := rfl
    rw [hDedent, Nest.pop_encoded, Nest.line_encoded,
      Nest.encodedWritten, List.map_append]
    rfl
  unfold endElement
  simp only [hOpen, hAbove]
  split
  · exact hPop _ _
  · exact hPop [] nest

/- A start tag. -/
theorem startElement_encoded
    (nest : Nest)
    (name content : Text) :
    startElement nest.encoded (toUtf8 name) (toUtf8 content) =
      Nest.encodedWritten (startElement nest name content) := by
  have hHead :
      nest.encoded.opened.head? = some (toUtf8 name) ↔
        nest.opened.head? = some name := by
    simp [Nest.encoded]
  have hPush (items : List Item) (closed : Nest) :
      (items.map Item.encoded ++
          [closed.encoded.line (toUtf8 content)],
        closed.encoded.push (toUtf8 name)) =
      Nest.encodedWritten
        (items ++ [closed.line content],
          closed.push name) := by
    rw [Nest.push_encoded, Nest.line_encoded,
      Nest.encodedWritten, List.map_append]
    rfl
  unfold startElement
  simp only [isAutoClosing_toUtf8, hHead,
    Nest.closeTop_encoded]
  split
  · exact hPush _ _
  · exact hPush [] nest

/- A tag on a line of its own. -/
theorem Octets.element_encoded
    (nest : Nest)
    (tag : Text)
    {head : Tag.Head}
    (hName : toUtf8 head.name = head.name) :
    Octets.element nest.encoded (toUtf8 tag) head =
      Nest.encodedWritten (Markup.element nest tag head) := by
  have hLower : toUtf8 head.name.lower = head.name.lower := by
    rw [← lower_toUtf8, hName]
  have hEnd (content : Text) :
      endElement nest.encoded head.name.lower
          (toUtf8 content) =
        Nest.encodedWritten
          (endElement nest head.name.lower content) := by
    have hSame :=
      endElement_encoded nest head.name.lower content
    rwa [hLower] at hSame
  have hStart (content : Text) :
      startElement nest.encoded head.name.lower
          (toUtf8 content) =
        Nest.encodedWritten
          (startElement nest head.name.lower content) := by
    have hSame :=
      startElement_encoded nest head.name.lower content
    rwa [hLower] at hSame
  unfold Octets.element Markup.element
  simp only [Tag.normalizeOctets_toUtf8, Tag.isDoctype_toUtf8,
    Tag.isDeclaration_toUtf8, hEnd, hStart]
  split
  · rfl
  split
  · rfl
  split
  · rfl
  split
  · rfl
  · rfl

/- A comment. -/
theorem comment_encoded
    (nest : Nest)
    (source : Text) :
    comment nest.encoded (toUtf8 source) =
      Nest.encodedWritten (comment nest source) := by
  have hEnd (s : Text) :
      Text.beginsWith "<![endif".toList (toUtf8 s) =
        Text.beginsWith "<![endif".toList s :=
    beginsWith_toUtf8 (by decide) s
  have hStart (s : Text) :
      Text.beginsWith "<![if".toList (toUtf8 s) =
        Text.beginsWith "<![if".toList s :=
    beginsWith_toUtf8 (by decide) s
  unfold comment
  simp only [trim_toUtf8 treatsWide_isBlank, hEnd, hStart]
  split
  · rfl
  split
  · rfl
  · rfl

end Markup

end WebTidy

------------------------------------------------------------
-- Style Elements
------------------------------------------------------------

namespace WebTidy

namespace Text

/- A character stands inside the text. -/
theorem lt_of_lastIndexOf?
    {c : Char}
    {s : Text}
    {n : Nat}
    (h : lastIndexOf? c s = some n) :
    n < s.length := by
  induction s generalizing n with
  | nil => cases h
  | cons d rest ih =>
      rw [lastIndexOf?] at h
      cases hRest : lastIndexOf? c rest with
      | some m =>
          rw [hRest] at h
          cases h
          have hm := ih hRest
          simpa using hm
      | none =>
          rw [hRest] at h
          simp only at h
          split at h
          · cases h
            simp
          · cases h

end Text

namespace Markup

open Octet

/- The parts of a style element, given as octets. -/
def StyleParts.encoded
    (parts : StyleParts) :
    StyleParts :=
  { start := toUtf8 parts.start
    body := toUtf8 parts.body
    finish := toUtf8 parts.finish }

/- They are cut off at the same places. -/
theorem StyleParts.of?_toUtf8
    (source : Text) :
    StyleParts.of? (toUtf8 source) =
      (StyleParts.of? source).map StyleParts.encoded := by
  unfold StyleParts.of?
  rw [Tag.endIndex?_toUtf8, lastIndexOf?_toUtf8 (by decide)]
  cases hEnd : Tag.endIndex? source 0 with
  | none => rfl
  | some stop =>
      cases hClose : Text.lastIndexOf? '<' source with
      | none => rfl
      | some close =>
          have hInside := Text.lt_of_lastIndexOf? hClose
          have hOrder := offset_lt_offset_iff
            (m := stop) hInside.le
          simp only [Option.map_some, hOrder]
          split
          · rename_i hLess
            have hBody := drop_offset (source.take close)
              (stop + 1)
            rw [offset_take hLess] at hBody
            rw [← Tag.offset_endIndex? hEnd, take_offset,
              take_offset, hBody, drop_offset]
            rfl
          · rfl

/- A line of a style sheet. -/
theorem styleLine_encoded
    (nest : Nest)
    (content : Text) :
    styleLine nest.encoded (toUtf8 content) =
      (styleLine nest content).encoded := by
  unfold styleLine
  simp only [toUtf8_eq_nil_iff]
  split
  · simp [Item.encoded]
  · rfl

/- The lines of a style element are those of its text. -/
theorem Octets.styleElement_encoded
    (format : StyleFormatter)
    (nest : Nest)
    (source : Text) :
    Octets.styleElement format nest.encoded (toUtf8 source) =
      ((Markup.styleElement format nest source).map
        (List.map Item.encoded)).mapError Fault.ofFault := by
  unfold Octets.styleElement Markup.styleElement
  rw [StyleParts.of?_toUtf8]
  cases StyleParts.of? source with
  | none => rfl
  | some parts =>
      simp only [Option.map_some, StyleParts.encoded,
        ofUtf8?_toUtf8]
      cases format parts.body with
      | error error => rfl
      | ok sheet =>
          have hLines (lines : List Text) :
              lines.map
                  (styleLine nest.encoded ∘ toUtf8) =
                (lines.map (styleLine nest)).map
                  Item.encoded := by
            rw [List.map_map]
            apply List.map_congr_left
            intro line _
            exact styleLine_encoded nest line
          simp only [hLines, Except.map, Except.mapError,
            List.map_append, List.map_cons]
          rfl

end Markup

end WebTidy

------------------------------------------------------------
-- Spans
------------------------------------------------------------

namespace WebTidy

namespace Markup

open Octet

/- The end of a block, given as octets. -/
def Ending.encoded :
    Ending → Ending
| .written tag => .written (toUtf8 tag)
| .implied => .implied

/- A block given as octets. -/
def Span.encoded
    (span : Span) :
    Span :=
  { between := span.between.map Token.encoded
    ending := span.ending.encoded }

/- It has as many tokens. -/
theorem Span.taken_encoded
    (span : Span) :
    span.encoded.taken = span.taken := by
  rcases span with ⟨between, ending⟩
  cases ending with
  | written tag => simp [encoded, Ending.encoded, taken]
  | implied => simp [encoded, Ending.encoded, taken]

theorem Span.size_encoded
    (span : Span) :
    span.encoded.size = span.size := by
  simp [encoded, size]

/- The end of a block is found at the same token. -/
theorem findSpan_encoded
    (name : Text)
    (opened : List Text)
    (balance : Int)
    (tokens : List Token) :
    findSpan name (opened.map toUtf8) balance
        (tokens.map Token.encoded) =
      (findSpan name opened balance tokens).map
        (Option.map Span.encoded) := by
  induction tokens generalizing balance with
  | nil => rfl
  | cons token rest ih =>
      have hCons (token : Token)
          (found : Except WebTidy.Fault (Option Span)) :
          (do
            let span ←
              found.map (Option.map Span.encoded)
            return span.map (.cons token.encoded)) =
            (do
              let span ← found
              return span.map (.cons token) :
                Except WebTidy.Fault (Option Span)).map
              (Option.map Span.encoded) := by
        cases found with
        | error fault => rfl
        | ok span =>
            cases span with
            | none => rfl
            | some span => rfl
      cases token with
      | verbatim source => rfl
      | comment source => rfl
      | text source =>
          rw [List.map_cons, Token.encoded, findSpan, findSpan,
            ih]
          exact hCons (.text source) _
      | tag source =>
          rw [List.map_cons, Token.encoded, findSpan, findSpan,
            trim_toUtf8 treatsWide_isBlank, Tag.head?_toUtf8]
          cases hHead : Tag.head? (source.trim isBlank) with
          | none => rfl
          | some head =>
              have hName := Tag.toUtf8_name hHead
              have hImplies :
                  impliesEnd name (opened.map toUtf8) head =
                    impliesEnd name opened head := by
                have hOpen :=
                  isOpen_encoded opened head.name.lower
                rw [← lower_toUtf8, hName] at hOpen
                rw [impliesEnd, impliesEnd, hOpen]
              simp only [hImplies, ih]
              split
              · rfl
              split
              · rfl
              split
              · exact hCons (.tag source) _
              · rfl

/- A block is set on one line in both or in none. -/
theorem span?_encoded
    (nest : Nest)
    (head : Tag.Head)
    (rest : List Token) :
    span? nest.encoded head (rest.map Token.encoded) =
      (span? nest head rest).map (Option.map Span.encoded) := by
  unfold span?
  split
  · exact findSpan_encoded _ _ _ _
  · rfl

namespace Octets

/- The texts of a tag, of a token, and of the end, -/
theorem tagText_toUtf8
    (source : Text) :
    tagText (toUtf8 source) =
      toUtf8 (Markup.tagText source) := by
  rw [tagText, trim_toUtf8 treatsWide_isBlank,
    Tag.normalizeOctets_toUtf8, Markup.tagText]

theorem inlineText_encoded
    (token : Token) :
    inlineText token.encoded =
      toUtf8 (Markup.inlineText token) := by
  cases token with
  | tag source => exact tagText_toUtf8 source
  | text source =>
      change (decodeText (toUtf8 source)).fold isBlank = _
      rw [decodeText, mapUtf8_toUtf8,
        fold_toUtf8 treatsWide_isBlank]
      rfl
  | verbatim source => exact toUtf8_nil.symm
  | comment source => exact toUtf8_nil.symm

theorem endingText_encoded
    {name : Text}
    (hName : toUtf8 name = name)
    (ending : Ending) :
    endingText name ending.encoded =
      toUtf8 (ending.text name) := by
  cases ending with
  | written tag => exact tagText_toUtf8 tag
  | implied =>
      have hLower : toUtf8 name.lower = name.lower := by
        rw [← lower_toUtf8, hName]
      change endTag name.lower = toUtf8 (endTag name.lower)
      rw [← endTag_toUtf8, hLower]

/- and of a whole block. -/
theorem spanLine_encoded
    (start : Text)
    {name : Text}
    (hName : toUtf8 name = name)
    (span : Span) :
    spanLine (toUtf8 start) name span.encoded =
      toUtf8 (span.line start name) := by
  have hInner :
      span.encoded.between.flatMap inlineText =
        toUtf8 (span.between.flatMap Markup.inlineText) := by
    change (span.between.map Token.encoded).flatMap _ = _
    rw [List.flatMap_map, toUtf8_flatMap]
    congr 1
    funext token
    exact inlineText_encoded token
  have hEnding := endingText_encoded hName span.ending
  rw [spanLine, hInner, tagText_toUtf8,
    trim_toUtf8 treatsWide_isBlank]
  change _ ++ endingText name span.ending.encoded = _
  rw [hEnding, Span.line, toUtf8_append, toUtf8_append]

end Octets

end Markup

end WebTidy

------------------------------------------------------------
-- Steps
------------------------------------------------------------

namespace WebTidy

namespace Markup

open Octet

/- The outcome of a step, given as octets. -/
def Outcome.encoded
    (outcome : Outcome) :
    Outcome :=
  { items := outcome.items.map Item.encoded
    nest := outcome.nest.encoded
    taken := outcome.taken }

namespace Octets

/- A tag. -/
theorem stepTag_encoded
    (nest : Nest)
    (source : Text)
    (rest : List Token) :
    stepTag nest.encoded (toUtf8 source)
        (rest.map Token.encoded) =
      ((Markup.stepTag nest source rest).map
        Outcome.encoded).mapError Fault.ofFault := by
  unfold stepTag Markup.stepTag
  simp only [trim_toUtf8 treatsWide_isBlank,
    Tag.head?_toUtf8]
  cases hHead : Tag.head? (source.trim isBlank) with
  | none => rfl
  | some head =>
      have hName := Tag.toUtf8_name hHead
      simp only [span?_encoded]
      cases span? nest head rest with
      | error fault => rfl
      | ok found =>
          cases found with
          | none =>
              have hWritten :=
                element_encoded nest (source.trim isBlank) hName
              change
                (.ok
                  { items :=
                      (element nest.encoded
                        (toUtf8 (source.trim isBlank)) head).1
                    nest :=
                      (element nest.encoded
                        (toUtf8
                          (source.trim isBlank)) head).2 } :
                  Except Octet.Fault Outcome) = _
              rw [hWritten]
              rfl
          | some span =>
              have hItems :
                  [Item.joined head.name span.encoded.size,
                    nest.encoded.line
                      (spanLine (toUtf8 source) head.name
                        span.encoded)] =
                    List.map Item.encoded
                      [.joined head.name span.size,
                        nest.line
                          (span.line source head.name)] := by
                rw [Span.size_encoded,
                  spanLine_encoded source hName,
                  Nest.line_encoded, List.map_cons,
                  List.map_singleton, Item.encoded, hName]
              change
                (.ok
                  { items := [.joined head.name _, _]
                    nest := nest.encoded
                    taken := span.encoded.taken } :
                  Except Octet.Fault Outcome) = _
              rw [hItems, Span.taken_encoded]
              rfl

/- A verbatim element. -/
theorem stepVerbatim_encoded
    (format : StyleFormatter)
    (nest : Nest)
    (source : Text) :
    stepVerbatim format nest.encoded (toUtf8 source) =
      ((Markup.stepVerbatim format nest source).map
        Outcome.encoded).mapError Fault.ofFault := by
  unfold stepVerbatim Markup.stepVerbatim
  rw [Tag.head?_toUtf8]
  cases Tag.head? source with
  | none => rfl
  | some head =>
      simp only [styleElement_encoded]
      split
      · cases Markup.styleElement format nest source with
        | error fault => rfl
        | ok items => rfl
      · rfl

/- Any token. -/
theorem step_encoded
    (format : StyleFormatter)
    (nest : Nest)
    (rest : List Token)
    (token : Token) :
    step format nest.encoded (rest.map Token.encoded)
        token.encoded =
      ((Markup.step format nest rest token).map
        Outcome.encoded).mapError Fault.ofFault := by
  cases token with
  | tag source => exact stepTag_encoded nest source rest
  | verbatim source =>
      exact stepVerbatim_encoded format nest source
  | comment source =>
      have hWritten := comment_encoded nest source
      change
        (.ok
          { items := (comment nest.encoded (toUtf8 source)).1
            nest := (comment nest.encoded (toUtf8 source)).2 } :
          Except Octet.Fault Outcome) = _
      rw [hWritten]
      rfl
  | text source =>
      rw [Token.encoded, step, Markup.step,
        trim_toUtf8 treatsWide_isBlank]
      simp only [toUtf8_eq_nil_iff, decodeText,
        mapUtf8_toUtf8, Nest.line_encoded]
      split
      · rfl
      · rfl

/- So the layout of octets is the layout, in octets. -/
theorem layout_encoded
    (format : StyleFormatter)
    (nest : Nest)
    (tokens : List Token) :
    layout format nest.encoded (tokens.map Token.encoded) =
      ((Markup.layout format nest tokens).map
        (List.map Item.encoded)).mapError Fault.ofFault := by
  -- A step may take several tokens at once.
  induction hLength : tokens.length
    using Nat.strong_induction_on generalizing nest tokens with
  | _ length ih =>
      cases tokens with
      | nil => rw [List.map_nil, layout, Markup.layout]; rfl
      | cons token rest =>
          rw [List.map_cons, layout, Markup.layout,
            step_encoded]
          cases Markup.step format nest rest token with
          | error fault => rfl
          | ok outcome =>
              have hLess :
                  (rest.drop outcome.taken).length <
                    length := by
                rw [← hLength, List.length_drop,
                  List.length_cons]
                omega
              have hLater := ih _ hLess outcome.nest _ rfl
              rw [List.map_drop] at hLater
              simp only [Except.map, Except.mapError,
                Outcome.encoded, hLater]
              cases Markup.layout format outcome.nest
                  (rest.drop outcome.taken) with
              | error fault => rfl
              | ok items =>
                  simp only [List.map_append]

end Octets

end Markup

end WebTidy

------------------------------------------------------------
-- Documents
------------------------------------------------------------

namespace WebTidy

namespace Markup

open Octet

/- The text of a line in octets. -/
theorem Item.text_encoded
    (item : Item) :
    item.encoded.text = toUtf8 item.text := by
  cases item with
  | supplied name => exact toUtf8_nil.symm
  | joined name tokens => exact toUtf8_nil.symm
  | line depth content =>
      have hTabs :
          toUtf8 (List.replicate depth '\t') =
            List.replicate depth '\t' := by
        apply toUtf8_of_ascii
        rw [List.any_eq_false]
        intro c hc
        rw [List.eq_of_mem_replicate hc]
        decide
      have hFeed : toUtf8 ['\n'] = ['\n'] :=
        toUtf8_of_ascii (by decide)
      rw [encoded, text, text, toUtf8_append, toUtf8_append,
        hTabs, hFeed]

/- The page in octets. -/
theorem pageText_encoded
    (items : List Item) :
    pageText (items.map Item.encoded) =
      toUtf8 (pageText items) := by
  have hPage :
      (items.map Item.encoded).flatMap Item.text =
        toUtf8 (items.flatMap Item.text) := by
    rw [List.flatMap_map, toUtf8_flatMap]
    congr 1
    funext item
    exact Item.text_encoded item
  simp only [pageText, hPage, trim_toUtf8 treatsWide_isBlank]

/-
  The layout of a document, octet by octet, is the layout of
  its characters.  No octets are cut apart, and what is
  written is a text.
-/
theorem Octets.prettify_eq
    (format : StyleFormatter)
    (document : Text) :
    prettify format document =
      (Markup.prettify format document).mapError
        Fault.ofFault := by
  have hNew : Nest.encoded {} = {} := rfl
  have hLayout :=
    layout_encoded format {}
      (Token.scan (document.trim isSpace))
  rw [hNew] at hLayout
  unfold prettify Markup.prettify render
  rw [scan_toUtf8]
  change (layout format {} _ >>= _) = _
  rw [hLayout]
  cases Markup.layout format {}
      (Token.scan (document.trim isSpace)) with
  | error fault => rfl
  | ok items =>
      simp only [Except.map, Except.mapError, bind,
        Except.bind, pageText_encoded, ofUtf8?_toUtf8]
      rfl

end Markup

end WebTidy
