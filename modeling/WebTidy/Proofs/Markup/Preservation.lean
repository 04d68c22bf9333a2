import WebTidy.Proofs.Markup.Weave

/-
  The layout of a document succeeds, and it loses and
  invents nothing.

  This holds for every document without a style element,
  however its elements are nested.  A step may take several
  tokens, so what it writes is compared with the tokens that
  it takes, and the steps are put together along the walk.

  Key definitions include:
    * `WebTidy.Markup.isStyle`
    * `WebTidy.Markup.Spans`

  Key theorems include:
    * `WebTidy.Markup.exists_findSpan`
    * `WebTidy.Markup.writes_span`
    * `WebTidy.Markup.exists_step`
    * `WebTidy.Markup.exists_walk`
    * `WebTidy.Markup.prettify_woven`
-/

------------------------------------------------------------
-- Finding The End
------------------------------------------------------------

namespace WebTidy

namespace Markup

/- The tokens that the end of a block takes. -/
def Ending.tokens :
    Ending → List Token
| .written tag => [.tag tag]
| .implied => []

/-
  A span covers the tokens that it takes.  None of them is
  copied as it is, and only the end tag of an auto-closing
  block is omitted.
-/
structure Spans
    (name : Text)
    (tokens : List Token)
    (span : Span) :
    Prop where
  take :
    tokens.take span.taken =
      span.between ++ span.ending.tokens
  plain : ∀ token ∈ span.between, copiedSource token = []
  implied :
    span.ending = .implied → isAutoClosing name = true

/- A token in front of a span. -/
theorem Spans.cons
    {name : Text}
    {tokens : List Token}
    {span : Span}
    {token : Token}
    (h : Spans name tokens span)
    (hToken : copiedSource token = []) :
    Spans name (token :: tokens) (span.cons token) := by
  have hTaken :
      (span.cons token).taken = span.taken + 1 := by
    unfold Span.cons Span.taken
    cases span.ending with
    | written tag => rfl
    | implied => rfl
  constructor
  · rw [hTaken, List.take_succ_cons, h.take]
    rfl
  · intro other hOther
    rcases List.mem_cons.mp hOther with rfl | hBetween
    · exact hToken
    · exact h.plain other hBetween
  · exact h.implied

/- The tag of a token has a head. -/
theorem exists_head
    {source : Text}
    (h : Token.IsShaped (.tag source)) :
    ∃ head,
      Tag.head? (source.trim isBlank) = some head := by
  apply Option.ne_none_iff_exists'.mp
  intro hNone
  rw [Tag.head?_eq_none_iff] at hNone
  exact trim_ne_nil h hNone

/-
  The search for the end of a block succeeds, and what it
  finds covers the tokens that it takes.
-/
theorem exists_findSpan
    (name : Text)
    (opened : List Text)
    {tokens : List Token}
    (hShaped : ∀ token ∈ tokens, token.IsShaped)
    (balance : Int) :
    ∃ found,
      findSpan name opened balance tokens = .ok found ∧
      ∀ span, found = some span →
        Spans name tokens span := by
  induction tokens generalizing balance with
  | nil => exact ⟨none, rfl, by simp⟩
  | cons token rest ih =>
      have hRest : ∀ other ∈ rest, other.IsShaped := by
        intro other hOther
        exact hShaped other (by simp [hOther])
      -- A token that the search passes over.
      have hPass (next : Int)
          (hToken : copiedSource token = []) :
          ∃ found,
            (findSpan name opened next rest).map
                (Option.map (.cons token)) =
              .ok found ∧
            ∀ span, found = some span →
              Spans name (token :: rest) span := by
        rcases ih hRest next with ⟨found, hFound, hSpans⟩
        refine ⟨found.map (.cons token), ?_, ?_⟩
        · rw [hFound]
          rfl
        · intro span hSpan
          rcases Option.map_eq_some_iff.mp hSpan with
            ⟨inner, hInner, rfl⟩
          exact (hSpans inner hInner).cons hToken
      cases token with
      | text source => exact hPass balance rfl
      | verbatim source => exact ⟨none, rfl, by simp⟩
      | comment source => exact ⟨none, rfl, by simp⟩
      | tag source =>
          rcases exists_head
              (hShaped (.tag source) (by simp)) with
            ⟨head, hRead⟩
          rw [findSpan, hRead]
          simp only
          split
          · refine ⟨_, rfl, ?_⟩
            rintro span ⟨⟩
            exact ⟨rfl, by simp, by simp⟩
          · split
            · rename_i hEnds
              refine ⟨_, rfl, ?_⟩
              rintro span ⟨⟩
              refine ⟨rfl, by simp, ?_⟩
              intro _
              exact hEnds.2.1
            · split
              · exact hPass _ rfl
              · exact ⟨none, rfl, by simp⟩

end Markup

end WebTidy

------------------------------------------------------------
-- Blocks On One Line
------------------------------------------------------------

namespace WebTidy

namespace Markup

/- A token inside a line keeps its content. -/
theorem squeeze_inlineText
    {token : Token}
    (h : copiedSource token = []) :
    squeeze (inlineText token) =
      squeeze (content token) := by
  cases token with
  | tag source => rfl
  | text source => exact squeeze_fold _
  | verbatim source => cases h
  | comment source => cases h

/- Tokens inside a line are woven without supplied tags. -/
theorem woven_inline
    {tokens : List Token}
    (available : List Text)
    (h : ∀ token ∈ tokens, copiedSource token = []) :
    ∃ more,
      Woven available tokens
        (squeeze (tokens.flatMap inlineText))
        (more ++ available) := by
  induction tokens generalizing available with
  | nil => exact ⟨[], .done⟩
  | cons token rest ih =>
      rcases ih (offered token ++ available)
          (fun other hOther => h other (by simp [hOther]))
        with ⟨more, hRest⟩
      refine ⟨more ++ offered token, ?_⟩
      rw [List.flatMap_cons, squeeze_append,
        squeeze_inlineText (h token (by simp)),
        List.append_assoc]
      exact .token hRest

/- The end of a block is written or supplied. -/
theorem woven_ending
    {available opened : List Text}
    {name : Text}
    {ending : Ending}
    (hImplied :
      ending = .implied → isAutoClosing name = true)
    (hCovered : Covered available (name.lower :: opened)) :
    ∃ left,
      Covered left opened ∧
      Woven available ending.tokens
        (squeeze (ending.text name)) left := by
  cases ending with
  | written tag =>
      have hInner : Covered available opened :=
        hCovered.sublist (List.sublist_cons_self _ _)
      refine ⟨_, hInner.append_left (offered (.tag tag)), ?_⟩
      rw [← List.append_nil (squeeze _)]
      exact .token .done
  | implied =>
      refine ⟨_, hCovered.erase, ?_⟩
      apply woven_endTag _ hCovered
      unfold isAutoClosing
      rw [isAmong_lower]
      exact hImplied rfl

/- No token of a block on one line is copied. -/
theorem Spans.flatMap_copiedSource
    {name source : Text}
    {tokens : List Token}
    {span : Span}
    (h : Spans name tokens span) :
    List.flatMap copiedSource
      (.tag source ::
        (span.between ++ span.ending.tokens)) = [] := by
  rw [List.flatMap_eq_nil_iff]
  intro token hToken
  rcases List.mem_cons.mp hToken with rfl | hRest
  · rfl
  · rcases List.mem_append.mp hRest with hInner | hLast
    · exact h.plain token hInner
    · cases hEnding : span.ending with
      | written tag =>
          rw [hEnding] at hLast
          rw [List.mem_singleton.mp hLast]
          rfl
      | implied =>
          rw [hEnding] at hLast
          cases hLast

/- The parts of a block on one line. -/
theorem squeeze_span
    (nest : Nest)
    (source name : Text)
    (span : Span) :
    squeeze
        (List.flatMap Item.text
          [.joined name span.size,
            nest.line (span.line source name)]) =
      squeeze (tagText source) ++
        (squeeze (span.between.flatMap inlineText) ++
          squeeze (span.ending.text name)) := by
  simp only [List.flatMap_cons, List.flatMap_nil,
    List.append_nil, Nest.line, squeeze_append,
    squeeze_line, Span.line, squeeze_trim,
    List.append_assoc]
  rfl

/- What a block on one line writes. -/
theorem writes_span
    {source : Text}
    {head : Tag.Head}
    {tokens : List Token}
    {span : Span}
    (nest : Nest)
    (hRead : Tag.head? (source.trim isBlank) = some head)
    (hStart : head.isEnd = false)
    (hSpan : Spans head.name tokens span) :
    Writes nest.opened
      (.tag source :: tokens.take span.taken)
      [.joined head.name span.size,
        nest.line (span.line source head.name)]
      nest.opened := by
  rw [hSpan.take]
  unfold Writes
  rw [hSpan.flatMap_copiedSource, squeeze_span]
  refine ⟨trivial, ?_⟩
  intro available hCovered
  have hOpen := hCovered.cons hRead hStart
  rcases woven_inline (offered (.tag source) ++ available)
      hSpan.plain with ⟨more, hBetween⟩
  rcases woven_ending hSpan.implied (hOpen.append_left more)
    with ⟨left, hLeft, hEnding⟩
  exact ⟨left, hLeft, .token (hBetween.append hEnding)⟩

end Markup

end WebTidy

------------------------------------------------------------
-- Steps
------------------------------------------------------------

namespace WebTidy

namespace Markup

/- The verbatim elements whose content is laid out. -/
def isStyle :
    Token → Bool
| .verbatim source =>
    (Tag.head? source).any fun head =>
      Text.sameLetters head.name "style".toList
| _ => false

/- What a text writes. -/
theorem writes_text
    (nest : Nest)
    (source : Text) :
    Writes nest.opened [.text source]
      (if source.trim isBlank = [] then []
      else
        [nest.line
          (CharRef.decode .text (source.trim isBlank))])
      nest.opened := by
  have hTrim := squeeze_decode_trim .text source
  split
  · rename_i hBlank
    have hContent : squeeze (content (.text source)) = [] := by
      rw [content, ← hTrim, hBlank, CharRef.decode]
      rfl
    refine ⟨trivial, ?_⟩
    intro available hCovered
    refine ⟨available, hCovered, ?_⟩
    have hWoven : Woven available [.text source] _ available :=
      .token .done
    rw [hContent] at hWoven
    exact hWoven
  · refine writes_token ?_ hTrim trivial
    intro available hCovered
    exact hCovered

/- A verbatim element other than a style is copied. -/
theorem exists_step_verbatim
    {source : Text}
    (format : StyleFormatter)
    (nest : Nest)
    (rest : List Token)
    (hSource : IsBracketed source)
    (hStyle : isStyle (.verbatim source) = false) :
    ∃ outcome,
      step format nest rest (.verbatim source) =
        .ok outcome ∧
      Writes nest.opened
        (.verbatim source :: rest.take outcome.taken)
        outcome.items outcome.nest.opened := by
  rcases List.head?_eq_some_iff.mp hSource.1 with
    ⟨inner, rfl⟩
  have hNot :
      ∀ head, Tag.head? ('<' :: inner) = some head →
        Text.sameLetters head.name "style".toList = false := by
    intro head hRead
    rw [isStyle, hRead] at hStyle
    exact hStyle
  refine ⟨_, step_verbatim format nest rest rfl (hNot _ rfl), ?_⟩
  exact writes_copy nest.opened nest.indent rfl rfl

/- A tag is laid out alone or with the block it begins. -/
theorem exists_step_tag
    {source : Text}
    {rest : List Token}
    (format : StyleFormatter)
    (nest : Nest)
    (hSource : Token.IsShaped (.tag source))
    (hRest : ∀ token ∈ rest, token.IsShaped) :
    ∃ outcome,
      step format nest rest (.tag source) = .ok outcome ∧
      Writes nest.opened
        (.tag source :: rest.take outcome.taken)
        outcome.items outcome.nest.opened := by
  rcases exists_head hSource with ⟨head, hRead⟩
  have hAlone (hNone : span? nest head rest = .ok none) :
      ∃ outcome,
        step format nest rest (.tag source) = .ok outcome ∧
        Writes nest.opened
          (.tag source :: rest.take outcome.taken)
          outcome.items outcome.nest.opened := by
    refine ⟨_, step_tag format hRead hNone rfl, ?_⟩
    exact writes_element nest hRead
  by_cases hBlock : !head.isEnd ∧ isCollapsible head.name
  · rcases exists_findSpan head.name nest.opened hRest 0
      with ⟨found, hFound, hSpans⟩
    have hSpan : span? nest head rest = .ok found := by
      unfold span?
      rw [if_pos hBlock, hFound]
    cases found with
    | none => exact hAlone hSpan
    | some span =>
        have hStart : head.isEnd = false := by
          simpa using hBlock.1
        refine ⟨_, step_joined format hRead hSpan, ?_⟩
        exact writes_span nest hRead hStart (hSpans span rfl)
  · apply hAlone
    unfold span?
    rw [if_neg hBlock]

/-
  A step succeeds, and what it writes is woven from the
  tokens that it takes.
-/
theorem exists_step
    {token : Token}
    {rest : List Token}
    (format : StyleFormatter)
    (nest : Nest)
    (hShaped : ∀ other ∈ token :: rest, other.IsShaped)
    (hStyle : isStyle token = false) :
    ∃ outcome,
      step format nest rest token = .ok outcome ∧
      Writes nest.opened
        (token :: rest.take outcome.taken)
        outcome.items outcome.nest.opened := by
  have hToken := hShaped token (by simp)
  cases token with
  | tag source =>
      apply exists_step_tag format nest hToken
      intro other hOther
      exact hShaped other (by simp [hOther])
  | text source =>
      exact ⟨_, rfl, writes_text nest source⟩
  | verbatim source =>
      exact exists_step_verbatim format nest rest hToken
        hStyle
  | comment source =>
      exact ⟨_, rfl, writes_comment nest hToken⟩

end Markup

end WebTidy

------------------------------------------------------------
-- Documents
------------------------------------------------------------

namespace WebTidy

namespace Markup

/-
  The walk over some tokens succeeds, and what it writes is
  woven from them.
-/
theorem exists_walk
    (format : StyleFormatter)
    (nest : Nest)
    (tokens : List Token)
    (hShaped : ∀ token ∈ tokens, token.IsShaped)
    (hStyle : ∀ token ∈ tokens, isStyle token = false) :
    ∃ items last,
      walk format nest tokens = .ok (items, last) ∧
      Writes nest.opened tokens items last.opened := by
  -- A step may take several tokens at once.
  induction hLength : tokens.length
    using Nat.strong_induction_on
    generalizing nest tokens with
  | _ length ih =>
      cases tokens with
      | nil =>
          refine ⟨[], nest, ?_, writes_nil nest.opened⟩
          rw [walk]
      | cons token rest =>
          rcases exists_step format nest hShaped
              (hStyle token (by simp)) with
            ⟨outcome, hStep, hFirst⟩
          have hLess :
              (rest.drop outcome.taken).length < length := by
            rw [← hLength, List.length_drop,
              List.length_cons]
            omega
          have hLater :
              ∀ other ∈ rest.drop outcome.taken,
                other ∈ token :: rest := by
            intro other hOther
            exact List.mem_cons_of_mem _
              (List.mem_of_mem_drop hOther)
          rcases ih _ hLess outcome.nest
              (rest.drop outcome.taken)
              (fun other hOther =>
                hShaped other (hLater other hOther))
              (fun other hOther =>
                hStyle other (hLater other hOther))
              rfl with
            ⟨items, last, hWalk, hMore⟩
          refine ⟨outcome.items ++ items, last, ?_, ?_⟩
          · rw [walk_cons hStep, hWalk]
            rfl
          · have hWhole := hFirst.append hMore
            rw [List.cons_append, List.take_append_drop]
              at hWhole
            exact hWhole

/- The texts that are copied from a document. -/
theorem isBracketed_of_copied
    {document source : Text}
    (h :
      source ∈
        (Token.scan document).flatMap copiedSource) :
    IsBracketed source := by
  rcases List.mem_flatMap.mp h with ⟨token, hToken, hSource⟩
  have hShaped := Token.isShaped_of_mem_scan hToken
  cases token with
  | tag tag => cases hSource
  | text text => cases hSource
  | verbatim element =>
      rw [List.mem_singleton.mp hSource]
      exact hShaped
  | comment comment =>
      rw [List.mem_singleton.mp hSource]
      exact hShaped

/-
  The layout of a document without style elements succeeds.
  Up to blanks it is woven from the contents of all tokens
  and from omitted end tags, and the verbatim elements and
  the comments occur in it as they are.
-/
theorem prettify_woven
    (format : StyleFormatter)
    {document : Text}
    (hStyle :
      ∀ token ∈ Token.scan (document.trim isSpace),
        isStyle token = false) :
    ∃ out,
      prettify format document = .ok out ∧
      (∃ left,
        Woven [] (Token.scan (document.trim isSpace))
          (squeeze out) left) ∧
      InOrder
        ((Token.scan (document.trim isSpace)).flatMap
          copiedSource)
        out := by
  rcases exists_walk format {}
      (Token.scan (document.trim isSpace))
      (fun token hToken =>
        Token.isShaped_of_mem_scan hToken)
      hStyle with
    ⟨items, last, hWalk, hCopies, hWrites⟩
  have hCovered : Covered [] ({} : Nest).opened := by
    constructor
    · intro name
      exact Nat.le_refl _
    · intro name hName
      cases hName
  rcases hWrites [] hCovered with ⟨left, _, hWoven⟩
  refine ⟨pageText items, ?_, ⟨left, ?_⟩, ?_⟩
  · unfold prettify render
    rw [layout_eq_walk, hWalk]
    rfl
  · unfold pageText
    rw [squeeze_trim]
    exact hWoven
  · unfold pageText
    apply hCopies.trim
    intro source hSource
    exact isBracketed_of_copied hSource

/- A list that omits its end tags, and what is copied. -/
def looseList :
    Text :=
  "<ul><LI>a<li>b &lt;</ul><!-- c --><pre> d </pre>".toList

/- The layout of the list, with two end tags supplied. -/
theorem prettify_looseList :
    (∀ token ∈ Token.scan (looseList.trim isSpace),
      isStyle token = false) ∧
    ∃ out,
      prettify .ok looseList = .ok out ∧
      out =
        ("<ul>\n\t<LI>a</li>\n\t<li>b &lt;</li>\n</ul>\n" ++
          "<!-- c -->\n<pre> d </pre>").toList ∧
      (∃ left,
        Woven [] (Token.scan (looseList.trim isSpace))
          (squeeze out) left) ∧
      InOrder
        ((Token.scan (looseList.trim isSpace)).flatMap
          copiedSource)
        out := by
  have hStyle :
      ∀ token ∈ Token.scan (looseList.trim isSpace),
        isStyle token = false := by
    decide +kernel
  have hPage :
      prettify .ok looseList =
        .ok
          ("<ul>\n\t<LI>a</li>\n\t<li>b &lt;</li>\n</ul>\n" ++
            "<!-- c -->\n<pre> d </pre>").toList := by
    decide +kernel
  rcases prettify_woven .ok hStyle with
    ⟨out, hOut, hWoven, hCopies⟩
  refine ⟨hStyle, out, hOut, ?_, hWoven, hCopies⟩
  exact Except.ok.inj (hOut.symm.trans hPage)

end Markup

end WebTidy
