import WebTidy.Operation
import WebTidy.Proofs.Markup.Preservation

/-
  When the layout of a document fails, and with what.

  Only the formatter of style sheets can fail.  It is asked
  for the body of every style element that can be split, in
  the order of the document, and its first error ends the
  layout.  A block on one line takes several tokens at once,
  but no style element is among them, so none is passed
  over.

  Key definitions include:
    * `WebTidy.Markup.IsStyleBody`
    * `WebTidy.Markup.styleError?`

  Key theorems include:
    * `WebTidy.Markup.step_of_styleError`
    * `WebTidy.Markup.exists_step_of_no_styleError`
    * `WebTidy.Markup.map_layout_eq`
    * `WebTidy.Markup.prettify_fails_iff`
-/

------------------------------------------------------------
-- Bodies Of Style Elements
------------------------------------------------------------

namespace WebTidy

namespace Markup

/-
  A token is a style element with a body: what stands
  between the end of its start tag and its last opening
  bracket.
-/
def IsStyleBody
    (token : Token)
    (body : Text) :
    Prop :=
  isStyle token = true ∧
    ∃ last close,
      Tag.endIndex? token.source 0 = some last ∧
      Text.lastIndexOf? '<' token.source = some close ∧
      last < close ∧
      body = (token.source.take close).drop (last + 1)

/- The error of the formatter on the body of a token. -/
def styleError?
    (format : StyleFormatter)
    (token : Token) :
    Option FormatError :=
  if isStyle token then
    match StyleParts.of? token.source with
    | none => none
    | some parts =>
        match format parts.body with
        | .error error => some error
        | .ok _ => none
  else none

/- The body of a style element, by its parts. -/
theorem isStyleBody_iff
    (token : Token)
    (body : Text) :
    IsStyleBody token body ↔
      isStyle token = true ∧
      ∃ parts,
        StyleParts.of? token.source = some parts ∧
        parts.body = body := by
  unfold IsStyleBody StyleParts.of?
  apply and_congr_right
  intro _
  cases Tag.endIndex? token.source 0 with
  | none => simp
  | some last =>
      cases Text.lastIndexOf? '<' token.source with
      | none => simp
      | some close =>
          by_cases hLess : last < close
          · simp [hLess, eq_comm]
          · simp [hLess]

variable
  {format : StyleFormatter}

/- The formatter fails on the body of a token. -/
theorem styleError?_eq_some_iff
    {token : Token}
    {error : FormatError} :
    styleError? format token = some error ↔
      ∃ body,
        IsStyleBody token body ∧
        format body = .error error := by
  simp only [isStyleBody_iff]
  unfold styleError?
  cases isStyle token with
  | false => simp
  | true =>
      cases StyleParts.of? token.source with
      | none => simp
      | some parts =>
          cases hFormat : format parts.body with
          | error other => simp [hFormat]
          | ok sheet => simp [hFormat]

/- The formatter succeeds on the body of a token, if any. -/
theorem styleError?_eq_none_iff
    {token : Token} :
    styleError? format token = none ↔
      ∀ body, IsStyleBody token body →
        ∃ sheet, format body = .ok sheet := by
  rw [Option.eq_none_iff_forall_ne_some]
  constructor
  · intro hNone body hBody
    cases hFormat : format body with
    | ok sheet => exact ⟨sheet, rfl⟩
    | error error =>
        exact absurd
          (styleError?_eq_some_iff.mpr ⟨body, hBody, hFormat⟩)
          (hNone error)
  · intro hBodies error hError
    rcases styleError?_eq_some_iff.mp hError with
      ⟨body, hBody, hFormat⟩
    rcases hBodies body hBody with ⟨sheet, hSheet⟩
    rw [hFormat] at hSheet
    cases hSheet

/- Only verbatim elements can fail. -/
theorem styleError?_of_copiedSource
    {token : Token}
    (h : copiedSource token = []) :
    styleError? format token = none := by
  cases token with
  | tag | text => rfl
  | verbatim | comment => cases h

end Markup

end WebTidy

------------------------------------------------------------
-- Steps
------------------------------------------------------------

namespace WebTidy

namespace Markup

variable
  {format : StyleFormatter}
  {nest : Nest}
  {rest : List Token}

/- A step on a style element is what the formatter says. -/
theorem step_style
    {source : Text}
    (h : isStyle (.verbatim source) = true) :
    step format nest rest (.verbatim source) =
      (styleElement format nest source).map
        fun items => { items := items, nest := nest } := by
  unfold isStyle at h
  rcases (Option.any_eq_true _ _).mp h with
    ⟨head, hRead, hName⟩
  rw [step, stepVerbatim, hRead]
  simp only [hName, if_true]
  cases styleElement format nest source with
  | error fault => rfl
  | ok items => rfl

/- The error of the formatter ends the layout. -/
theorem step_of_styleError
    {token : Token}
    {error : FormatError}
    (h : styleError? format token = some error) :
    step format nest rest token = .error (.style error) := by
  rcases styleError?_eq_some_iff.mp h with
    ⟨body, hBody, hFormat⟩
  rcases (isStyleBody_iff token body).mp hBody with
    ⟨hStyle, parts, hParts, rfl⟩
  cases token with
  | tag | text | comment => cases hStyle
  | verbatim source =>
      have hSource : StyleParts.of? source = some parts :=
        hParts
      rw [step_style hStyle, styleElement, hSource]
      simp only [hFormat]
      rfl

/- Without an error a style element takes no other token. -/
theorem exists_step_style
    {source : Text}
    (hStyle : isStyle (.verbatim source) = true)
    (h : styleError? format (.verbatim source) = none) :
    ∃ outcome,
      step format nest rest (.verbatim source) =
        .ok outcome ∧
      outcome.taken = 0 := by
  rw [step_style hStyle]
  have hItems :
      ∃ items,
        styleElement format nest source = .ok items := by
    unfold styleElement
    cases hParts : StyleParts.of? source with
    | none => exact ⟨_, rfl⟩
    | some parts =>
        rcases styleError?_eq_none_iff.mp h parts.body
            ((isStyleBody_iff _ _).mpr
              ⟨hStyle, parts, hParts, rfl⟩) with
          ⟨sheet, hSheet⟩
        simp only [hSheet]
        exact ⟨_, rfl⟩
  rcases hItems with ⟨items, hItems⟩
  rw [hItems]
  exact ⟨_, rfl, rfl⟩

/- A tag takes no style element. -/
theorem exists_step_block
    (format : StyleFormatter)
    (nest : Nest)
    {source : Text}
    (hSource : Token.IsShaped (.tag source))
    (hRest : ∀ token ∈ rest, token.IsShaped) :
    ∃ outcome,
      step format nest rest (.tag source) = .ok outcome ∧
      ∀ token ∈ rest.take outcome.taken,
        copiedSource token = [] := by
  rcases exists_head hSource with ⟨head, hRead⟩
  have hFound :
      ∃ found,
        span? nest head rest = .ok found ∧
        ∀ span, found = some span →
          Spans head.name rest span := by
    unfold span?
    split
    · exact exists_findSpan head.name nest.opened hRest 0
    · exact ⟨none, rfl, nofun⟩
  rcases hFound with ⟨found, hFound, hSpans⟩
  cases found with
  | none =>
      refine ⟨_, step_tag format hRead hFound rfl, ?_⟩
      simp
  | some span =>
      have hSpan := hSpans span rfl
      refine ⟨_, step_joined format hRead hFound, ?_⟩
      intro token hToken
      change token ∈ rest.take span.taken at hToken
      rw [hSpan.take, List.mem_append] at hToken
      rcases hToken with hBetween | hEnding
      · exact hSpan.plain token hBetween
      · cases hEnd : span.ending with
        | implied =>
            rw [hEnd] at hEnding
            cases hEnding
        | written tag =>
            rw [hEnd] at hEnding
            rw [List.mem_singleton.mp hEnding]
            rfl

/-
  Without an error on its own token a step succeeds, and it
  passes over no other error.
-/
theorem exists_step_of_no_styleError
    (nest : Nest)
    {token : Token}
    (hShaped : ∀ other ∈ token :: rest, other.IsShaped)
    (h : styleError? format token = none) :
    ∃ outcome,
      step format nest rest token = .ok outcome ∧
      ∀ other ∈ rest.take outcome.taken,
        styleError? format other = none := by
  have hAlone
      (hStep :
        ∃ outcome,
          step format nest rest token = .ok outcome ∧
          outcome.taken = 0) :
      ∃ outcome,
        step format nest rest token = .ok outcome ∧
        ∀ other ∈ rest.take outcome.taken,
          styleError? format other = none := by
    rcases hStep with ⟨outcome, hStep, hTaken⟩
    refine ⟨outcome, hStep, ?_⟩
    rw [hTaken]
    simp
  cases token with
  | text source => exact hAlone ⟨_, rfl, rfl⟩
  | comment source => exact hAlone ⟨_, rfl, rfl⟩
  | tag source =>
      rcases exists_step_block format nest
          (hShaped (.tag source) List.mem_cons_self)
          (fun other hOther =>
            hShaped other (List.mem_cons_of_mem _ hOther)) with
        ⟨outcome, hStep, hTaken⟩
      refine ⟨outcome, hStep, ?_⟩
      intro other hOther
      exact styleError?_of_copiedSource (hTaken other hOther)
  | verbatim source =>
      cases hStyle : isStyle (.verbatim source) with
      | true => exact hAlone (exists_step_style hStyle h)
      | false =>
          have hSource : IsBracketed source :=
            hShaped (.verbatim source) List.mem_cons_self
          rcases List.head?_eq_some_iff.mp hSource.1 with
            ⟨inner, rfl⟩
          have hRead :
              Tag.head? ('<' :: inner) =
                some (Tag.Head.read ('<' :: inner) inner) :=
            rfl
          exact hAlone
            ⟨_, step_verbatim format nest rest hRead hStyle,
              rfl⟩

end Markup

end WebTidy

------------------------------------------------------------
-- Documents
------------------------------------------------------------

namespace WebTidy

namespace Markup

/- The end of a layout by its first error, if any. -/
def verdict :
    Option FormatError → Except Fault Unit
| none => .ok ()
| some error => .error (.style error)

/-
  The layout fails with the first error that the formatter
  has on a token, and it succeeds if there is none.
-/
theorem map_layout_eq
    (format : StyleFormatter)
    (nest : Nest)
    (tokens : List Token)
    (hShaped : ∀ token ∈ tokens, token.IsShaped) :
    (layout format nest tokens).map (fun _ => ()) =
      verdict (tokens.findSome? (styleError? format)) := by
  -- A step may take several tokens at once.
  induction hLength : tokens.length
    using Nat.strong_induction_on
    generalizing nest tokens with
  | _ length ih =>
      cases tokens with
      | nil =>
          rw [layout]
          rfl
      | cons token rest =>
          rw [layout, List.findSome?_cons]
          cases hError : styleError? format token with
          | some error =>
              rw [step_of_styleError hError]
              rfl
          | none =>
              rcases exists_step_of_no_styleError nest
                  hShaped hError with
                ⟨outcome, hStep, hTaken⟩
              have hLess :
                  (rest.drop outcome.taken).length <
                    length := by
                rw [← hLength, List.length_drop,
                  List.length_cons]
                omega
              have hLater :
                  ∀ other ∈ rest.drop outcome.taken,
                    other.IsShaped := by
                intro other hOther
                exact hShaped other (List.mem_cons_of_mem _
                  (List.mem_of_mem_drop hOther))
              have hFirst :
                  rest.findSome? (styleError? format) =
                    (rest.drop outcome.taken).findSome?
                      (styleError? format) := by
                conv_lhs =>
                  rw [← List.take_append_drop outcome.taken
                    rest]
                rw [List.findSome?_append,
                  List.findSome?_eq_none_iff.mpr hTaken,
                  Option.none_or]
              have hMore :=
                ih _ hLess outcome.nest _ hLater rfl
              rw [hStep]
              simp only
              rw [hFirst, ← hMore]
              cases layout format outcome.nest
                  (rest.drop outcome.taken) with
              | error fault => rfl
              | ok items => rfl

/-
  The layout of a document gives a page if there is no
  error, and it fails with the first error otherwise.
-/
theorem prettify_cases
    (format : StyleFormatter)
    (document : Text) :
    ((Token.scan (document.trim isSpace)).findSome?
          (styleError? format) =
        none ∧
      ∃ page, prettify format document = .ok page) ∨
    ∃ error,
      (Token.scan (document.trim isSpace)).findSome?
          (styleError? format) =
        some error ∧
      prettify format document = .error (.style error) := by
  have hMap :=
    map_layout_eq format {}
      (Token.scan (document.trim isSpace))
      (fun token hToken => Token.isShaped_of_mem_scan hToken)
  unfold prettify render
  cases hError :
      (Token.scan (document.trim isSpace)).findSome?
        (styleError? format) with
  | none =>
      rw [hError] at hMap
      cases hItems :
          layout format {}
            (Token.scan (document.trim isSpace)) with
      | ok items => exact Or.inl ⟨rfl, _, rfl⟩
      | error fault =>
          rw [hItems] at hMap
          cases hMap
  | some error =>
      rw [hError] at hMap
      cases hItems :
          layout format {}
            (Token.scan (document.trim isSpace)) with
      | ok items =>
          rw [hItems] at hMap
          cases hMap
      | error fault =>
          rw [hItems] at hMap
          cases hMap
          exact Or.inr ⟨error, rfl, rfl⟩

/- A layout fails if and only if there is an error. -/
theorem prettify_eq_error_iff
    {format : StyleFormatter}
    {document : Text}
    {fault : Fault} :
    prettify format document = .error fault ↔
      ∃ error,
        (Token.scan (document.trim isSpace)).findSome?
            (styleError? format) =
          some error ∧
        fault = .style error := by
  rcases prettify_cases format document with
    ⟨hNone, page, hPage⟩ | ⟨error, hSome, hPage⟩
  · simp [hNone, hPage]
  · simp [hSome, hPage, eq_comm]

/- It gives a page if and only if there is none. -/
theorem exists_prettify_iff
    {format : StyleFormatter}
    {document : Text} :
    (∃ page, prettify format document = .ok page) ↔
      (Token.scan (document.trim isSpace)).findSome?
          (styleError? format) =
        none := by
  rcases prettify_cases format document with
    ⟨hNone, page, hPage⟩ | ⟨error, hSome, hPage⟩
  · simp [hNone, hPage]
  · simp [hSome, hPage]

/-
  The layout of a document fails if and only if the
  formatter fails on the body of a style element, and then
  with its error on the first such element; in all other
  cases there is a page.  The user of the operation sees one
  error for all of these.
-/
theorem prettify_fails_iff
    (format : StyleFormatter)
    (document : Text) :
    (∀ fault,
      prettify format document = .error fault ↔
        ∃ earlier token later body error,
          Token.scan (document.trim isSpace) =
            earlier ++ token :: later ∧
          IsStyleBody token body ∧
          format body = .error error ∧
          fault = .style error ∧
          ∀ other ∈ earlier, ∀ sheet,
            IsStyleBody other sheet →
              ∃ out, format sheet = .ok out) ∧
    ((∃ page, prettify format document = .ok page) ↔
      ∀ token ∈ Token.scan (document.trim isSpace),
        ∀ body, IsStyleBody token body →
          ∃ out, format body = .ok out) ∧
    (∀ failure,
      Operation.guarded .invalidHtml
            (prettify format document) =
          .error failure ↔
        failure = .invalidHtml ∧
        ∃ fault, prettify format document = .error fault) ∧
    Operation.apply .htmlPrettify document =
      Operation.guarded .invalidHtml
        (prettify Operation.formatStyle document) := by
  refine ⟨?_, ?_, ?_, rfl⟩
  · intro fault
    rw [prettify_eq_error_iff]
    simp only [List.findSome?_eq_some_iff,
      styleError?_eq_some_iff, styleError?_eq_none_iff]
    constructor
    · rintro ⟨error, ⟨earlier, token, later, hScan,
        ⟨body, hBody, hFormat⟩, hEarlier⟩, hFault⟩
      exact ⟨earlier, token, later, body, error, hScan, hBody,
        hFormat, hFault, hEarlier⟩
    · rintro ⟨earlier, token, later, body, error, hScan,
        hBody, hFormat, hFault, hEarlier⟩
      exact ⟨error, ⟨earlier, token, later, hScan,
        ⟨body, hBody, hFormat⟩, hEarlier⟩, hFault⟩
  · rw [exists_prettify_iff]
    simp only [List.findSome?_eq_none_iff,
      styleError?_eq_none_iff]
  · intro failure
    cases prettify format document with
    | ok page =>
        constructor
        · intro hFails
          cases hFails
        · rintro ⟨_, fault, hFault⟩
          cases hFault
    | error fault =>
        constructor
        · intro hFails
          cases hFails
          exact ⟨rfl, fault, rfl⟩
        · rintro ⟨rfl, _⟩
          rfl

end Markup

end WebTidy
