import WebTidy.Proofs.Markup.Rows

/-
  Siblings of one name while a document is laid out.

  An element whose end tag may be omitted ends where a
  sibling of its name starts.  A start tag on a line of its
  own therefore never stands directly inside an open element
  of its name: the end tag of that element is supplied first.
  A block that is set on one line supplies no end tag, so
  such a block can stand inside an open sibling.

  Key definitions include:
    * `WebTidy.Markup.Visits`

  Key theorems include:
    * `WebTidy.Markup.step_cases`
    * `WebTidy.Markup.startElement_of_isSound`
    * `WebTidy.Markup.Visits.isSound`
    * `WebTidy.Markup.exists_step_of_visits`
    * `WebTidy.Markup.joined_inside_sibling`
-/

------------------------------------------------------------
-- Visits
------------------------------------------------------------

namespace WebTidy

namespace Markup

/-
  The places that the layout of some tokens comes to: the
  open elements, and the tokens that are left.
-/
inductive Visits
    (format : StyleFormatter)
    (tokens : List Token) :
    Nest → List Token → Prop
| start :
    Visits format tokens {} tokens
| next
    {nest : Nest}
    {token : Token}
    {rest : List Token}
    {outcome : Outcome}
    (hVisit : Visits format tokens nest (token :: rest))
    (hStep : step format nest rest token = .ok outcome) :
    Visits format tokens outcome.nest
      (rest.drop outcome.taken)

/- What is left is an end of the tokens. -/
theorem Visits.suffix
    {format : StyleFormatter}
    {tokens rest : List Token}
    {nest : Nest}
    (h : Visits format tokens nest rest) :
    rest <:+ tokens := by
  induction h with
  | start => exact List.suffix_refl _
  | next hVisit hStep ih =>
      exact (List.drop_suffix _ _).trans
        ((List.suffix_cons _ _).trans ih)

end Markup

end WebTidy

------------------------------------------------------------
-- What A Step Opens And Closes
------------------------------------------------------------

namespace WebTidy

namespace Markup

/- Supplying end tags closes elements from the inside. -/
theorem opened_closeAbove_suffix
    (name : Text)
    (indent : Nat)
    (opened : List Text) :
    (Nest.closeAbove name indent opened).2.opened <:+
      opened := by
  induction opened generalizing indent with
  | nil => exact List.suffix_refl _
  | cons top rest ih =>
      rw [Nest.closeAbove]
      split
      · exact (ih (indent - 1)).trans (List.suffix_cons _ _)
      · exact List.suffix_refl _

/- An end tag closes elements from the inside. -/
theorem opened_endElement_suffix
    (nest : Nest)
    (name content : Text) :
    (endElement nest name content).2.opened <:+
      nest.opened := by
  have hPop (other : Nest) :
      (other.dedent.pop name).opened <:+ other.opened := by
    unfold Nest.pop
    split
    · exact List.tail_suffix _
    · exact List.suffix_refl _
  unfold endElement
  split
  · exact (hPop _).trans (opened_closeAbove_suffix name _ _)
  · exact hPop nest

/- A tag closes some elements, or it opens one. -/
theorem element_cases
    (nest : Nest)
    (tag : Text)
    (head : Tag.Head) :
    (element nest tag head).2.opened <:+ nest.opened ∨
      element nest tag head =
        startElement nest head.name.lower
          (Tag.normalize tag) := by
  unfold element
  simp only
  split
  · exact Or.inl (List.suffix_refl _)
  · split
    · exact Or.inl (List.suffix_refl _)
    · split
      · exact Or.inl (opened_endElement_suffix _ _ _)
      · split
        · exact Or.inl (List.suffix_refl _)
        · exact Or.inr rfl

/- A comment opens and closes no element. -/
theorem opened_comment
    (nest : Nest)
    (source : Text) :
    (comment nest source).2.opened = nest.opened := by
  unfold comment
  simp only
  split
  · rfl
  · split <;> rfl

variable
  {format : StyleFormatter}
  {nest : Nest}
  {rest : List Token}

/- A step closes some elements, or it opens one. -/
theorem step_cases
    {token : Token}
    {outcome : Outcome}
    (h : step format nest rest token = .ok outcome) :
    outcome.nest.opened <:+ nest.opened ∨
      ∃ source head,
        token = .tag source ∧
        Tag.head? (source.trim isBlank) = some head ∧
        outcome.nest =
          (startElement nest head.name.lower
            (tagText source)).2 := by
  cases token with
  | verbatim source =>
      left
      change stepVerbatim format nest source = _ at h
      unfold stepVerbatim at h
      split at h
      · cases h
      · split at h
        · rcases hItems : styleElement format nest source with
            fault | items
          · rw [hItems] at h
            cases h
          · rw [hItems] at h
            cases h
            exact List.suffix_refl _
        · cases h
          exact List.suffix_refl _
  | comment source =>
      left
      cases h
      rw [opened_comment]
  | text source =>
      cases h
      exact Or.inl (List.suffix_refl _)
  | tag source =>
      cases hRead : Tag.head? (source.trim isBlank) with
      | none =>
          unfold step stepTag at h
          simp only [hRead] at h
          cases h
      | some head =>
          cases hSpan : span? nest head rest with
          | error fault =>
              unfold step stepTag at h
              simp only [hRead, hSpan] at h
              cases h
          | ok found =>
              cases found with
              | some span =>
                  rw [step_joined format hRead hSpan] at h
                  cases h
                  exact Or.inl (List.suffix_refl _)
              | none =>
                  rw [step_tag format hRead hSpan rfl] at h
                  cases h
                  rcases element_cases nest
                      (source.trim isBlank) head with
                    hSuffix | hStart
                  · exact Or.inl hSuffix
                  · right
                    exact ⟨source, head, rfl, hRead,
                      congrArg Prod.snd hStart⟩

end Markup

end WebTidy

------------------------------------------------------------
-- Sound Nestings On Every Visit
------------------------------------------------------------

namespace WebTidy

namespace Markup

/-
  The nesting that a start tag is written in: the end tag of
  an open sibling is supplied first.
-/
def siblingClosed
    (nest : Nest)
    (name : Text) :
    List Item × Nest :=
  if nest.opened.head? = some name then nest.closeTop
  else ([], nest)

/-
  In a sound nesting a start tag is written where no sibling
  of its name is innermost.  Two siblings are never open
  inside each other, so one end tag is enough.
-/
theorem startElement_of_isSound
    {nest : Nest}
    (head : Tag.Head)
    (content : Text)
    (hSound : IsSound nest.opened) :
    ∃ closing outer,
      startElement nest head.name.lower content =
        (closing ++ [outer.line content],
          outer.push head.name.lower) ∧
      outer.opened <:+ nest.opened ∧
      Fits outer.opened.head? head ∧
      (isAutoClosing head.name = true →
        siblingClosed nest head.name.lower =
          (closing, outer)) := by
  have hAuto :
      isAutoClosing head.name.lower =
        isAutoClosing head.name :=
    isAmong_lower _ _
  unfold startElement
  split
  · rename_i hSibling
    rcases nest with ⟨indent, opened⟩
    rcases List.head?_eq_some_iff.mp hSibling.2 with
      ⟨outer, hOpened⟩
    subst hOpened
    refine ⟨_, _, rfl, List.suffix_cons _ _, ?_, ?_⟩
    · intro _ hNext
      rcases List.head?_eq_some_iff.mp hNext with
        ⟨more, hMore⟩
      change outer = _ at hMore
      subst hMore
      have hPair := (List.isChain_cons_cons.mp hSound.apart).1
      rw [hPair rfl] at hSibling
      cases hSibling.1
    · intro _
      rw [siblingClosed, if_pos hSibling.2]
  · rename_i hAlone
    refine ⟨_, _, rfl, List.suffix_refl _, ?_, ?_⟩
    · intro hClass hSibling
      exact hAlone ⟨hAuto.trans hClass, hSibling⟩
    · intro hClass
      rw [siblingClosed, if_neg]
      intro hSibling
      exact hAlone ⟨hAuto.trans hClass, hSibling⟩

/- A step keeps the nesting sound. -/
theorem isSound_step
    {format : StyleFormatter}
    {nest : Nest}
    {token : Token}
    {rest : List Token}
    {outcome : Outcome}
    (hSound : IsSound nest.opened)
    (h : step format nest rest token = .ok outcome) :
    IsSound outcome.nest.opened := by
  rcases step_cases h with
    hSuffix | ⟨source, head, _, _, hStart⟩
  · exact hSound.suffix hSuffix
  · rcases startElement_of_isSound head
        (tagText source) hSound with
      ⟨closing, outer, hWritten, hSuffix, hFits, _⟩
    rw [hStart, hWritten]
    exact (hSound.suffix hSuffix).cons hFits

/- So the nesting is sound on every visit. -/
theorem Visits.isSound
    {format : StyleFormatter}
    {tokens rest : List Token}
    {nest : Nest}
    (h : Visits format tokens nest rest) :
    IsSound nest.opened := by
  induction h with
  | start => exact isSound_nil
  | next hVisit hStep ih => exact isSound_step ih hStep

end Markup

end WebTidy

------------------------------------------------------------
-- Start Tags
------------------------------------------------------------

namespace WebTidy

namespace Markup

/- A name with an omissible end tag has content. -/
theorem of_isAutoClosing
    {name : Text}
    (h : isAutoClosing name = true) :
    name ≠ [] ∧ isVoid name = false := by
  constructor
  · rintro rfl
    cases h
  · unfold isAutoClosing at h
    exact isAmong_eq_false rfl h

/-
  What the layout of a document does with the start tag of
  an element whose end tag may be omitted.

  On a line of its own it stands where the innermost open
  element has another name, behind the end tag of an open
  sibling.  As the start of a block on one line it stands in
  the nesting as it is, whatever that is.
-/
theorem exists_step_of_visits
    {format : StyleFormatter}
    {document source : Text}
    {nest : Nest}
    {rest : List Token}
    {head : Tag.Head}
    (hVisit :
      Visits format (Token.scan document) nest
        (.tag source :: rest))
    (hRead : Tag.head? (source.trim isBlank) = some head)
    (hStart : head.isEnd = false)
    (hSelf : head.selfClosing = false)
    (hAuto : isAutoClosing head.name = true) :
    IsSound nest.opened ∧
    ((∃ closing outer,
        span? nest head rest = .ok none ∧
        step format nest rest (.tag source) =
          .ok
            { items := closing ++ [outer.line (tagText source)]
              nest := outer.push head.name.lower } ∧
        siblingClosed nest head.name.lower =
          (closing, outer) ∧
        outer.opened.head? ≠ some head.name.lower) ∨
      ∃ span,
        span? nest head rest = .ok (some span) ∧
        step format nest rest (.tag source) =
          .ok
            { items :=
                [.joined head.name span.size,
                  nest.line (span.line source head.name)]
              nest := nest
              taken := span.taken }) := by
  have hSound := hVisit.isSound
  have hShaped :
      ∀ token ∈ rest, token.IsShaped := by
    intro token hToken
    apply Token.isShaped_of_mem_scan (s := document)
    exact hVisit.suffix.subset (List.mem_cons_of_mem _ hToken)
  refine ⟨hSound, ?_⟩
  have hFound :
      ∃ found, span? nest head rest = .ok found := by
    unfold span?
    split
    · rcases exists_findSpan head.name nest.opened hShaped 0
        with ⟨found, hFound, _⟩
      exact ⟨found, hFound⟩
    · exact ⟨none, rfl⟩
  rcases hFound with ⟨found, hFound⟩
  cases found with
  | some span =>
      right
      exact ⟨span, hFound, step_joined format hRead hFound⟩
  | none =>
      left
      have hClass := of_isAutoClosing hAuto
      have hElement :=
        @element_eq_startElement nest _ _ hRead hClass.1
          hStart hSelf hClass.2
      rcases startElement_of_isSound head
          (tagText source) hSound with
        ⟨closing, outer, hWritten, _, hFits, hClosed⟩
      refine ⟨closing, outer, hFound, ?_, hClosed hAuto,
        hFits hAuto⟩
      exact step_tag format hRead hFound
        (hElement.trans hWritten)

/- An option behind an option, both without end tags. -/
def openOptions :
    List Token :=
  Token.scan "<option>a<option>b".toList

/- The visit of the second option, inside the first. -/
theorem visits_openOptions :
    Visits .ok openOptions ⟨1, ["option".toList]⟩
      [.tag "<option>".toList, .text "b".toList] := by
  have hScan :
      openOptions =
        [.tag "<option>".toList, .text "a".toList,
          .tag "<option>".toList, .text "b".toList] := by
    decide +kernel
  have hFirst :
      step .ok {} (openOptions.drop 1)
          (.tag "<option>".toList) =
        .ok
          { items := [.line 0 "<option>".toList]
            nest := ⟨1, ["option".toList]⟩ } := by
    decide +kernel
  have hText :
      step .ok ⟨1, ["option".toList]⟩ (openOptions.drop 2)
          (.text "a".toList) =
        .ok
          { items := [.line 1 "a".toList]
            nest := ⟨1, ["option".toList]⟩ } := by
    decide +kernel
  rw [hScan] at hFirst hText ⊢
  exact (Visits.start.next hFirst).next hText

/- The end tag of the first option is supplied. -/
theorem exists_step_openOptions :
    ∃ closing outer,
      step .ok ⟨1, ["option".toList]⟩ [.text "b".toList]
          (.tag "<option>".toList) =
        .ok
          { items := closing ++ [outer.line "<option>".toList]
            nest := outer.push "option".toList } ∧
      siblingClosed ⟨1, ["option".toList]⟩ "option".toList =
        (closing, outer) ∧
      outer.opened.head? ≠ some "option".toList := by
  have hStep :=
    exists_step_of_visits visits_openOptions
      (show Tag.head? _ =
        some ⟨"option".toList, false, false⟩ by decide)
      rfl rfl rfl
  rcases hStep.2 with
    ⟨closing, outer, _, hWritten, hClosed, hApart⟩ |
      ⟨span, hSpan, _⟩
  · have hText :
        tagText "<option>".toList = "<option>".toList := by
      decide +kernel
    rw [hText] at hWritten
    exact ⟨closing, outer, hWritten, hClosed, hApart⟩
  · cases hSpan

/- A paragraph behind a division in an open paragraph. -/
def openParagraph :
    List Token :=
  Token.scan "<p><div></div><p>x</p>".toList

/- The visit of the second paragraph, inside the first. -/
theorem visits_openParagraph :
    Visits .ok openParagraph ⟨1, ["p".toList]⟩
      [.tag "<p>".toList, .text "x".toList,
        .tag "</p>".toList] := by
  have hScan :
      openParagraph =
        [.tag "<p>".toList, .tag "<div>".toList,
          .tag "</div>".toList, .tag "<p>".toList,
          .text "x".toList, .tag "</p>".toList] := by
    decide +kernel
  have hFirst :
      step .ok {} (openParagraph.drop 1)
          (.tag "<p>".toList) =
        .ok
          { items := [.line 0 "<p>".toList]
            nest := ⟨1, ["p".toList]⟩ } := by
    decide +kernel
  have hStart :
      step .ok ⟨1, ["p".toList]⟩ (openParagraph.drop 2)
          (.tag "<div>".toList) =
        .ok
          { items := [.line 1 "<div>".toList]
            nest := ⟨2, ["div".toList, "p".toList]⟩ } := by
    decide +kernel
  have hEnd :
      step .ok ⟨2, ["div".toList, "p".toList]⟩
          (openParagraph.drop 3) (.tag "</div>".toList) =
        .ok
          { items := [.line 1 "</div>".toList]
            nest := ⟨1, ["p".toList]⟩ } := by
    decide +kernel
  rw [hScan] at hFirst hStart hEnd ⊢
  exact ((Visits.start.next hFirst).next hStart).next hEnd

/-
  A block on one line does stand directly inside an open
  sibling: the second paragraph is written while the first
  one is still open.
-/
theorem joined_inside_sibling :
    ∃ nest rest span,
      Visits .ok openParagraph nest
        (.tag "<p>".toList :: rest) ∧
      nest.opened.head? = some "p".toList ∧
      step .ok nest rest (.tag "<p>".toList) =
        .ok
          { items :=
              [.joined "p".toList (Span.size span),
                nest.line "<p>x</p>".toList]
            nest := nest
            taken := span.taken } := by
  refine ⟨_, _,
    ⟨[.text "x".toList], .written "</p>".toList⟩,
    visits_openParagraph, rfl, ?_⟩
  decide +kernel

end Markup

end WebTidy
