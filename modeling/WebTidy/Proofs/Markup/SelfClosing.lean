import WebTidy.Proofs.Markup.Siblings

/-
  Self-closing tags while a document is laid out.

  A self-closing tag has no content, so it stands on a line
  of its own and neither opens nor closes an element.  One
  case escapes that rule: the search for the end of a block
  does not ask whether the start tag is self-closing.  With
  the name of a block in front of texts and inline elements
  up to a tag that would end the block, the tag is joined
  with all of them.

  Key definitions include:
    * `WebTidy.Markup.EndsAhead`

  Key theorems include:
    * `WebTidy.Markup.findSpan_eq_none_iff`
    * `WebTidy.Markup.exists_span?`
    * `WebTidy.Markup.selfClosing_alone_iff`
-/

------------------------------------------------------------
-- Blocks That End
------------------------------------------------------------

namespace WebTidy

namespace Markup

/-
  Texts and inline elements lead to a tag that ends a block
  of a name.  The number is that of the inline elements
  which are open.
-/
inductive EndsAhead
    (name : Text)
    (opened : List Text) :
    Int → List Token → Prop
| here
    {balance : Int}
    {s : Text}
    {head : Tag.Head}
    {rest : List Token}
    (hRead : Tag.head? (s.trim isBlank) = some head)
    (hStops : Stops name opened balance head) :
    EndsAhead name opened balance (.tag s :: rest)
| text
    {balance : Int}
    {s : Text}
    {rest : List Token}
    (hRest : EndsAhead name opened balance rest) :
    EndsAhead name opened balance (.text s :: rest)
| inline
    {balance : Int}
    {s : Text}
    {head : Tag.Head}
    {rest : List Token}
    (hRead : Tag.head? (s.trim isBlank) = some head)
    (hInline : isInline head.name = true)
    (hRest :
      EndsAhead name opened (balance + balanceOf head)
        rest) :
    EndsAhead name opened balance (.tag s :: rest)

variable
  {name : Text}
  {opened : List Text}
  {balance : Int}

/- A block ends ahead of a text if it ends behind it. -/
theorem endsAhead_text_iff
    (s : Text)
    (rest : List Token) :
    EndsAhead name opened balance (.text s :: rest) ↔
      EndsAhead name opened balance rest := by
  constructor
  · rintro (_ | hRest)
    exact hRest
  · exact .text

/- It ends at a tag, or behind it if that is inline. -/
theorem endsAhead_tag_iff
    {s : Text}
    {head : Tag.Head}
    (rest : List Token)
    (hRead : Tag.head? (s.trim isBlank) = some head) :
    EndsAhead name opened balance (.tag s :: rest) ↔
      Stops name opened balance head ∨
        isInline head.name = true ∧
          EndsAhead name opened (balance + balanceOf head)
            rest := by
  constructor
  · intro h
    cases h with
    | here hOther hStops =>
        cases hRead.symm.trans hOther
        exact Or.inl hStops
    | inline hOther hInline hRest =>
        cases hRead.symm.trans hOther
        exact Or.inr ⟨hInline, hRest⟩
  · rintro (hStops | ⟨hInline, hRest⟩)
    · exact .here hRead hStops
    · exact .inline hRead hInline hRest

/- The search finds no end exactly where there is none. -/
theorem findSpan_eq_none_iff
    {tokens : List Token}
    (hShaped : ∀ token ∈ tokens, token.IsShaped) :
    findSpan name opened balance tokens = .ok none ↔
      ¬ EndsAhead name opened balance tokens := by
  induction tokens generalizing balance with
  | nil => exact iff_of_true rfl nofun
  | cons token rest ih =>
      rw [List.forall_mem_cons] at hShaped
      cases token with
      | verbatim s => exact iff_of_true rfl nofun
      | comment s => exact iff_of_true rfl nofun
      | text s =>
          rw [findSpan_text_eq_none_iff, endsAhead_text_iff]
          exact ih hShaped.2
      | tag s =>
          rcases exists_head hShaped.1 with ⟨head, hRead⟩
          rw [findSpan_tag_eq_none_iff rest hRead,
            endsAhead_tag_iff rest hRead, not_or, not_and,
            ih hShaped.2]

end Markup

end WebTidy

------------------------------------------------------------
-- Self-Closing Tags
------------------------------------------------------------

namespace WebTidy

namespace Markup

variable
  {format : StyleFormatter}
  {document source : Text}
  {nest : Nest}
  {rest : List Token}
  {head : Tag.Head}

/- The tokens behind a place in a document. -/
theorem Visits.isShaped
    {token : Token}
    (h :
      Visits format (Token.scan document) nest
        (token :: rest)) :
    ∀ other ∈ rest, other.IsShaped := by
  intro other hOther
  apply Token.isShaped_of_mem_scan (s := document)
  exact h.suffix.subset (List.mem_cons_of_mem _ hOther)

/-
  A start tag begins a block on one line exactly if it has
  the name of a block and the block ends ahead.
-/
theorem exists_span?
    (hRest : ∀ other ∈ rest, other.IsShaped)
    (hStart : head.isEnd = false) :
    ∃ found,
      span? nest head rest = .ok found ∧
      (found = none ↔
        ¬ (isCollapsible head.name = true ∧
          EndsAhead head.name nest.opened 0 rest)) := by
  cases hBlock : isCollapsible head.name with
  | false =>
      refine ⟨none, ?_, by simp⟩
      exact span?_eq_none nest rest (Or.inr hBlock)
  | true =>
      rcases exists_findSpan head.name nest.opened hRest 0
        with ⟨found, hFound, _⟩
      refine ⟨found, ?_, ?_⟩
      · unfold span?
        rw [if_pos (by simp [hStart, hBlock]), hFound]
      · have hNone :=
          @findSpan_eq_none_iff head.name nest.opened 0 rest
            hRest
        rw [hFound, Except.ok.injEq] at hNone
        simpa using hNone

/-
  What the layout of a document does with a self-closing
  tag.  It never changes the nesting.  It writes the tag as
  one line exactly if the tag does not have the name of a
  block that would end ahead.
-/
theorem selfClosing_alone_iff
    (hVisit :
      Visits format (Token.scan document) nest
        (.tag source :: rest))
    (hRead : Tag.head? (source.trim isBlank) = some head)
    (hStart : head.isEnd = false)
    (hSelf : head.selfClosing = true)
    (hName : head.name ≠ []) :
    ∃ outcome,
      step format nest rest (.tag source) = .ok outcome ∧
      outcome.nest = nest ∧
      (outcome =
          { items := [nest.line (tagText source)]
            nest := nest } ↔
        ¬ (isCollapsible head.name = true ∧
          EndsAhead head.name nest.opened 0 rest)) := by
  rcases @exists_span? nest rest head hVisit.isShaped hStart
    with ⟨found, hFound, hNone⟩
  rw [← hNone]
  cases found with
  | none =>
      refine ⟨_, step_tag format hRead hFound
        (element_empty hRead hName hStart (Or.inl hSelf)),
        rfl, ?_⟩
      exact iff_of_true rfl rfl
  | some span =>
      refine ⟨_, step_joined format hRead hFound, rfl, ?_⟩
      simp

/- A self-closing paragraph in front of a rule. -/
def ruledParagraph :
    Text :=
  "<div><p/><hr>x</p></div>".toList

/- The rule keeps the paragraph apart from the end tag. -/
theorem selfClosing_ruledParagraph :
    Visits .ok (Token.scan ruledParagraph)
        ⟨1, ["div".toList]⟩
        [.tag "<p/>".toList, .tag "<hr>".toList,
          .text "x".toList, .tag "</p>".toList,
          .tag "</div>".toList] ∧
      isCollapsible "p".toList = true ∧
      step .ok ⟨1, ["div".toList]⟩
          [.tag "<hr>".toList, .text "x".toList,
            .tag "</p>".toList, .tag "</div>".toList]
          (.tag "<p/>".toList) =
        .ok
          { items := [.line 1 "<p/>".toList]
            nest := ⟨1, ["div".toList]⟩ } := by
  have hScan :
      Token.scan ruledParagraph =
        [.tag "<div>".toList, .tag "<p/>".toList,
          .tag "<hr>".toList, .text "x".toList,
          .tag "</p>".toList, .tag "</div>".toList] := by
    decide +kernel
  have hFirst :
      step .ok {} ((Token.scan ruledParagraph).drop 1)
          (.tag "<div>".toList) =
        .ok
          { items := [.line 0 "<div>".toList]
            nest := ⟨1, ["div".toList]⟩ } := by
    decide +kernel
  have hVisit := @Visits.start .ok (Token.scan ruledParagraph)
  have hHead :
      Tag.head? (Text.trim isBlank "<p/>".toList) =
        some ⟨"p".toList, false, true⟩ := by
    decide
  rw [hScan] at hFirst
  nth_rewrite 2 [hScan] at hVisit
  have hSecond := hVisit.next hFirst
  have hApart :
      ¬ EndsAhead "p".toList ["div".toList] 0
        [.tag "<hr>".toList, .text "x".toList,
          .tag "</p>".toList, .tag "</div>".toList] := by
    rw [← findSpan_eq_none_iff hSecond.isShaped]
    decide +kernel
  rcases selfClosing_alone_iff hSecond hHead rfl rfl (by decide)
    with ⟨outcome, hStep, _, hAlone⟩
  rw [hAlone.mpr fun hJoined => hApart hJoined.2] at hStep
  have hText : tagText "<p/>".toList = "<p/>".toList := by
    decide +kernel
  rw [hText] at hStep
  exact ⟨hSecond, by decide, hStep⟩

/-
  A self-closing tag does not always stand alone.  In a
  division, a self-closing paragraph is joined with the text
  behind it, and an end tag is supplied for it.
-/
theorem not_alone_emptyParagraph :
    ¬ ∀ (document source : Text) (nest : Nest)
        (rest : List Token) (head : Tag.Head),
      Visits .ok (Token.scan document) nest
        (.tag source :: rest) →
      Tag.head? (source.trim isBlank) = some head →
      head.isEnd = false →
      head.selfClosing = true →
      head.name ≠ [] →
      step .ok nest rest (.tag source) =
        .ok
          { items := [nest.line (tagText source)]
            nest := nest } := by
  intro hAlone
  have hScan :
      Token.scan "<div><p/>x</div>".toList =
        [.tag "<div>".toList, .tag "<p/>".toList,
          .text "x".toList, .tag "</div>".toList] := by
    decide +kernel
  have hFirst :
      step .ok {}
          [.tag "<p/>".toList, .text "x".toList,
            .tag "</div>".toList]
          (.tag "<div>".toList) =
        .ok
          { items := [.line 0 "<div>".toList]
            nest := ⟨1, ["div".toList]⟩ } := by
    decide +kernel
  have hJoined :
      step .ok ⟨1, ["div".toList]⟩
          [.text "x".toList, .tag "</div>".toList]
          (.tag "<p/>".toList) =
        .ok
          { items :=
              [.joined "p".toList 3,
                .line 1 "<p/>x</p>".toList]
            nest := ⟨1, ["div".toList]⟩
            taken := 1 } := by
    decide +kernel
  have hVisit :=
    @Visits.start .ok (Token.scan "<div><p/>x</div>".toList)
  nth_rewrite 2 [hScan] at hVisit
  have hStep :=
    hAlone _ _ _ _ ⟨"p".toList, false, true⟩
      (hVisit.next hFirst) (by decide) rfl rfl (by decide)
  rw [hJoined] at hStep
  simp at hStep

end Markup

end WebTidy
