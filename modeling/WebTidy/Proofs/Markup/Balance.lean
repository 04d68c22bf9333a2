import WebTidy.Proofs.Markup.Siblings

/-
  Indentation and open elements while a document is laid
  out.

  Both are kept apart: conditional markers change only the
  indentation, and an end tag without its start tag takes
  one level away but closes nothing.  So the indentation is
  at most the number of open elements and opened markers.
  As long as there are no markers and every end tag finds
  its element, it is the number of open elements.

  Key definitions include:
    * `WebTidy.Markup.Nest.remaining`
    * `WebTidy.Markup.Stage.Regular`
    * `WebTidy.Markup.Stages`
    * `WebTidy.Markup.Turn`

  Key theorems include:
    * `WebTidy.Markup.Nest.closeAbove_snd`
    * `WebTidy.Markup.turn_of_step`
    * `WebTidy.Markup.Turn.indent_le`
    * `WebTidy.Markup.Turn.indent_eq`
    * `WebTidy.Markup.Stages.balanced`
-/

------------------------------------------------------------
-- Markers And End Tags
------------------------------------------------------------

namespace WebTidy

namespace Markup

/- A conditional marker that indents what follows it. -/
def Token.opensMarker :
    Token → Bool
| .comment source =>
    Text.beginsWith "<![if".toList (source.trim isBlank)
| _ => false

/- A conditional marker that ends the indentation. -/
def Token.closesMarker :
    Token → Bool
| .comment source =>
    Text.beginsWith "<![endif".toList (source.trim isBlank)
| _ => false

/- The lowercase name of an end tag, if it has one. -/
def Token.endName? :
    Token → Option Text
| .tag source =>
    (Tag.head? (source.trim isBlank)).bind fun head =>
      if head.isEnd ∧ head.name ≠ [] then
        some head.name.lower
      else none
| _ => none

/- The elements whose end tags are supplied above a name. -/
def isOmitted
    (name top : Text) :
    Bool :=
  top ≠ name ∧ isAutoClosing top

/-
  The open elements that an end tag finds, after the end
  tags omitted above its element.
-/
def Nest.remaining
    (nest : Nest)
    (name : Text) :
    List Text :=
  if isOpen nest.opened name then
    nest.opened.dropWhile (isOmitted name)
  else nest.opened

/- A name that an open element can have. -/
structure IsElementName
    (name : Text) :
    Prop where
  named : name ≠ []
  lower : name.lower = name
  content : isVoid name = false

end Markup

end WebTidy

------------------------------------------------------------
-- Stages
------------------------------------------------------------

namespace WebTidy

namespace Markup

/- A step of the layout, with what it starts from. -/
structure Stage where
  nest : Nest
  token : Token
  rest : List Token
  outcome : Outcome

/- The step sets a block on one line. -/
def Stage.Joins
    (stage : Stage) :
    Prop :=
  ∃ source head span,
    stage.token = .tag source ∧
    Tag.head? (source.trim isBlank) = some head ∧
    span? stage.nest head stage.rest = .ok (some span)

/-
  The step is no conditional marker, and if it is an end
  tag, its element is the innermost one when it is closed.
-/
structure Stage.Regular
    (stage : Stage) :
    Prop where
  opens : stage.token.opensMarker = false
  closes : stage.token.closesMarker = false
  finds :
    ∀ name, stage.token.endName? = some name →
      (stage.nest.remaining name).head? = some name

/- Regular steps can be told from others. -/
instance
    (stage : Stage) :
    Decidable stage.Regular :=
  decidable_of_iff
    (stage.token.opensMarker = false ∧
      stage.token.closesMarker = false ∧
      ∀ name ∈ stage.token.endName?,
        (stage.nest.remaining name).head? = some name)
    ⟨fun ⟨hOpens, hCloses, hFinds⟩ =>
        ⟨hOpens, hCloses, hFinds⟩,
      fun ⟨hOpens, hCloses, hFinds⟩ =>
        ⟨hOpens, hCloses, hFinds⟩⟩

/-
  The layout of some tokens after some steps, the latest
  step first: the open elements, and the tokens that are
  left.
-/
inductive Stages
    (format : StyleFormatter)
    (tokens : List Token) :
    List Stage → Nest → List Token → Prop
| start :
    Stages format tokens [] {} tokens
| next
    {past : List Stage}
    {nest : Nest}
    {token : Token}
    {rest : List Token}
    {outcome : Outcome}
    (hPast : Stages format tokens past nest (token :: rest))
    (hStep : step format nest rest token = .ok outcome) :
    Stages format tokens
      (⟨nest, token, rest, outcome⟩ :: past)
      outcome.nest (rest.drop outcome.taken)

end Markup

end WebTidy

------------------------------------------------------------
-- What A Step Does With The Nesting
------------------------------------------------------------

namespace WebTidy

namespace Markup

/-
  What a step can do with the nesting.  Texts, blocks on
  one line, declarations and elements without content leave
  it as it is.
-/
inductive Turn
    (nest : Nest)
    (token : Token) :
    Nest → Prop
| stay :
    Turn nest token nest
| enter
    (hMarker : token.opensMarker = true) :
    Turn nest token nest.enter
| leave
    (hMarker : token.closesMarker = true) :
    Turn nest token nest.dedent
| finish
    {name content : Text}
    (hName : token.endName? = some name) :
    Turn nest token (endElement nest name content).2
| start
    {name content : Text}
    (hName : IsElementName name) :
    Turn nest token (startElement nest name content).2

/- What the tag of a step is. -/
theorem exists_head_of_step
    {format : StyleFormatter}
    {nest : Nest}
    {source : Text}
    {rest : List Token}
    {outcome : Outcome}
    (h :
      step format nest rest (.tag source) = .ok outcome) :
    ∃ head found,
      Tag.head? (source.trim isBlank) = some head ∧
      span? nest head rest = .ok found ∧
      outcome.nest =
        match found with
        | some _ => nest
        | none =>
            (element nest (source.trim isBlank)
              head).2 := by
  cases hRead : Tag.head? (source.trim isBlank) with
  | none =>
      unfold step stepTag at h
      simp only [hRead] at h
      cases h
  | some head =>
      cases hSpan : span? nest head rest with
      | error fault =>
          unfold step stepTag at h
          simp only [hRead, hSpan] at h
          cases h
      | ok found =>
          refine ⟨head, found, rfl, hSpan, ?_⟩
          cases found with
          | some span =>
              rw [step_joined format hRead hSpan] at h
              cases h
              rfl
          | none =>
              rw [step_tag format hRead hSpan rfl] at h
              cases h
              rfl

/- What a tag on a line of its own does. -/
theorem turn_element
    (nest : Nest)
    {source : Text}
    {head : Tag.Head}
    (hRead : Tag.head? (source.trim isBlank) = some head) :
    Turn nest (.tag source)
      (element nest (source.trim isBlank) head).2 := by
  unfold element
  simp only
  split
  · exact .stay
  · split
    · exact .stay
    · rename_i hPlain
      rw [not_or] at hPlain
      have hName : head.name ≠ [] := by
        intro hNil
        rw [hNil] at hPlain
        exact hPlain.2 rfl
      split
      · rename_i hEnd
        apply Turn.finish
        rw [Token.endName?, hRead, Option.bind_some,
          if_pos ⟨hEnd, hName⟩]
      · split
        · exact .stay
        · rename_i hEmpty
          rw [not_or, Bool.not_eq_true, Bool.not_eq_true]
            at hEmpty
          exact .start ⟨hPlain.2, lower_lower _, hEmpty.2⟩

/- A step turns the nesting in one of these ways. -/
theorem turn_of_step
    {format : StyleFormatter}
    {nest : Nest}
    {token : Token}
    {rest : List Token}
    {outcome : Outcome}
    (h : step format nest rest token = .ok outcome) :
    Turn nest token outcome.nest := by
  cases token with
  | verbatim source =>
      change stepVerbatim format nest source = _ at h
      unfold stepVerbatim at h
      split at h
      · cases h
      · split at h
        · rcases hItems :
              styleElement format nest source with
            fault | items
          · rw [hItems] at h
            cases h
          · rw [hItems] at h
            cases h
            exact .stay
        · cases h
          exact .stay
  | comment source =>
      cases h
      unfold comment
      simp only
      split
      · rename_i hMarker
        exact .leave hMarker
      · split
        · rename_i hMarker
          exact .enter hMarker
        · exact .stay
  | text source =>
      cases h
      exact .stay
  | tag source =>
      rcases exists_head_of_step h with
        ⟨head, found, hRead, _, hNest⟩
      rw [hNest]
      cases found with
      | some span => exact .stay
      | none => exact turn_element nest hRead

end Markup

end WebTidy

------------------------------------------------------------
-- Closing Elements
------------------------------------------------------------

namespace WebTidy

namespace Markup

/-
  Supplying end tags closes one element for each level that
  it takes away, as long as there are levels.
-/
theorem Nest.closeAbove_snd
    (name : Text)
    (indent : Nat)
    (opened : List Text) :
    (Nest.closeAbove name indent opened).2 =
      { indent :=
          indent -
            (opened.takeWhile (isOmitted name)).length
        opened := opened.dropWhile (isOmitted name) } := by
  induction opened generalizing indent with
  | nil => rfl
  | cons top rest ih =>
      rw [Nest.closeAbove]
      by_cases hTop : top ≠ name ∧ isAutoClosing top = true
      · have hOmitted : isOmitted name top = true := by
          simp [isOmitted, hTop]
        rw [if_pos hTop,
          List.takeWhile_cons_of_pos hOmitted,
          List.dropWhile_cons_of_pos hOmitted,
          List.length_cons, Nat.add_comm, ← Nat.sub_sub]
        exact ih (indent - 1)
      · have hKept : ¬ isOmitted name top = true := by
          simpa [isOmitted] using hTop
        rw [if_neg hTop, List.takeWhile_cons_of_neg hKept,
          List.dropWhile_cons_of_neg hKept]
        rfl

/- The nesting that an end tag finds. -/
def Nest.closed
    (nest : Nest)
    (name : Text) :
    Nest :=
  { indent :=
      nest.indent -
        (nest.opened.length - (nest.remaining name).length)
    opened := nest.remaining name }

/- An end tag leaves that nesting one level further out. -/
theorem endElement_snd
    (nest : Nest)
    (name content : Text) :
    (endElement nest name content).2 =
      (nest.closed name).dedent.pop name := by
  have hClosed :
      (if isOpen nest.opened name then
          Nest.closeAbove name nest.indent nest.opened
        else ([], nest)).2 = nest.closed name := by
    unfold Nest.closed Nest.remaining
    split
    · have hLength :=
        congrArg List.length
          (List.takeWhile_append_dropWhile
            (p := isOmitted name) (l := nest.opened))
      rw [List.length_append] at hLength
      rw [Nest.closeAbove_snd, ← hLength,
        Nat.add_sub_cancel_right]
    · rw [Nat.sub_self]
      rfl
  rw [← hClosed]
  rfl

/- No element is closed twice. -/
theorem Nest.remaining_suffix
    (nest : Nest)
    (name : Text) :
    nest.remaining name <:+ nest.opened := by
  unfold Nest.remaining
  split
  · exact List.dropWhile_suffix _
  · exact List.suffix_refl _

/- Forgetting an element keeps the indentation. -/
theorem Nest.pop_eq
    (nest : Nest)
    (name : Text) :
    nest.pop name =
      { indent := nest.indent
        opened :=
          if nest.opened.head? = some name then
            nest.opened.tail
          else nest.opened } := by
  unfold Nest.pop
  split <;> rfl

/-
  A start tag opens its element in the nesting as it is, or
  in the place of an open sibling.
-/
theorem startElement_snd
    (nest : Nest)
    (name content : Text) :
    (startElement nest name content).2 = nest.push name ∨
      ∃ outer,
        nest.opened = name :: outer ∧
        (startElement nest name content).2 =
          Nest.push ⟨nest.indent - 1, outer⟩ name := by
  unfold startElement
  split
  · rename_i hSibling
    right
    rcases nest with ⟨indent, opened⟩
    rcases List.head?_eq_some_iff.mp hSibling.2 with
      ⟨outer, hOpened⟩
    subst hOpened
    exact ⟨outer, rfl, rfl⟩
  · exact Or.inl rfl

end Markup

end WebTidy

------------------------------------------------------------
-- Steps Keep The Balance
------------------------------------------------------------

namespace WebTidy

namespace Markup

variable
  {nest after : Nest}
  {token : Token}

/- Only names of elements are opened. -/
theorem Turn.isElementName
    (h : Turn nest token after)
    (hNames : ∀ name ∈ nest.opened, IsElementName name) :
    ∀ name ∈ after.opened, IsElementName name := by
  cases h with
  | stay | enter | leave => exact hNames
  | finish =>
      intro name hName
      exact hNames name
        ((opened_endElement_suffix _ _ _).subset hName)
  | @start opening content hOpening =>
      rcases startElement_snd nest opening content with
        hPush | ⟨outer, hOuter, hPush⟩
      · rw [hPush]
        exact List.forall_mem_cons.mpr ⟨hOpening, hNames⟩
      · rw [hOuter] at hNames
        rw [hPush]
        exact hNames

/- The indentation grows with elements and markers only. -/
theorem Turn.indent_le
    {markers : Nat}
    (h : Turn nest token after)
    (hBound : nest.indent ≤ nest.opened.length + markers) :
    after.indent ≤
      after.opened.length +
        (markers + if token.opensMarker then 1 else 0) := by
  cases h with
  | stay => omega
  | enter hMarker =>
      rw [if_pos hMarker]
      change nest.indent + 1 ≤ nest.opened.length + _
      omega
  | leave =>
      change nest.indent - 1 ≤ nest.opened.length + _
      omega
  | @finish name content =>
      have hRest := (nest.remaining_suffix name).length_le
      rw [endElement_snd, Nest.pop_eq]
      change nest.indent - _ - 1 ≤ List.length _ + _
      split
      · rw [List.length_tail]
        change _ ≤ (nest.remaining name).length - 1 + _
        omega
      · change _ ≤ (nest.remaining name).length + _
        omega
  | @start name content =>
      rcases startElement_snd nest name content with
        hPush | ⟨outer, hOuter, hPush⟩
      · rw [hPush]
        change nest.indent + 1 ≤ nest.opened.length + 1 + _
        omega
      · rw [hOuter, List.length_cons] at hBound
        rw [hPush]
        change nest.indent - 1 + 1 ≤ outer.length + 1 + _
        omega

/-
  Where every end tag finds its element and no marker is
  read, one level stands for one element.
-/
theorem Turn.indent_eq
    (h : Turn nest token after)
    (hOpens : token.opensMarker = false)
    (hCloses : token.closesMarker = false)
    (hFinds :
      ∀ name, token.endName? = some name →
        (nest.remaining name).head? = some name)
    (hEqual : nest.indent = nest.opened.length) :
    after.indent = after.opened.length := by
  cases h with
  | stay => exact hEqual
  | enter hMarker =>
      rw [hOpens] at hMarker
      cases hMarker
  | leave hMarker =>
      rw [hCloses] at hMarker
      cases hMarker
  | @finish name content hName =>
      have hRest := (nest.remaining_suffix name).length_le
      have hTop := hFinds name hName
      rw [endElement_snd, Nest.pop_eq]
      change _ =
        List.length
          (if (nest.remaining name).head? = some name then
            (nest.remaining name).tail
          else nest.remaining name)
      rw [if_pos hTop, List.length_tail]
      change nest.indent - _ - 1 = _
      omega
  | @start name content =>
      rcases startElement_snd nest name content with
        hPush | ⟨outer, hOuter, hPush⟩
      · rw [hPush]
        exact congrArg (· + 1) hEqual
      · rw [hOuter, List.length_cons] at hEqual
        rw [hPush]
        change nest.indent - 1 + 1 = outer.length + 1
        omega

end Markup

end WebTidy

------------------------------------------------------------
-- Runs Keep The Balance
------------------------------------------------------------

namespace WebTidy

namespace Markup

/- What some steps have written, the latest step first. -/
def written
    (past : List Stage) :
    List Item :=
  past.reverse.flatMap (·.outcome.items)

/- A block on one line leaves the nesting as it is. -/
theorem nest_of_joins
    {format : StyleFormatter}
    {stage : Stage}
    (hStep :
      step format stage.nest stage.rest stage.token =
        .ok stage.outcome)
    (hJoins : stage.Joins) :
    stage.outcome.nest = stage.nest := by
  rcases hJoins with
    ⟨source, head, span, hTag, hRead, hSpan⟩
  rw [hTag, step_joined format hRead hSpan] at hStep
  rw [← Except.ok.inj hStep]

section

variable
  {format : StyleFormatter}
  {tokens rest : List Token}
  {past : List Stage}
  {nest : Nest}

/- The layout writes what its steps write. -/
theorem Stages.layout_eq
    (h : Stages format tokens past nest rest) :
    layout format {} tokens =
      (layout format nest rest).map (written past ++ ·) := by
  induction h with
  | start =>
      cases layout format {} tokens <;> rfl
  | @next past nest token rest outcome hPast hStep ih =>
      rw [ih, layout, hStep]
      simp only
      cases layout format outcome.nest
          (rest.drop outcome.taken) with
      | error fault => rfl
      | ok items =>
          simp [Except.map, written]

/- Every step of a run is a step of the layout. -/
theorem Stages.step_of_mem
    {stage : Stage}
    (h : Stages format tokens past nest rest)
    (hStage : stage ∈ past) :
    step format stage.nest stage.rest stage.token =
      .ok stage.outcome := by
  induction h with
  | start => cases hStage
  | next hPast hStep ih =>
      rcases List.mem_cons.mp hStage with rfl | hEarlier
      · exact hStep
      · exact ih hEarlier

/- Only names of elements are open. -/
theorem Stages.isElementName
    (h : Stages format tokens past nest rest) :
    ∀ name ∈ nest.opened, IsElementName name := by
  induction h with
  | start => exact List.forall_mem_nil _
  | next hPast hStep ih =>
      exact (turn_of_step hStep).isElementName ih

/- The indentation is bounded by elements and markers. -/
theorem Stages.indent_le
    (h : Stages format tokens past nest rest) :
    nest.indent ≤
      nest.opened.length +
        past.countP (·.token.opensMarker) := by
  induction h with
  | start => exact Nat.le_refl _
  | next hPast hStep ih =>
      rw [List.countP_cons]
      exact (turn_of_step hStep).indent_le ih

/- After regular steps it is the number of elements. -/
theorem Stages.indent_eq
    (h : Stages format tokens past nest rest)
    (hRegular : ∀ stage ∈ past, stage.Regular) :
    nest.indent = nest.opened.length := by
  induction h with
  | start => rfl
  | next hPast hStep ih =>
      rw [List.forall_mem_cons] at hRegular
      exact (turn_of_step hStep).indent_eq hRegular.1.opens
        hRegular.1.closes hRegular.1.finds (ih hRegular.2)

/-
  Indentation and open elements after every step.  The steps
  are those of the layout, which goes on from there.
-/
theorem Stages.balanced
    (h : Stages format tokens past nest rest) :
    layout format {} tokens =
      (layout format nest rest).map (written past ++ ·) ∧
    (∀ name ∈ nest.opened, IsElementName name) ∧
    nest.indent ≤
      nest.opened.length +
        past.countP (·.token.opensMarker) ∧
    ((∀ stage ∈ past, stage.Regular) →
      nest.indent = nest.opened.length) ∧
    ∀ stage ∈ past,
      stage.Joins → stage.outcome.nest = stage.nest :=
  ⟨h.layout_eq, h.isElementName, h.indent_le, h.indent_eq,
    fun _ hStage => nest_of_joins (h.step_of_mem hStage)⟩

end

/- A paragraph in an item without an end tag. -/
def openItem :
    List Token :=
  Token.scan "<div><ul><li><p>a</p></ul>".toList

/-
  All steps there are regular: the end tag of the list
  closes the item first and finds the list then.
-/
theorem balanced_openItem :
    ∃ past,
      Stages .ok openItem past ⟨1, ["div".toList]⟩ [] ∧
      (∃ stage ∈ past, stage.Joins) ∧
      (∀ stage ∈ past, stage.Regular) ∧
      (⟨1, ["div".toList]⟩ : Nest).indent =
        ["div".toList].length := by
  have hScan :
      openItem =
        [.tag "<div>".toList, .tag "<ul>".toList,
          .tag "<li>".toList, .tag "<p>".toList,
          .text "a".toList, .tag "</p>".toList,
          .tag "</ul>".toList] := by
    decide +kernel
  have hDivision :
      step .ok {} (openItem.drop 1) (.tag "<div>".toList) =
        .ok
          { items := [.line 0 "<div>".toList]
            nest := ⟨1, ["div".toList]⟩ } := by
    decide +kernel
  have hList :
      step .ok ⟨1, ["div".toList]⟩ (openItem.drop 2)
          (.tag "<ul>".toList) =
        .ok
          { items := [.line 1 "<ul>".toList]
            nest := ⟨2, ["ul".toList, "div".toList]⟩ } := by
    decide +kernel
  have hItem :
      step .ok ⟨2, ["ul".toList, "div".toList]⟩
          (openItem.drop 3) (.tag "<li>".toList) =
        .ok
          { items := [.line 2 "<li>".toList]
            nest :=
              ⟨3, ["li".toList, "ul".toList,
                "div".toList]⟩ } := by
    decide +kernel
  have hParagraph :
      step .ok
          ⟨3, ["li".toList, "ul".toList, "div".toList]⟩
          (openItem.drop 4) (.tag "<p>".toList) =
        .ok
          { items :=
              [.joined "p".toList 3,
                .line 3 "<p>a</p>".toList]
            nest :=
              ⟨3, ["li".toList, "ul".toList, "div".toList]⟩
            taken := 2 } := by
    decide +kernel
  have hEnd :
      step .ok
          ⟨3, ["li".toList, "ul".toList, "div".toList]⟩
          [] (.tag "</ul>".toList) =
        .ok
          { items :=
              [.supplied "li".toList,
                .line 2 "</li>".toList,
                .line 1 "</ul>".toList]
            nest := ⟨1, ["div".toList]⟩ } := by
    decide +kernel
  rw [hScan] at hDivision hList hItem hParagraph ⊢
  have hStages :=
    ((((Stages.start.next hDivision).next hList).next
      hItem).next hParagraph).next hEnd
  have hRegular :=
    hStages.balanced.2.2.2.1 (by decide +kernel)
  refine ⟨_, hStages, ?_, by decide +kernel, hRegular⟩
  refine ⟨_, List.mem_cons_of_mem _ List.mem_cons_self,
    "<p>".toList, ⟨"p".toList, false, false⟩,
    ⟨[.text "a".toList], .written "</p>".toList⟩,
    rfl, ?_, ?_⟩
  · decide +kernel
  · decide +kernel

end Markup

end WebTidy
