import WebTidy.Proofs.Markup.Inner

/-
  The rows of a layout.

  A row is an indentation with the tokens on one line.  The
  layout prints neat tokens row by row: a token by itself, a
  block with its squeezed content, or the end tag of an open
  element that a following tag closes.

  Key definitions include:
    * `WebTidy.Markup.Row`
    * `WebTidy.Markup.Prints`

  Key theorems include:
    * `WebTidy.Markup.exists_prints`
-/

------------------------------------------------------------
-- Rows
------------------------------------------------------------

namespace WebTidy

namespace Markup

/- The tokens on a line, and its indentation. -/
structure Row where
  depth : Nat
  content : List Token
deriving DecidableEq, Repr

namespace Row

/- What stands between a row and the row above it. -/
def lead
    (row : Row) :
    Text :=
  '\n' :: List.replicate row.depth '\t'

/- A row with the end of its line. -/
def text
    (row : Row) :
    Text :=
  List.replicate row.depth '\t' ++ sources row.content ++
    ['\n']

/- Nothing but blanks stands between two rows. -/
theorem all_lead
    (row : Row) :
    row.lead.all isBlank = true := by
  rw [lead, List.all_cons, List.all_replicate]
  split
  · rfl
  · rfl

end Row

/- Some rows, each behind the end of the line above it. -/
def seam
    (rows : List Row) :
    Text :=
  rows.flatMap fun row => row.lead ++ sources row.content

/- The rows are set off from one another by line ends. -/
theorem seam_append
    (rows : List Row) :
    seam rows ++ ['\n'] = '\n' :: rows.flatMap Row.text := by
  induction rows with
  | nil => rfl
  | cons row rows ih =>
      have hCons :
          seam (row :: rows) =
            row.lead ++ sources row.content ++ seam rows := rfl
      rw [hCons, List.append_assoc, ih, List.flatMap_cons,
        Row.lead, Row.text]
      simp

/-
  The rows that the layout prints for some tokens.  An end
  tag is supplied in front of a tag that ends the innermost
  element without closing it.
-/
inductive Prints :
    Nest → List Token → List Row → Prop
| nil
    {nest : Nest} :
    Prints nest [] []
| blank
    {nest : Nest}
    {s : Text}
    {rest : List Token}
    {rows : List Row}
    (hBlank : s.trim isBlank = [])
    (hRest : Prints nest rest rows) :
    Prints nest (.text s :: rest) rows
| text
    {nest : Nest}
    {s : Text}
    {rest : List Token}
    {rows : List Row}
    (hNeat : Token.IsNeat (.text s))
    (hSome : s.trim isBlank ≠ [])
    (hNext : ∀ t, rest.head? ≠ some (.text t))
    (hRest : Prints nest rest rows) :
    Prints nest (.text s :: rest)
      (⟨nest.indent, [.text (s.trim isBlank)]⟩ :: rows)
| verbatim
    {nest : Nest}
    {s : Text}
    {rest : List Token}
    {rows : List Row}
    (hNeat : Token.IsNeat (.verbatim s))
    (hRest : Prints nest rest rows) :
    Prints nest (.verbatim s :: rest)
      (⟨nest.indent, [.verbatim s]⟩ :: rows)
| comment
    {nest after : Nest}
    {depth : Nat}
    {s : Text}
    {rest : List Token}
    {rows : List Row}
    (hNeat : Token.IsNeat (.comment s))
    (hComment : comment nest s = ([.line depth s], after))
    (hRest : Prints after rest rows) :
    Prints nest (.comment s :: rest)
      (⟨depth, [.comment s]⟩ :: rows)
| supplied
    {indent : Nat}
    {name : Text}
    {opened : List Text}
    {s : Text}
    {head : Tag.Head}
    {rest : List Token}
    {rows : List Row}
    (hName : name ∈ omissible)
    (hRead : Tag.head? (s.trim isBlank) = some head)
    (hEnds : impliesEnd name opened head = true)
    (hRest :
      Prints ⟨indent - 1, opened⟩ (.tag s :: rest) rows) :
    Prints ⟨indent, name :: opened⟩ (.tag s :: rest)
      (⟨indent - 1, [.tag (endTag name)]⟩ :: rows)
| alone
    {nest after : Nest}
    {depth : Nat}
    {s : Text}
    {head : Tag.Head}
    {rest : List Token}
    {rows : List Row}
    (hNeat : IsNeatTag s)
    (hRead : Tag.head? s = some head)
    (hSpan : span? nest head rest = .ok none)
    (hElement :
      element nest s head = ([.line depth s], after))
    (hRest : Prints after rest rows) :
    Prints nest (.tag s :: rest) (⟨depth, [.tag s]⟩ :: rows)
| joined
    {nest : Nest}
    {s : Text}
    {head : Tag.Head}
    {between inner : List Token}
    {ending : Ending}
    {tail : List Token}
    {rows : List Row}
    (hNeat : IsNeatTag s)
    (hRead : Tag.head? s = some head)
    (hStart : head.isEnd = false)
    (hBlock : isCollapsible head.name = true)
    (hPasses : Passes head.name nest.opened 0 between)
    (hInner : Squeezed between inner)
    (hTrim :
      (sources inner).trim isBlank = sources inner)
    (hEnding : ending.Fits head.name)
    (hTokens :
      ∀ token ∈ ending.tokens, token.IsNeat)
    (hSome : ending.tokens ++ tail ≠ [])
    (hRest : Prints nest tail rows) :
    Prints nest
      (.tag s :: (between ++ (ending.tokens ++ tail)))
      (⟨nest.indent,
        .tag s ::
          (inner ++ [.tag (ending.text head.name)])⟩ :: rows)

end Markup

end WebTidy

------------------------------------------------------------
-- Sound Nestings
------------------------------------------------------------

namespace WebTidy

namespace Markup

/-
  The names of open elements are lowercase, and no element
  is open directly inside one that it would have closed.
-/
structure IsSound
    (opened : List Text) :
    Prop where
  lower : ∀ name ∈ opened, name.lower = name
  apart :
    opened.IsChain fun inner outer =>
      inner = outer → isAutoClosing inner = false

/- Nothing is open at the start. -/
theorem isSound_nil :
    IsSound [] := by
  exact ⟨by simp, .nil⟩

/- Closing elements keeps the others sound. -/
theorem IsSound.suffix
    {opened outer : List Text}
    (h : IsSound opened)
    (hSuffix : outer <:+ opened) :
    IsSound outer := by
  refine ⟨?_, h.apart.suffix hSuffix⟩
  intro name hName
  exact h.lower name (hSuffix.subset hName)

/- Opening an element that fits keeps them sound. -/
theorem IsSound.cons
    {opened : List Text}
    {head : Tag.Head}
    (h : IsSound opened)
    (hFits : Fits opened.head? head) :
    IsSound (head.name.lower :: opened) := by
  constructor
  · intro name hName
    rcases List.mem_cons.mp hName with rfl | hName
    · exact lower_lower head.name
    · exact h.lower name hName
  · apply List.IsChain.cons h.apart
    rintro outer hOuter rfl
    rw [Bool.eq_false_iff]
    intro hAuto
    rw [isAutoClosing, isAmong_lower] at hAuto
    exact hFits hAuto hOuter

end Markup

end WebTidy

------------------------------------------------------------
-- Supplied End Tags
------------------------------------------------------------

namespace WebTidy

namespace Markup

/- Some items are the rows in front of other rows. -/
def PrintsFirst
    (nest : Nest)
    (tokens : List Token)
    (items : List Item)
    (after : Nest)
    (rest : List Token) :
    Prop :=
  ∀ rows, Prints after rest rows →
    ∃ front,
      Prints nest tokens (front ++ rows) ∧
      items.flatMap Item.text = front.flatMap Row.text

/- No items are no rows. -/
theorem printsFirst_nil
    (nest : Nest)
    (tokens : List Token) :
    PrintsFirst nest tokens [] nest tokens := by
  intro rows hRows
  exact ⟨[], hRows, rfl⟩

/- Rows follow rows. -/
theorem PrintsFirst.append
    {nest between after : Nest}
    {tokens more rest : List Token}
    {items others : List Item}
    (hFirst : PrintsFirst nest tokens items between more)
    (hSecond : PrintsFirst between more others after rest) :
    PrintsFirst nest tokens (items ++ others) after rest := by
  intro rows hRows
  rcases hSecond rows hRows with ⟨back, hBack, hOthers⟩
  rcases hFirst (back ++ rows) hBack with
    ⟨front, hFront, hItems⟩
  refine ⟨front ++ back, ?_, ?_⟩
  · rw [List.append_assoc]
    exact hFront
  · rw [List.flatMap_append, hItems, hOthers,
      List.flatMap_append]

/- A line is a row. -/
theorem printsFirst_line
    {nest after : Nest}
    {tokens rest : List Token}
    {depth : Nat}
    {content : List Token}
    (h :
      ∀ rows, Prints after rest rows →
        Prints nest tokens (⟨depth, content⟩ :: rows)) :
    PrintsFirst nest tokens [.line depth (sources content)]
      after rest := by
  intro rows hRows
  exact ⟨[⟨depth, content⟩], h rows hRows, rfl⟩

variable
  {s : Text}
  {head : Tag.Head}

/- The end tag of the innermost element is a row. -/
theorem printsFirst_closeTop
    {name : Text}
    {opened : List Text}
    (indent : Nat)
    (rest : List Token)
    (hAuto : isAutoClosing name = true)
    (hLower : name.lower = name)
    (hRead : Tag.head? (s.trim isBlank) = some head)
    (hEnds : impliesEnd name opened head = true) :
    PrintsFirst ⟨indent, name :: opened⟩ (.tag s :: rest)
      (Nest.closeTop ⟨indent, name :: opened⟩).1
      ⟨indent - 1, opened⟩ (.tag s :: rest) := by
  intro rows hRows
  refine ⟨[⟨indent - 1, [.tag (endTag name)]⟩],
    .supplied (mem_omissible hAuto hLower) hRead hEnds hRows,
    ?_⟩
  simp only [Nest.closeTop, Nest.line, Nest.dedent,
    List.flatMap_cons, List.flatMap_nil, Item.text, Row.text,
    sources_singleton, Token.source, List.nil_append]

/- The end tags above an open element are rows. -/
theorem printsFirst_closeAbove
    {opened : List Text}
    (indent : Nat)
    (rest : List Token)
    (hSound : IsSound opened)
    (hRead : Tag.head? (s.trim isBlank) = some head)
    (hEnd : head.isEnd = true)
    (hOpen : head.name.lower ∈ opened) :
    ∃ items after,
      Nest.closeAbove head.name.lower indent opened =
        (items, after) ∧
      Nest.closeAbove head.name.lower after.indent
          after.opened =
        ([], after) ∧
      head.name.lower ∈ after.opened ∧
      after.opened <:+ opened ∧
      PrintsFirst ⟨indent, opened⟩ (.tag s :: rest) items after
        (.tag s :: rest) := by
  induction opened generalizing indent with
  | nil => cases hOpen
  | cons top outer ih =>
      rw [Nest.closeAbove]
      by_cases hClose :
          top ≠ head.name.lower ∧ isAutoClosing top = true
      · have hOuter : head.name.lower ∈ outer := by
          rcases List.mem_cons.mp hOpen with hTop | hOuter
          · exact absurd hTop.symm hClose.1
          · exact hOuter
        have hEnds : impliesEnd top outer head = true := by
          rw [impliesEnd, if_pos hEnd, isOpen]
          exact decide_eq_true hOuter
        rcases ih (indent - 1)
            (hSound.suffix (List.suffix_cons top outer))
            hOuter with
          ⟨items, after, hAbove, hAgain, hStill, hSuffix,
            hPrints⟩
        have hFirst :=
          printsFirst_closeTop indent rest hClose.2
            (hSound.lower top (by simp)) hRead hEnds
        refine ⟨_, after, ?_, hAgain, hStill,
          hSuffix.trans (List.suffix_cons top outer),
          hFirst.append hPrints⟩
        rw [if_pos hClose, hAbove]
      · refine ⟨[], ⟨indent, top :: outer⟩, ?_, ?_, hOpen,
          List.suffix_refl _, printsFirst_nil _ _⟩
        · rw [if_neg hClose]
        · rw [Nest.closeAbove, if_neg hClose]

end Markup

end WebTidy

------------------------------------------------------------
-- Tags On Their Own
------------------------------------------------------------

namespace WebTidy

namespace Markup

variable
  {nest : Nest}
  {s : Text}
  {head : Tag.Head}
  {rest : List Token}

/- An end tag by its name. -/
theorem element_eq_endElement
    (hRead : Tag.head? s = some head)
    (hName : head.name ≠ [])
    (hEnd : head.isEnd = true) :
    element nest s head =
      endElement nest head.name.lower (Tag.normalize s) := by
  have hPlain :=
    Tag.isDeclaration_eq_false hRead (Or.inl hName)
  have hLower : head.name.lower ≠ [] := by
    simpa [Text.lower] using hName
  unfold element
  simp only [hPlain.1, hPlain.2, hLower, hEnd]
  rw [if_neg (by simp), if_neg (by simp), if_pos trivial]

/- A start tag by its name. -/
theorem element_eq_startElement
    (hRead : Tag.head? s = some head)
    (hName : head.name ≠ [])
    (hStart : head.isEnd = false)
    (hSelf : head.selfClosing = false)
    (hVoid : isVoid head.name = false) :
    element nest s head =
      startElement nest head.name.lower (Tag.normalize s) := by
  have hPlain :=
    Tag.isDeclaration_eq_false hRead (Or.inl hName)
  have hLower : head.name.lower ≠ [] := by
    simpa [Text.lower] using hName
  have hOther : isVoid head.name.lower = false := by
    rw [← hVoid]
    exact isAmong_lower _ _
  unfold element
  simp only [hPlain.1, hPlain.2, hLower, hStart, hSelf, hOther]
  rw [if_neg (by simp), if_neg (by simp), if_neg (by simp),
    if_neg (by simp)]

/- A tag on a line of its own is a row. -/
theorem printsFirst_alone
    {after : Nest}
    {depth : Nat}
    (hNeat : IsNeatTag s)
    (hRead : Tag.head? s = some head)
    (hSpan : span? nest head rest = .ok none)
    (hElement :
      element nest s head = ([.line depth s], after)) :
    PrintsFirst nest (.tag s :: rest) [.line depth s] after
      rest := by
  have hLine :=
    printsFirst_line fun rows hRows =>
      Prints.alone hNeat hRead hSpan hElement hRows
  rwa [sources_singleton, Token.source] at hLine

/- An end tag is a row behind those it supplies. -/
theorem printsFirst_end
    (hNeat : IsNeatTag s)
    (hRead : Tag.head? s = some head)
    (hName : head.name ≠ [])
    (hEnd : head.isEnd = true)
    (hSound : IsSound nest.opened) :
    ∃ items after,
      element nest s head = (items, after) ∧
      IsSound after.opened ∧
      PrintsFirst nest (.tag s :: rest) items after rest := by
  have hSpan (other : Nest) :
      span? other head rest = .ok none :=
    span?_eq_none other rest (Or.inl hEnd)
  have hPop (other : Nest)
      (hOther : IsSound other.opened) :
      IsSound (other.dedent.pop head.name.lower).opened := by
    unfold Nest.pop
    split
    · exact hOther.suffix (List.tail_suffix _)
    · exact hOther
  by_cases hOpen : head.name.lower ∈ nest.opened
  · have hTrim : Tag.head? (s.trim isBlank) = some head := by
      rw [hNeat.trim, hRead]
    rcases printsFirst_closeAbove nest.indent rest hSound hTrim
        hEnd hOpen with
      ⟨items, closed, hClosed, hAgain, hStill, hSuffix,
        hFirst⟩
    have hElement (other : Nest)
        (items : List Item)
        (hOther : head.name.lower ∈ other.opened)
        (hAbove :
          Nest.closeAbove head.name.lower other.indent
              other.opened =
            (items, closed)) :
        element other s head =
          (items ++
            [(closed.dedent.pop head.name.lower).line s],
            closed.dedent.pop head.name.lower) := by
      rw [element_eq_endElement hRead hName hEnd, endElement,
        isOpen, if_pos (decide_eq_true hOther), hAbove,
        hNeat.normal]
    refine ⟨_, _, hElement nest items hOpen hClosed,
      hPop closed (hSound.suffix hSuffix), ?_⟩
    apply hFirst.append
    exact printsFirst_alone hNeat hRead (hSpan closed)
      (hElement closed [] hStill hAgain)
  · have hElement :
        element nest s head =
          ([(nest.dedent.pop head.name.lower).line s],
            nest.dedent.pop head.name.lower) := by
      rw [element_eq_endElement hRead hName hEnd, endElement,
        isOpen, if_neg (by simp [hOpen]), hNeat.normal]
      rfl
    exact ⟨_, _, hElement, hPop nest hSound,
      printsFirst_alone hNeat hRead (hSpan nest) hElement⟩

/- A start tag is a row behind the one that it closes. -/
theorem printsFirst_start
    (hNeat : IsNeatTag s)
    (hRead : Tag.head? s = some head)
    (hName : head.name ≠ [])
    (hStart : head.isEnd = false)
    (hSelf : head.selfClosing = false)
    (hVoid : isVoid head.name = false)
    (hSound : IsSound nest.opened)
    (hSpan : span? nest head rest = .ok none) :
    ∃ items after,
      element nest s head = (items, after) ∧
      IsSound after.opened ∧
      PrintsFirst nest (.tag s :: rest) items after rest := by
  have hElement (other : Nest)
      (hFits : Fits other.opened.head? head) :
      element other s head =
        ([other.line s], other.push head.name.lower) := by
    rw [element_start hRead hName hStart hSelf hVoid hFits,
      hNeat.normal]
  by_cases hFits : Fits nest.opened.head? head
  · exact ⟨_, _, hElement nest hFits, hSound.cons hFits,
      printsFirst_alone hNeat hRead hSpan
        (hElement nest hFits)⟩
  · -- The innermost element has the name of the tag.
    have hTop :
        isAutoClosing head.name = true ∧
          nest.opened.head? = some head.name.lower := by
      unfold Fits at hFits
      push Not at hFits
      exact hFits
    rcases nest with ⟨indent, opened⟩
    rcases List.head?_eq_some_iff.mp hTop.2 with ⟨outer, rfl⟩
    have hLower : isAutoClosing head.name.lower = true := by
      rw [isAutoClosing, isAmong_lower]
      exact hTop.1
    have hOuter : Fits outer.head? head := by
      intro _ hNext
      rcases List.head?_eq_some_iff.mp hNext with ⟨more, rfl⟩
      have hPair := (List.isChain_cons_cons.mp hSound.apart).1
      rw [hPair rfl] at hLower
      cases hLower
    have hEnds :
        impliesEnd head.name.lower outer head = true := by
      rw [impliesEnd, hStart, if_neg Bool.false_ne_true,
        Text.sameLetters, lower_lower]
      exact decide_eq_true rfl
    have hFewer : span? ⟨indent - 1, outer⟩ head rest =
        .ok none := by
      unfold span? at hSpan ⊢
      split at hSpan
      · rename_i hBlock
        rw [if_pos hBlock]
        exact findSpan_eq_none_mono
          (List.subset_cons_self _ _) hSpan
      · rename_i hBlock
        rw [if_neg hBlock]
    have hWhole :
        element ⟨indent, head.name.lower :: outer⟩ s head =
          ((Nest.closeTop
              ⟨indent, head.name.lower :: outer⟩).1 ++
            [Nest.line ⟨indent - 1, outer⟩ s],
            Nest.push ⟨indent - 1, outer⟩ head.name.lower) := by
      rw [element_eq_startElement hRead hName hStart hSelf
        hVoid, startElement, if_pos ⟨hLower, hTop.2⟩,
        hNeat.normal]
      rfl
    have hFirst :=
      printsFirst_closeTop indent rest hLower
        (lower_lower head.name) (hNeat.trim ▸ hRead) hEnds
    refine ⟨_, _, hWhole,
      (hSound.suffix (List.suffix_cons _ _)).cons hOuter, ?_⟩
    apply hFirst.append
    exact printsFirst_alone hNeat hRead hFewer
      (hElement ⟨indent - 1, outer⟩ hOuter)

/- A tag that is not part of a block on one line. -/
theorem printsFirst_element
    (hNeat : IsNeatTag s)
    (hRead : Tag.head? s = some head)
    (hSound : IsSound nest.opened)
    (hSpan : span? nest head rest = .ok none) :
    ∃ items after,
      element nest s head = (items, after) ∧
      IsSound after.opened ∧
      PrintsFirst nest (.tag s :: rest) items after rest := by
  -- A line that leaves the nesting as it is.
  have hKeep {depth : Nat}
      (hElement :
        element nest s head =
          ([.line depth (Tag.normalize s)], nest)) :
      ∃ items after,
        element nest s head = (items, after) ∧
        IsSound after.opened ∧
        PrintsFirst nest (.tag s :: rest) items after rest := by
    rw [hNeat.normal] at hElement
    exact ⟨_, _, hElement, hSound,
      printsFirst_alone hNeat hRead hSpan hElement⟩
  by_cases hDoctype : Tag.isDoctype s = true
  · apply hKeep
    unfold element
    rw [if_pos hDoctype]
  by_cases hPlain :
      Tag.isDeclaration s = true ∨ head.name.lower = []
  · apply hKeep
    unfold element
    simp only
    rw [if_neg hDoctype, if_pos hPlain]
    rfl
  have hName : head.name ≠ [] := by
    intro hNil
    apply hPlain
    rw [hNil]
    exact Or.inr rfl
  cases hEnd : head.isEnd with
  | true =>
      exact printsFirst_end hNeat hRead hName hEnd hSound
  | false =>
      by_cases hEmpty :
          head.selfClosing = true ∨ isVoid head.name = true
      · exact hKeep (element_empty hRead hName hEnd hEmpty)
      · rw [not_or, Bool.not_eq_true, Bool.not_eq_true]
          at hEmpty
        exact printsFirst_start hNeat hRead hName hEnd hEmpty.1
          hEmpty.2 hSound hSpan

end Markup

end WebTidy

------------------------------------------------------------
-- Rows Of A Document
------------------------------------------------------------

namespace WebTidy

namespace Markup

/- A neat token has its shape. -/
theorem Token.IsNeat.isShaped
    {token : Token}
    (h : token.IsNeat) :
    token.IsShaped := by
  cases token with
  | tag s => exact h.opens
  | text s => exact trivial
  | verbatim s => exact h.1
  | comment s => exact h

variable
  {nest : Nest}
  {s : Text}
  {rest : List Token}

/- A neat text is neat without the blanks around it. -/
theorem decode_trim
    (h : CharRef.decode .text s = s) :
    CharRef.decode .text (s.trim isBlank) = s.trim isBlank := by
  rcases Text.exists_trim_append isBlank s with
    ⟨lead, tail, hLead, hTail, hText⟩
  apply CharRef.decode_of_blanks_append hLead hTail
  rw [← hText, h]

/- A text is a row, unless it is blank. -/
theorem printsFirst_text
    (hNeat : Token.IsNeat (.text s))
    (hNext : ∀ t, rest.head? ≠ some (.text t)) :
    PrintsFirst nest (.text s :: rest)
      (if s.trim isBlank = [] then []
      else
        [nest.line (CharRef.decode .text (s.trim isBlank))])
      nest rest := by
  split
  · rename_i hBlank
    intro rows hRows
    exact ⟨[], .blank hBlank hRows, rfl⟩
  · rename_i hSome
    have hLine :
        PrintsFirst nest (.text s :: rest)
          [.line nest.indent
            (sources [.text (s.trim isBlank)])]
          nest rest :=
      printsFirst_line fun rows hRows =>
        .text hNeat hSome hNext hRows
    rw [sources_singleton, Token.source] at hLine
    rw [decode_trim hNeat.2]
    exact hLine

/- A block on one line is a row. -/
theorem printsFirst_joined
    {head : Tag.Head}
    {span : Span}
    (hNeat : ∀ token ∈ .tag s :: rest, token.IsNeat)
    (hApart : rest.IsChain Token.IsApart)
    (hRead : Tag.head? s = some head)
    (hSpan : span? nest head rest = .ok (some span)) :
    PrintsFirst nest (.tag s :: rest)
      [.joined head.name span.size,
        nest.line (span.line s head.name)]
      nest (rest.drop span.taken) := by
  unfold span? at hSpan
  split at hSpan
  · rename_i hBlock
    rcases findSpan_eq_some hSpan with
      ⟨hPasses, hFits, tail, rfl, hSome, hDrop⟩
    have hTag : IsNeatTag s := hNeat _ List.mem_cons_self
    have hBetween :
        ∀ token ∈ span.between, token.IsNeat := by
      intro token hToken
      exact hNeat token (by simp [hToken])
    have hTokens :
        ∀ token ∈ span.ending.tokens, token.IsNeat := by
      intro token hToken
      exact hNeat token (by simp [hToken])
    have hChain : span.between.IsChain Token.IsApart :=
      List.IsChain.prefix hApart (List.prefix_append _ _)
    rcases hPasses.exists_squeezed hBetween hChain with
      ⟨inner, hInner, hText⟩
    have hTrim : (sources inner).trim isBlank = sources inner := by
      rw [hText, Text.trim_trim]
    have hLine :
        sources
            (.tag s ::
              (inner ++ [.tag (span.ending.text head.name)])) =
          span.line s head.name := by
      rw [Span.line, hTag.tagText_eq, ← hText, sources_cons,
        sources_append, sources_singleton, ← List.append_assoc]
      rfl
    intro rows hRows
    rw [hDrop] at hRows
    refine ⟨[_], .joined hTag hRead (by simpa using hBlock.1)
      hBlock.2 hPasses hInner hTrim hFits hTokens hSome hRows,
      ?_⟩
    rw [List.flatMap_singleton, Row.text, hLine]
    exact List.append_nil _
  · cases hSpan

/- A step prints the rows of the tokens that it takes. -/
theorem exists_step_printsFirst
    {token : Token}
    (format : StyleFormatter)
    (hNeat : ∀ other ∈ token :: rest, other.IsNeat)
    (hApart : (token :: rest).IsChain Token.IsApart)
    (hSound : IsSound nest.opened) :
    ∃ outcome,
      step format nest rest token = .ok outcome ∧
      IsSound outcome.nest.opened ∧
      PrintsFirst nest (token :: rest) outcome.items
        outcome.nest (rest.drop outcome.taken) := by
  have hToken := hNeat token List.mem_cons_self
  cases token with
  | text s =>
      have hNext : ∀ t, rest.head? ≠ some (.text t) := by
        intro t ht
        rcases List.head?_eq_some_iff.mp ht with ⟨_, rfl⟩
        exact (List.isChain_cons_cons.mp hApart).1 s t rfl rfl
      exact ⟨_, rfl, hSound, printsFirst_text hToken hNext⟩
  | verbatim s =>
      rcases List.head?_eq_some_iff.mp hToken.1.1 with
        ⟨body, rfl⟩
      have hLine :
          PrintsFirst nest (.verbatim ('<' :: body) :: rest)
            [.line nest.indent
              (sources [.verbatim ('<' :: body)])]
            nest rest :=
        printsFirst_line fun rows hRows =>
          .verbatim hToken hRows
      rw [sources_singleton, Token.source] at hLine
      exact ⟨_, step_verbatim format nest rest rfl hToken.2,
        hSound, hLine⟩
  | comment s =>
      have hWritten : ∃ depth after,
          comment nest s = ([.line depth s], after) ∧
          after.opened = nest.opened := by
        unfold comment
        rw [hToken.trim_eq]
        simp only
        split
        · exact ⟨_, _, rfl, rfl⟩
        · split
          · exact ⟨_, _, rfl, rfl⟩
          · exact ⟨_, _, rfl, rfl⟩
      rcases hWritten with ⟨depth, after, hComment, hOpened⟩
      have hLine :
          PrintsFirst nest (.comment s :: rest)
            [.line depth (sources [.comment s])] after rest :=
        printsFirst_line fun rows hRows =>
          .comment hToken hComment hRows
      rw [sources_singleton, Token.source] at hLine
      refine ⟨⟨[.line depth s], after, 0⟩, ?_, ?_, hLine⟩
      · rw [step, hComment]
      · rw [hOpened]
        exact hSound
  | tag s =>
      have hTag : IsNeatTag s := hToken
      rcases hTag.exists_head with ⟨head, hRead⟩
      have hTrim : Tag.head? (s.trim isBlank) = some head := by
        rw [hTag.trim, hRead]
      have hFound :
          ∃ found, span? nest head rest = .ok found := by
        unfold span?
        split
        · rcases exists_findSpan head.name nest.opened
              (fun other hOther =>
                (hNeat other (List.mem_cons_of_mem _ hOther)
                  ).isShaped) 0 with
            ⟨found, hFound, _⟩
          exact ⟨found, hFound⟩
        · exact ⟨none, rfl⟩
      rcases hFound with ⟨found, hSpan⟩
      cases found with
      | none =>
          rcases printsFirst_element hTag hRead hSound hSpan
            with ⟨items, after, hElement, hAfter, hPrints⟩
          rw [← hTag.trim] at hElement
          exact ⟨_, step_tag format hTrim hSpan hElement,
            hAfter, hPrints⟩
      | some span =>
          exact ⟨_, step_joined format hTrim hSpan, hSound,
            printsFirst_joined hNeat hApart.tail hRead hSpan⟩

/- A walk over neat tokens prints rows. -/
theorem exists_prints
    (format : StyleFormatter)
    (nest : Nest)
    (tokens : List Token)
    (hNeat : ∀ token ∈ tokens, token.IsNeat)
    (hApart : tokens.IsChain Token.IsApart)
    (hSound : IsSound nest.opened) :
    ∃ items last rows,
      walk format nest tokens = .ok (items, last) ∧
      Prints nest tokens rows ∧
      items.flatMap Item.text = rows.flatMap Row.text := by
  -- A step may take several tokens at once.
  induction hLength : tokens.length
    using Nat.strong_induction_on
    generalizing nest tokens with
  | _ length ih =>
      cases tokens with
      | nil =>
          refine ⟨[], nest, [], ?_, .nil, rfl⟩
          rw [walk]
      | cons token rest =>
          rcases exists_step_printsFirst format hNeat hApart
              hSound with
            ⟨outcome, hStep, hAfter, hFirst⟩
          have hLess :
              (rest.drop outcome.taken).length < length := by
            rw [← hLength, List.length_drop,
              List.length_cons]
            omega
          have hSuffix :
              rest.drop outcome.taken <:+ token :: rest :=
            (List.drop_suffix _ _).trans
              (List.suffix_cons _ _)
          rcases ih _ hLess outcome.nest
              (rest.drop outcome.taken)
              (fun other hOther =>
                hNeat other (hSuffix.subset hOther))
              (hApart.suffix hSuffix) hAfter rfl with
            ⟨items, last, rows, hWalk, hRows, hText⟩
          rcases hFirst rows hRows with
            ⟨front, hFront, hItems⟩
          refine ⟨outcome.items ++ items, last, front ++ rows,
            ?_, hFront, ?_⟩
          · rw [walk_cons hStep, hWalk]
            rfl
          · rw [List.flatMap_append, hItems, hText,
              List.flatMap_append]

end Markup

end WebTidy
