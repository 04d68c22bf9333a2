import WebTidy.Proofs.Markup.Seam

/-
  Laying out the rows of a layout.

  A walk over the tokens of some rows prints the same rows.
  A supplied end tag closes the element that it was supplied
  for, so the nestings agree before every row.  A block that
  is set on one line ends at the tag on that line.  A search
  for the end of any other block fails again: it comes to
  nothing new but a supplied end tag, and if that could end
  the block, the tag behind it would have done so before.

  Key theorems include:
    * `WebTidy.Markup.Prints.findSpan_follow`
    * `WebTidy.Markup.Prints.replays`
-/

------------------------------------------------------------
-- Supplied End Tags
------------------------------------------------------------

namespace WebTidy

namespace Markup

/- The names of elements with omitted end tags. -/
theorem isAutoClosing_of_mem_omissible
    {name : Text}
    (h : name ∈ omissible) :
    isAutoClosing name = true := by
  have hAll : omissible.all isAutoClosing = true := by
    rfl
  exact List.all_eq_true.mp hAll name h

/- A supplied end tag is read as it was meant. -/
theorem head?_endTag
    {name : Text}
    (h : name ∈ omissible) :
    Tag.head? ((endTag name).trim isBlank) =
      some ⟨name, true, false⟩ := by
  have hAll :
      omissible.all (fun name =>
        Tag.head? ((endTag name).trim isBlank) =
          some ⟨name, true, false⟩) = true := by
    rfl
  have hName := List.all_eq_true.mp hAll name h
  exact of_decide_eq_true hName

/- A supplied end tag is in normal form. -/
theorem tagText_endTag
    {name : Text}
    (h : name ∈ omissible) :
    tagText (endTag name) = endTag name := by
  have hAll :
      omissible.all (fun name =>
        tagText (endTag name) = endTag name) = true := by
    decide +kernel
  have hName := List.all_eq_true.mp hAll name h
  exact of_decide_eq_true hName

/- It closes the innermost element. -/
theorem element_endTag
    {name : Text}
    (indent : Nat)
    (opened : List Text)
    (h : name ∈ omissible) :
    element ⟨indent, name :: opened⟩
        ((endTag name).trim isBlank) ⟨name, true, false⟩ =
      ([.line (indent - 1) (endTag name)],
        ⟨indent - 1, opened⟩) := by
  have hName : name ≠ [] := by
    rintro rfl
    revert h
    decide
  have hLower : name.lower = name := by
    have hAll :
        omissible.all (fun name => name.lower = name) =
          true := by
      rfl
    have hSame := List.all_eq_true.mp hAll name h
    exact of_decide_eq_true hSame
  have hTop :
      Nest.closeAbove name indent (name :: opened) =
        ([], ⟨indent, name :: opened⟩) := by
    rw [Nest.closeAbove, if_neg (by simp)]
  have hText := tagText_endTag h
  unfold tagText at hText
  rw [element_eq_endElement (head?_endTag h) hName rfl, hText,
    endElement]
  simp only [hLower]
  rw [isOpen, if_pos (by simp), hTop]
  simp [Nest.dedent, Nest.pop, Nest.line]

end Markup

end WebTidy

------------------------------------------------------------
-- Nestings Behind A Line
------------------------------------------------------------

namespace WebTidy

namespace Markup

variable
  {nest after : Nest}
  {name content : Text}
  {item : Item}

/- A start tag on one line opens its element. -/
theorem opened_of_startElement
    (h : startElement nest name content = ([item], after)) :
    after.opened = name :: nest.opened := by
  unfold startElement at h
  split at h
  · rename_i hSibling
    rcases List.head?_eq_some_iff.mp hSibling.2 with
      ⟨outer, hOpened⟩
    simp [Nest.closeTop, hOpened] at h
  · cases h
    rfl

/- No end tag is supplied if there is nothing above. -/
theorem closeAbove_of_nil
    {indent : Nat}
    {opened : List Text}
    (h : (Nest.closeAbove name indent opened).1 = []) :
    (Nest.closeAbove name indent opened).2 =
      ⟨indent, opened⟩ := by
  cases opened with
  | nil => rfl
  | cons top outer =>
      rw [Nest.closeAbove] at h ⊢
      split at h
      · simp [Nest.closeTop] at h
      · rename_i hClose
        rw [if_neg hClose]

/- An end tag on one line closes at most its own element. -/
theorem opened_of_endElement
    (h : endElement nest name content = ([item], after)) :
    after.opened = nest.opened ∨
      nest.opened.head? = some name ∧
        after.opened = nest.opened.tail := by
  have hPop (other : Nest)
      (hOther : other.opened = nest.opened) :
      (other.dedent.pop name).opened = nest.opened ∨
        nest.opened.head? = some name ∧
          (other.dedent.pop name).opened =
            nest.opened.tail := by
    unfold Nest.pop
    split
    · rename_i hTop
      rw [← hOther]
      exact Or.inr ⟨hTop, rfl⟩
    · exact Or.inl hOther
  unfold endElement at h
  split at h
  · rcases Prod.mk.inj h with ⟨hItems, rfl⟩
    apply hPop
    rw [closeAbove_of_nil]
    have hLength := congrArg List.length hItems
    simpa using hLength
  · cases h
    exact hPop nest rfl

/-
  A tag on one line opens its element, closes it, or leaves
  the open elements as they are.
-/
theorem opened_of_element
    {s : Text}
    {head : Tag.Head}
    (h : element nest s head = ([item], after)) :
    after.opened = nest.opened ∨
      after.opened = head.name.lower :: nest.opened ∨
      nest.opened.head? = some head.name.lower ∧
        after.opened = nest.opened.tail := by
  unfold element at h
  simp only at h
  split at h
  · cases h
    exact Or.inl rfl
  · split at h
    · cases h
      exact Or.inl rfl
    · split at h
      · rcases opened_of_endElement h with hSame | hPop
        · exact Or.inl hSame
        · exact Or.inr (Or.inr hPop)
      · split at h
        · cases h
          exact Or.inl rfl
        · exact Or.inr (Or.inl (opened_of_startElement h))

end Markup

end WebTidy

------------------------------------------------------------
-- Searches That Fail Again
------------------------------------------------------------

namespace WebTidy

namespace Markup

variable
  {name : Text}
  {opened : List Text}
  {balance : Int}

/- A text does not matter to a search. -/
theorem findSpan_attach_eq_none_iff
    (s : Text)
    (tokens : List Token) :
    findSpan name opened balance
        (Token.attach (.text s) tokens) = .ok none ↔
      findSpan name opened balance tokens = .ok none := by
  have hOther :
      findSpan name opened balance
          (if s = [] then tokens else .text s :: tokens) =
          .ok none ↔
        findSpan name opened balance tokens = .ok none := by
    split
    · exact Iff.rfl
    · exact findSpan_text_eq_none_iff s tokens
  cases tokens with
  | nil => exact hOther
  | cons token rest =>
      cases token with
      | text t =>
          rw [Token.attach, findSpan_text_eq_none_iff,
            findSpan_text_eq_none_iff]
      | tag t => exact hOther
      | verbatim t => exact hOther
      | comment t => exact hOther

/- Blocks that are set on one line are not inline. -/
theorem isInline_eq_false_of_isCollapsible
    (h : isCollapsible name = true) :
    isInline name = false := by
  unfold isCollapsible at h
  exact isAmong_eq_false rfl h

/- Elements with omitted end tags are not inline. -/
theorem isInline_eq_false_of_isAutoClosing
    (h : isAutoClosing name = true) :
    isInline name = false := by
  unfold isAutoClosing at h
  exact isAmong_eq_false rfl h

/-
  A search from inside a block fails again in its rows.  It
  starts behind the start tag of the block, where the block
  is open and nothing but inline elements is open in it.
-/
theorem Prints.findSpan_follow
    {nest : Nest}
    {tokens : List Token}
    {rows : List Row}
    {inside : List Text}
    (h : Prints nest tokens rows)
    (hBlock : isCollapsible name = true)
    (hInside : ∀ other ∈ inside, isInline other = true)
    (hOpened : nest.opened = inside ++ name.lower :: opened)
    (hNone : findSpan name opened balance tokens = .ok none) :
    findSpan name opened balance (follow rows) = .ok none := by
  induction h generalizing inside balance with
  | nil => rfl
  | blank hBlank hRest ih =>
      rw [findSpan_text_eq_none_iff] at hNone
      exact ih hInside hOpened hNone
  | text hNeat hSome hNext hRest ih =>
      rw [findSpan_text_eq_none_iff] at hNone
      rw [follow, findSpan_attach_eq_none_iff, List.foldr_cons,
        findSpan_attach_eq_none_iff]
      exact ih hInside hOpened hNone
  | verbatim hNeat hRest ih =>
      rw [follow, findSpan_attach_eq_none_iff]
      rfl
  | comment hNeat hComment hRest ih =>
      rw [follow, findSpan_attach_eq_none_iff]
      rfl
  | @supplied indent top outer s head rest rows hName hRead
      hEnds hRest ih =>
      have hAuto := isAutoClosing_of_mem_omissible hName
      cases inside with
      | cons other inside =>
          -- No end tag is supplied for an inline element.
          rcases List.cons.inj hOpened with ⟨rfl, _⟩
          have hInline := hInside top List.mem_cons_self
          rw [isInline_eq_false_of_isAutoClosing hAuto]
            at hInline
          cases hInline
      | nil =>
          rcases List.cons.inj hOpened with ⟨rfl, rfl⟩
          rw [findSpan_tag_eq_none_iff _ hRead] at hNone
          have hBalance : balance ≠ 0 := by
            intro hZero
            refine hNone.1 ⟨hZero, Or.inr ⟨?_, ?_⟩⟩
            · rw [← hAuto]
              exact (isAmong_lower _ _).symm
            · unfold impliesEnd Text.sameLetters at hEnds ⊢
              rw [lower_lower] at hEnds
              exact hEnds
          have hInline : isInline name.lower = false :=
            isInline_eq_false_of_isAutoClosing hAuto
          rw [follow, findSpan_attach_eq_none_iff,
            List.foldr_cons, Token.attach_tag,
            findSpan_tag_eq_none_iff _ (head?_endTag hName)]
          refine ⟨fun hStops => hBalance hStops.1, ?_⟩
          simp [hInline]
  | @alone nest after depth s head rest rows hNeat hRead hSpan
      hElement hRest ih =>
      have hTrim : Tag.head? (s.trim isBlank) = some head := by
        rw [hNeat.trim, hRead]
      rw [findSpan_tag_eq_none_iff _ hTrim] at hNone
      rw [follow, findSpan_attach_eq_none_iff, List.foldr_cons,
        Token.attach_tag, findSpan_tag_eq_none_iff _ hTrim]
      refine ⟨hNone.1, ?_⟩
      intro hInline
      have hAfter : ∃ deeper,
          (∀ other ∈ deeper, isInline other = true) ∧
          after.opened = deeper ++ name.lower :: opened := by
        rcases opened_of_element hElement with
          hSame | hPush | ⟨hTop, hPop⟩
        · exact ⟨inside, hInside, hSame.trans hOpened⟩
        · refine ⟨head.name.lower :: inside, ?_, ?_⟩
          · intro other hOther
            rcases List.mem_cons.mp hOther with rfl | hOther
            · rw [isInline, isAmong_lower]
              exact hInline
            · exact hInside other hOther
          · rw [hPush, hOpened]
            rfl
        · cases inside with
          | nil =>
              rw [hOpened] at hTop
              have hNames : name.lower = head.name.lower :=
                Option.some.inj hTop
              have hClass : isInline name = true := by
                rw [← hInline]
                exact isAmong_congr _ hNames
              rw [isInline_eq_false_of_isCollapsible hBlock]
                at hClass
              cases hClass
          | cons other inside =>
              refine ⟨inside, ?_, ?_⟩
              · intro name hName
                exact hInside name
                  (List.mem_cons_of_mem _ hName)
              · rw [hPop, hOpened]
                rfl
      rcases hAfter with ⟨deeper, hDeeper, hAfter⟩
      exact ih hDeeper hAfter (hNone.2 hInline)
  | @joined nest s head between inner ending tail rows hNeat
      hRead hStart hCollapsible hPasses hInner hTrim hEnding
      hTokens hSome hRest ih =>
      have hTag : Tag.head? (s.trim isBlank) = some head := by
        rw [hNeat.trim, hRead]
      rw [findSpan_tag_eq_none_iff _ hTag] at hNone
      rw [follow, findSpan_attach_eq_none_iff, List.foldr_cons,
        Token.attach_tag, findSpan_tag_eq_none_iff _ hTag]
      refine ⟨hNone.1, ?_⟩
      simp [isInline_eq_false_of_isCollapsible hCollapsible]

end Markup

end WebTidy

------------------------------------------------------------
-- Walks Over Rows
------------------------------------------------------------

namespace WebTidy

namespace Markup

variable
  {format : StyleFormatter}
  {nest : Nest}

/- A walk over some tokens writes the text of some rows. -/
def Replays
    (format : StyleFormatter)
    (nest : Nest)
    (tokens : List Token)
    (rows : List Row) :
    Prop :=
  ∃ items last,
    walk format nest tokens = .ok (items, last) ∧
    items.flatMap Item.text = rows.flatMap Row.text

/- A walk over a text by what is left of it without blanks. -/
theorem walk_text
    (s : Text)
    (rest : List Token) :
    walk format nest (.text s :: rest) =
      (walk format nest rest).map fun more =>
        ((if s.trim isBlank = [] then []
          else
            [nest.line (CharRef.decode .text
              (s.trim isBlank))]) ++ more.1,
          more.2) := by
  have hStep :
      step format nest rest (.text s) = .ok ⟨_, nest, 0⟩ :=
    rfl
  rw [walk_cons hStep]
  rfl

/- A walk passes over a blank text. -/
theorem walk_blank
    {blanks : Text}
    (rest : List Token)
    (hBlanks : blanks.all isBlank = true) :
    walk format nest (.text blanks :: rest) =
      walk format nest rest := by
  have hTrim : blanks.trim isBlank = [] := by
    rw [Text.trim, List.dropWhile_eq_nil_iff.mpr
      (List.all_eq_true.mp hBlanks)]
    rfl
  rw [walk_text, hTrim, if_pos rfl]
  cases walk format nest rest with
  | error fault => rfl
  | ok more => rfl

/- Blanks in front of the tokens do not matter to a walk. -/
theorem walk_attach_blanks
    {blanks : Text}
    (tokens : List Token)
    (hBlanks : blanks.all isBlank = true) :
    walk format nest (Token.attach (.text blanks) tokens) =
      walk format nest tokens := by
  have hOther :
      walk format nest
          (if blanks = [] then tokens
          else .text blanks :: tokens) =
        walk format nest tokens := by
    split
    · rfl
    · exact walk_blank tokens hBlanks
  cases tokens with
  | nil => exact hOther
  | cons token rest =>
      cases token with
      | text t =>
          have hTrim :
              (blanks ++ t).trim isBlank = t.trim isBlank := by
            rw [Text.trim, List.dropWhile_append_of_pos
              (List.all_eq_true.mp hBlanks)]
            rfl
          rw [Token.attach, walk_text, walk_text, hTrim]
      | tag t => exact hOther
      | verbatim t => exact hOther
      | comment t => exact hOther

/- A step that writes a row, in front of other rows. -/
theorem Replays.cons
    {after : Nest}
    {row : Row}
    {rows : List Row}
    {token : Token}
    {rest more : List Token}
    {items : List Item}
    {taken : Nat}
    (h : Replays format after more rows)
    (hStep :
      step format nest rest token = .ok ⟨items, after, taken⟩)
    (hMore : rest.drop taken = more)
    (hItems : items.flatMap Item.text = row.text) :
    Replays format nest
      (Token.attach (.text row.lead) (token :: rest))
      (row :: rows) := by
  rcases h with ⟨others, last, hWalk, hText⟩
  refine ⟨items ++ others, last, ?_, ?_⟩
  · rw [walk_attach_blanks _ row.all_lead, walk_cons hStep,
      hMore, hWalk]
    rfl
  · rw [List.flatMap_append, hItems, hText, List.flatMap_cons]

/- A line is a row of one token. -/
theorem flatMap_text_line
    (depth : Nat)
    (token : Token) :
    [Item.line depth token.source].flatMap Item.text =
      Row.text ⟨depth, [token]⟩ := by
  rw [List.flatMap_singleton, Row.text, sources_singleton]
  rfl

/- A text in front of rows ends before their blanks. -/
theorem Prints.exists_attach
    {tokens : List Token}
    {rows : List Row}
    {s : Text}
    (format : StyleFormatter)
    (h : Prints nest tokens rows)
    (hHead : ∀ t, tokens.head? ≠ some (.text t))
    (hSome : s ≠ []) :
    ∃ tail rest,
      Token.attach (.text s) (follow rows) =
        .text (s ++ tail) :: rest ∧
      tail.all isBlank = true ∧
      walk format nest rest = walk format nest (follow rows) := by
  have hFollow :
      follow rows = [] ∨
        ∃ blanks rest,
          follow rows = .text blanks :: rest ∧
          blanks.all isBlank = true := by
    cases h with
    | nil => exact Or.inl rfl
    | @blank _ t => exact absurd rfl (hHead t)
    | @text _ t => exact absurd rfl (hHead t)
    | verbatim => exact Or.inr ⟨_, _, rfl, Row.all_lead _⟩
    | comment => exact Or.inr ⟨_, _, rfl, Row.all_lead _⟩
    | supplied => exact Or.inr ⟨_, _, rfl, Row.all_lead _⟩
    | alone => exact Or.inr ⟨_, _, rfl, Row.all_lead _⟩
    | joined => exact Or.inr ⟨_, _, rfl, Row.all_lead _⟩
  rcases hFollow with hNil | ⟨blanks, rest, hText, hBlanks⟩
  · refine ⟨[], [], ?_, rfl, by rw [hNil]⟩
    rw [hNil, List.append_nil]
    exact if_neg hSome
  · refine ⟨blanks, rest, ?_, hBlanks, ?_⟩
    · rw [hText, Token.attach]
    · rw [hText, walk_blank rest hBlanks]

/- The tokens on a line are not merged. -/
theorem Squeezed.foldr_attach
    {between inner : List Token}
    (h : Squeezed between inner)
    (s : Text)
    (rest : List Token) :
    inner.foldr Token.attach (.tag s :: rest) =
      inner ++ .tag s :: rest := by
  induction h with
  | nil => rfl
  | tag hNeat hRest ih =>
      rw [List.foldr_cons, ih]
      rfl
  | blank hBlank hRest ih => exact ih
  | @text t u more inner hNeat hKept hSome hNext hRest ih =>
      rw [List.foldr_cons, ih]
      cases inner with
      | nil => exact if_neg hSome
      | cons token tail =>
          cases token with
          | text v => exact absurd rfl (hNext v)
          | tag v => exact if_neg hSome
          | verbatim v => exact if_neg hSome
          | comment v => exact if_neg hSome

/- The end tag of a block is read and written as it is. -/
theorem Ending.Fits.exists_head
    {name : Text}
    {ending : Ending}
    (h : ending.Fits name)
    (hTokens : ∀ token ∈ ending.tokens, token.IsNeat) :
    tagText (ending.text name) = ending.text name ∧
    ∃ head,
      Tag.head? ((ending.text name).trim isBlank) =
        some head ∧
      head.isEnd = true ∧
      Text.sameLetters head.name name = true := by
  cases ending with
  | written s =>
      have hNeat : IsNeatTag s :=
        hTokens (.tag s) List.mem_cons_self
      rw [Ending.text, hNeat.tagText_eq]
      exact ⟨hNeat.tagText_eq, h⟩
  | implied =>
      have hName : name.lower ∈ omissible := by
        apply mem_omissible _ (lower_lower name)
        rw [isAutoClosing, isAmong_lower]
        exact h
      refine ⟨tagText_endTag hName, _, head?_endTag hName, rfl,
        ?_⟩
      rw [Text.sameLetters, lower_lower]
      exact decide_eq_true rfl

/- A block on several lines is not set on one line later. -/
theorem Prints.span?_follow
    {after : Nest}
    {s : Text}
    {head : Tag.Head}
    {item : Item}
    {rest : List Token}
    {rows : List Row}
    (h : Prints after rest rows)
    (hNeat : IsNeatTag s)
    (hRead : Tag.head? s = some head)
    (hSpan : span? nest head rest = .ok none)
    (hElement : element nest s head = ([item], after)) :
    span? nest head (follow rows) = .ok none := by
  unfold span? at hSpan ⊢
  split at hSpan
  · rename_i hBlock
    rw [if_pos hBlock]
    have hName : head.name ≠ [] := by
      intro hNil
      rw [hNil] at hBlock
      cases hBlock.2
    have hVoid : isVoid head.name = false := by
      rw [Bool.eq_false_iff]
      intro hVoid
      rw [(isVoid_apart hVoid).1] at hBlock
      cases hBlock.2
    rw [element_eq_startElement hRead hName
      (by simpa using hBlock.1) (hNeat.block head hRead hBlock.2)
      hVoid] at hElement
    have hOpened :
        after.opened =
          [] ++ head.name.lower :: nest.opened :=
      opened_of_startElement hElement
    exact h.findSpan_follow hBlock.2 (by simp) hOpened hSpan
  · rename_i hBlock
    rw [if_neg hBlock]

/- The tokens of some rows are laid out in the same rows. -/
theorem Prints.replays
    {tokens : List Token}
    {rows : List Row}
    (format : StyleFormatter)
    (h : Prints nest tokens rows) :
    Replays format nest (follow rows) rows := by
  induction h with
  | @nil nest =>
      refine ⟨[], nest, ?_, rfl⟩
      rw [follow, walk]
  | blank hBlank hRest ih => exact ih
  | @text nest s rest rows hNeat hSome hNext hRest ih =>
      rcases hRest.exists_attach format hNext hSome with
        ⟨tail, more, hAttach, hTail, hWalk⟩
      have hEnds := Text.trim_ends isBlank s
      have hTrim :
          (s.trim isBlank ++ tail).trim isBlank =
            s.trim isBlank := by
        rw [← List.nil_append (s.trim isBlank)]
        exact Text.trim_append rfl hTail hEnds.1 hEnds.2
      have hStep :
          step format nest more
              (.text (s.trim isBlank ++ tail)) =
            .ok ⟨[nest.line (s.trim isBlank)], nest, 0⟩ := by
        rw [step, hTrim, if_neg hSome, decode_trim hNeat.2]
      have hMore : Replays format nest more rows := by
        rw [Replays, hWalk]
        exact ih
      rw [follow, List.foldr_cons, List.foldr_nil, hAttach]
      exact hMore.cons hStep rfl
        (flatMap_text_line nest.indent (.text _))
  | @verbatim nest s rest rows hNeat hRest ih =>
      rcases List.head?_eq_some_iff.mp hNeat.1.1 with
        ⟨body, rfl⟩
      exact ih.cons (step_verbatim format nest _ rfl hNeat.2)
        rfl (flatMap_text_line nest.indent (.verbatim _))
  | @comment nest after depth s rest rows hNeat hComment hRest
      ih =>
      have hStep :
          step format nest (follow rows) (.comment s) =
            .ok ⟨[.line depth s], after, 0⟩ := by
        rw [step, hComment]
      exact ih.cons hStep rfl
        (flatMap_text_line depth (.comment s))
  | @supplied indent name opened s head rest rows hName hRead
      hEnds hRest ih =>
      have hStep :=
        step_tag format (head?_endTag hName)
          (span?_eq_none _ (follow rows) (Or.inl rfl))
          (element_endTag indent opened hName)
      exact ih.cons hStep rfl
        (flatMap_text_line (indent - 1) (.tag (endTag name)))
  | @alone nest after depth s head rest rows hNeat hRead hSpan
      hElement hRest ih =>
      have hTrim : Tag.head? (s.trim isBlank) = some head := by
        rw [hNeat.trim, hRead]
      have hFails :=
        hRest.span?_follow hNeat hRead hSpan hElement
      rw [← hNeat.trim] at hElement
      have hStep := step_tag format hTrim hFails hElement
      rw [hNeat.trim] at hStep
      exact ih.cons hStep rfl
        (flatMap_text_line depth (.tag s))
  | @joined nest s head between inner ending tail rows hNeat
      hRead hStart hBlock hPasses hInner hTrim hEnding hTokens
      hSome hRest ih =>
      have hTag : Tag.head? (s.trim isBlank) = some head := by
        rw [hNeat.trim, hRead]
      rcases hEnding.exists_head hTokens with
        ⟨hText, last, hLast, hEnd, hName⟩
      have hSpan :
          span? nest head
              (inner ++
                .tag (ending.text head.name) :: follow rows) =
            .ok (some
              ⟨inner, .written (ending.text head.name)⟩) := by
        rw [span?, if_pos ⟨by simp [hStart], hBlock⟩]
        exact (hPasses.squeezed hInner).findSpan_eq hLast hEnd
          hName (follow rows)
      have hLine :
          Span.line s head.name
              ⟨inner, .written (ending.text head.name)⟩ =
            sources
              (.tag s ::
                (inner ++ [.tag (ending.text head.name)])) := by
        rw [Span.line, hNeat.tagText_eq,
          hInner.flatMap_inlineText, hTrim, Ending.text, hText,
          sources_cons, sources_append, sources_singleton,
          List.append_assoc]
        rfl
      have hStep := step_joined format hTag hSpan
      simp only [follow, List.foldr_cons, List.foldr_append,
        List.foldr_nil, Token.attach_tag, hInner.foldr_attach]
      apply ih.cons hStep
      · simp [Span.taken]
      · rw [List.flatMap_cons, List.flatMap_singleton, hLine]
        rfl

end Markup

end WebTidy
