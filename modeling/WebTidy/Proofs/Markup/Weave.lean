import WebTidy.Proofs.CharRef
import WebTidy.Proofs.Markup.Scan
import WebTidy.Proofs.Markup.Walk

/-
  Weaves: what the layout of some tokens may write.

  Without blanks, what the layout writes is woven from the
  contents of the tokens, in order, and from end tags that
  the document omits.  Every such end tag belongs to a start
  tag of its own that stands before it.  Verbatim elements
  and comments are copied as they are.

  Key definitions include:
    * `WebTidy.Markup.squeeze`
    * `WebTidy.Markup.content`
    * `WebTidy.Markup.Woven`
    * `WebTidy.Markup.InOrder`
    * `WebTidy.Markup.Writes`

  Key theorems include:
    * `WebTidy.Markup.squeeze_decode_trim`
    * `WebTidy.Markup.InOrder.trim`
    * `WebTidy.Markup.Writes.append`
    * `WebTidy.Markup.writes_closeAbove`
    * `WebTidy.Markup.writes_element`
    * `WebTidy.Markup.writes_comment`
-/

------------------------------------------------------------
-- Texts Without Blanks
------------------------------------------------------------

namespace WebTidy

namespace Markup

/- A text without its blanks. -/
def squeeze
    (s : Text) :
    Text :=
  s.filter (!isBlank ·)

/- Blanks are dropped part by part. -/
@[simp] theorem squeeze_append
    (s t : Text) :
    squeeze (s ++ t) = squeeze s ++ squeeze t := by
  exact List.filter_append _ _

/- Nothing is left of blanks. -/
theorem squeeze_eq_nil
    {s : Text}
    (h : s.all isBlank = true) :
    squeeze s = [] := by
  unfold squeeze
  rw [List.filter_eq_nil_iff]
  intro c hc
  simp [List.all_eq_true.mp h c hc]

/- Blanks at the start of a text do not matter. -/
theorem squeeze_dropWhile
    (s : Text) :
    squeeze (s.dropWhile isBlank) = squeeze s := by
  have hBlanks : (s.takeWhile isBlank).all isBlank = true := by
    simp
  calc
    squeeze (s.dropWhile isBlank)
        = squeeze (s.takeWhile isBlank) ++
            squeeze (s.dropWhile isBlank) := by
          rw [squeeze_eq_nil hBlanks, List.nil_append]
    _ = squeeze s := by
          rw [← squeeze_append,
            List.takeWhile_append_dropWhile]

/- Blanks at the end of a text do not matter. -/
theorem squeeze_trimEnd
    (s : Text) :
    squeeze (s.trimEnd isBlank) = squeeze s := by
  rcases Text.exists_trimEnd_append isBlank s with
    ⟨tail, hTail, hs⟩
  calc
    squeeze (s.trimEnd isBlank)
        = squeeze (s.trimEnd isBlank) ++ squeeze tail := by
          rw [squeeze_eq_nil hTail, List.append_nil]
    _ = squeeze s := by
          rw [← squeeze_append, ← hs]

/- Blanks around a text do not matter. -/
@[simp] theorem squeeze_trim
    (s : Text) :
    squeeze (s.trim isBlank) = squeeze s := by
  unfold Text.trim
  rw [squeeze_trimEnd, squeeze_dropWhile]

/- Folding blanks changes blanks only. -/
@[simp] theorem squeeze_fold
    (s : Text) :
    squeeze (s.fold isBlank) = squeeze s := by
  have hFrom :
      ∀ inRun,
        squeeze (Text.foldFrom isBlank inRun s) =
          squeeze s := by
    induction s with
    | nil =>
        intro inRun
        rfl
    | cons c rest ih =>
        intro inRun
        unfold Text.foldFrom
        by_cases hc : isBlank c = true
        · have hDrop : squeeze (c :: rest) = squeeze rest := by
            simp [squeeze, hc]
          rw [if_pos hc, hDrop]
          split
          · exact ih true
          · exact ih true
        · rw [if_neg hc]
          have hKeep (t : Text) :
              squeeze (c :: t) = c :: squeeze t := by
            simp [squeeze, hc]
          rw [hKeep, hKeep, ih false]
  exact hFrom false

/- Blanks around a text do not matter for decoding. -/
theorem squeeze_decode_trim
    (mode : CharRef.Mode)
    (s : Text) :
    squeeze (CharRef.decode mode (s.trim isBlank)) =
      squeeze (CharRef.decode mode s) := by
  have hBlanks : (s.takeWhile isBlank).all isBlank = true := by
    simp
  rcases Text.exists_trimEnd_append isBlank
      (s.dropWhile isBlank) with ⟨tail, hTail, hs⟩
  have hSplit :
      s = s.takeWhile isBlank ++ (s.trim isBlank ++ tail) := by
    rw [Text.trim, ← hs, List.takeWhile_append_dropWhile]
  have hDecode :
      CharRef.decode mode s =
        s.takeWhile isBlank ++
          (CharRef.decode mode (s.trim isBlank) ++ tail) := by
    rw [← CharRef.decode_append_blanks mode _ hTail,
      ← CharRef.decode_blanks_append mode _ hBlanks,
      ← hSplit]
  rw [hDecode, squeeze_append, squeeze_append,
    squeeze_eq_nil hBlanks, squeeze_eq_nil hTail,
    List.nil_append, List.append_nil]

/- The text of a line is its content. -/
@[simp] theorem squeeze_line
    (depth : Nat)
    (content : Text) :
    squeeze (Item.line depth content).text =
      squeeze content := by
  have hTabs :
      (List.replicate depth '\t').all isBlank = true := by
    simp [isBlank]
  have hLine : List.all ['\n'] isBlank = true := by
    rfl
  unfold Item.text
  rw [squeeze_append, squeeze_append, squeeze_eq_nil hTabs,
    squeeze_eq_nil hLine, List.nil_append, List.append_nil]

end Markup

end WebTidy

------------------------------------------------------------
-- Weaves
------------------------------------------------------------

namespace WebTidy

namespace Markup

/- What the layout keeps of a token, up to blanks. -/
def content :
    Token → Text
| .tag source => tagText source
| .text source => CharRef.decode .text source
| .verbatim source => source
| .comment source => source

/- The lowercase names of elements with omitted end tags. -/
def omissible :
    List Text :=
  ["p", "li", "dt", "dd", "option"].map String.toList

/- The lowercase name of a tag that is no end tag. -/
def offered :
    Token → List Text
| .tag source =>
    match Tag.head? (source.trim isBlank) with
    | none => []
    | some head =>
        if head.isEnd then [] else [head.name.lower]
| .text _ => []
| .verbatim _ => []
| .comment _ => []

/-
  An output without blanks, woven from the contents of some
  tokens and from omitted end tags.  The first and the last
  index are the names of the tags before and up to the end
  of these tokens that are no end tags, less one for every
  end tag supplied.
-/
inductive Woven :
    List Text → List Token → Text → List Text → Prop
| done
    {available : List Text} :
    Woven available [] [] available
| token
    {available left : List Text}
    {token : Token}
    {rest : List Token}
    {out : Text}
    (hRest :
      Woven (offered token ++ available) rest out left) :
    Woven available (token :: rest)
      (squeeze (content token) ++ out) left
| supplied
    {available left : List Text}
    {name : Text}
    {tokens : List Token}
    {out : Text}
    (hOmissible : name ∈ omissible)
    (hAvailable : name ∈ available)
    (hRest : Woven (available.erase name) tokens out left) :
    Woven available tokens (endTag name ++ out) left

/- Weaves follow one another. -/
theorem Woven.append
    {available between left : List Text}
    {tokens more : List Token}
    {out next : Text}
    (hFirst : Woven available tokens out between)
    (hSecond : Woven between more next left) :
    Woven available (tokens ++ more) (out ++ next) left := by
  induction hFirst with
  | done => exact hSecond
  | token hRest ih =>
      rw [List.cons_append, List.append_assoc]
      exact .token (ih hSecond)
  | supplied hOmissible hAvailable hRest ih =>
      rw [List.append_assoc]
      exact .supplied hOmissible hAvailable (ih hSecond)

end Markup

end WebTidy

------------------------------------------------------------
-- Copies
------------------------------------------------------------

namespace WebTidy

namespace Markup

/- Texts that occur in another, one behind the other. -/
def InOrder :
    List Text → Text → Prop
| [], _ => True
| s :: rest, t =>
    ∃ before after,
      t = before ++ (s ++ after) ∧ InOrder rest after

/- A text in front of the others does no harm. -/
theorem InOrder.append_left
    {texts : List Text}
    {t : Text}
    (front : Text)
    (h : InOrder texts t) :
    InOrder texts (front ++ t) := by
  cases texts with
  | nil => exact trivial
  | cons s rest =>
      rcases h with ⟨before, after, rfl, hRest⟩
      refine ⟨front ++ before, after, ?_, hRest⟩
      rw [List.append_assoc]

/- Texts occur in joined texts. -/
theorem InOrder.append
    {texts more : List Text}
    {t u : Text}
    (hFirst : InOrder texts t)
    (hSecond : InOrder more u) :
    InOrder (texts ++ more) (t ++ u) := by
  induction texts generalizing t with
  | nil => exact hSecond.append_left t
  | cons s rest ih =>
      rcases hFirst with ⟨before, after, rfl, hRest⟩
      refine ⟨before, after ++ u, ?_, ih hRest⟩
      simp only [List.append_assoc]

/- A bracketed text does not begin among blanks. -/
theorem InOrder.of_blanks_append
    {texts : List Text}
    {blanks t : Text}
    (hBlanks : blanks.all isBlank = true)
    (hTexts : ∀ s ∈ texts, IsBracketed s)
    (h : InOrder texts (blanks ++ t)) :
    InOrder texts t := by
  cases texts with
  | nil => exact trivial
  | cons s rest =>
      rcases h with ⟨before, after, hSplit, hRest⟩
      have hHead := (hTexts s (by simp)).1
      rcases List.append_eq_append_iff.mp hSplit with
        ⟨front, rfl, ht⟩ | ⟨overlap, rfl, hTail⟩
      · exact ⟨front, after, ht, hRest⟩
      · cases overlap with
        | nil => exact ⟨[], after, hTail.symm, hRest⟩
        | cons c more =>
            have hc : c = '<' := by
              have hFirst := congrArg List.head? hTail
              rw [List.head?_append, hHead] at hFirst
              exact (Option.some_inj.mp hFirst).symm
            rw [hc] at hBlanks
            simp [isBlank] at hBlanks

/- A bracketed text does not end among blanks. -/
theorem InOrder.of_append_blanks
    {texts : List Text}
    {blanks t : Text}
    (hBlanks : blanks.all isBlank = true)
    (hTexts : ∀ s ∈ texts, IsBracketed s)
    (h : InOrder texts (t ++ blanks)) :
    InOrder texts t := by
  induction texts generalizing t with
  | nil => exact trivial
  | cons s rest ih =>
      rcases h with ⟨before, after, hSplit, hRest⟩
      have hLast := (hTexts s (by simp)).2
      have hMore : ∀ u ∈ rest, IsBracketed u := by
        intro u hu
        exact hTexts u (by simp [hu])
      rw [← List.append_assoc] at hSplit
      rcases List.append_eq_append_iff.mp hSplit with
        ⟨overlap, hFront, rfl⟩ | ⟨behind, rfl, rfl⟩
      · cases hOverlap : overlap.getLast? with
        | none =>
            rw [List.getLast?_eq_none_iff.mp hOverlap]
              at hFront ih
            rw [List.append_nil] at hFront
            refine ⟨before, [], ?_, ?_⟩
            · rw [← hFront, List.append_nil]
            · exact ih hMore hRest
        | some c =>
            have hEnd := congrArg List.getLast? hFront
            rw [List.getLast?_append, List.getLast?_append,
              hLast, hOverlap] at hEnd
            have hc : c = '>' :=
              (Option.some_inj.mp hEnd).symm
            have hBlank : isBlank c = true :=
              List.all_eq_true.mp hBlanks c
                (by simp [List.mem_of_getLast? hOverlap])
            rw [hc] at hBlank
            cases hBlank
      · refine ⟨before, behind, List.append_assoc _ _ _, ?_⟩
        exact ih hMore hRest

/- Blanks around a text hold no bracketed text. -/
theorem InOrder.trim
    {texts : List Text}
    {t : Text}
    (hTexts : ∀ s ∈ texts, IsBracketed s)
    (h : InOrder texts t) :
    InOrder texts (t.trim isBlank) := by
  have hBlanks : (t.takeWhile isBlank).all isBlank = true := by
    simp
  rcases Text.exists_trimEnd_append isBlank
      (t.dropWhile isBlank) with ⟨tail, hTail, ht⟩
  have hDrop : InOrder texts (t.dropWhile isBlank) := by
    apply InOrder.of_blanks_append hBlanks hTexts
    rw [List.takeWhile_append_dropWhile]
    exact h
  apply InOrder.of_append_blanks hTail hTexts
  unfold Text.trim
  rw [← ht]
  exact hDrop

end Markup

end WebTidy

------------------------------------------------------------
-- What A Step Writes
------------------------------------------------------------

namespace WebTidy

namespace Markup

/- The source of a token that is copied as it is. -/
def copiedSource :
    Token → List Text
| .tag _ => []
| .text _ => []
| .verbatim source => [source]
| .comment source => [source]

/-
  The open elements have lowercase names, and each belongs
  to a start tag of its own among those available.
-/
structure Covered
    (available opened : List Text) :
    Prop where
  count :
    ∀ name, opened.count name ≤ available.count name
  lower : ∀ name ∈ opened, name.lower = name

/-
  Items that are woven from some tokens and lead from some
  open elements to others.
-/
def Writes
    (opened : List Text)
    (tokens : List Token)
    (items : List Item)
    (last : List Text) :
    Prop :=
  InOrder (tokens.flatMap copiedSource)
    (items.flatMap Item.text) ∧
  ∀ available, Covered available opened →
    ∃ left,
      Covered left last ∧
      Woven available tokens
        (squeeze (items.flatMap Item.text)) left

/- Writing nothing. -/
theorem writes_nil
    (opened : List Text) :
    Writes opened [] [] opened := by
  refine ⟨trivial, ?_⟩
  intro available hCovered
  exact ⟨available, hCovered, .done⟩

/- Writing follows writing. -/
theorem Writes.append
    {opened next last : List Text}
    {tokens more : List Token}
    {items others : List Item}
    (hFirst : Writes opened tokens items next)
    (hSecond : Writes next more others last) :
    Writes opened (tokens ++ more) (items ++ others)
      last := by
  unfold Writes
  rw [List.flatMap_append, List.flatMap_append,
    squeeze_append]
  refine ⟨hFirst.1.append hSecond.1, ?_⟩
  intro available hCovered
  rcases hFirst.2 available hCovered with
    ⟨between, hBetween, hWoven⟩
  rcases hSecond.2 between hBetween with
    ⟨left, hLast, hNext⟩
  exact ⟨left, hLast, hWoven.append hNext⟩

/- More start tags cover the same elements. -/
theorem Covered.append_left
    {available opened : List Text}
    (more : List Text)
    (h : Covered available opened) :
    Covered (more ++ available) opened := by
  refine ⟨?_, h.lower⟩
  intro name
  have hCount := h.count name
  rw [List.count_append]
  omega

/- Fewer elements are covered too. -/
theorem Covered.sublist
    {available opened inner : List Text}
    (h : Covered available opened)
    (hInner : inner.Sublist opened) :
    Covered available inner := by
  constructor
  · intro name
    exact (hInner.count_le name).trans (h.count name)
  · intro name hName
    exact h.lower name (hInner.subset hName)

/- A token on one line. -/
theorem writes_token
    {opened next : List Text}
    {token : Token}
    {depth : Nat}
    {text : Text}
    (hNext :
      ∀ available, Covered available opened →
        Covered (offered token ++ available) next)
    (hContent : squeeze text = squeeze (content token))
    (hCopy :
      InOrder (copiedSource token)
        (Item.line depth text).text) :
    Writes opened [token] [.line depth text] next := by
  constructor
  · rw [List.flatMap_singleton, List.flatMap_singleton]
    exact hCopy
  · intro available hCovered
    refine ⟨_, hNext available hCovered, ?_⟩
    rw [List.flatMap_singleton, squeeze_line, hContent,
      ← List.append_nil (squeeze (content token))]
    exact .token .done

end Markup

end WebTidy

------------------------------------------------------------
-- Omitted End Tags
------------------------------------------------------------

namespace WebTidy

namespace Markup

/- The auto-closing names in lowercase. -/
theorem mem_omissible
    {name : Text}
    (hAuto : isAutoClosing name = true)
    (hLower : name.lower = name) :
    name ∈ omissible := by
  unfold isAutoClosing isAmong at hAuto
  rcases List.any_eq_true.mp hAuto with
    ⟨listed, hListed, hSame⟩
  unfold Text.sameLetters at hSame
  rw [decide_eq_true_eq, hLower] at hSame
  have hAll :
      (["p", "li", "dt", "dd", "option"].all fun listed =>
        Text.lower listed.toList = listed.toList) = true := by
    rfl
  have hSmall := List.all_eq_true.mp hAll listed hListed
  rw [decide_eq_true_eq] at hSmall
  unfold omissible
  rw [hSame, hSmall]
  exact List.mem_map_of_mem hListed

/- A supplied end tag has no blanks. -/
theorem squeeze_endTag
    {name : Text}
    (h : name ∈ omissible) :
    squeeze (endTag name) = endTag name := by
  have hAll :
      (omissible.all fun name =>
        squeeze (endTag name) = endTag name) = true := by
    rfl
  have hName := List.all_eq_true.mp hAll name h
  exact of_decide_eq_true hName

/- Supplying an end tag leaves the others covered. -/
theorem Covered.erase
    {available opened : List Text}
    {name : Text}
    (h : Covered available (name :: opened)) :
    Covered (available.erase name) opened := by
  constructor
  · intro other
    have hCount := h.count other
    by_cases hSame : other = name
    · subst other
      rw [List.count_cons_self] at hCount
      rw [List.count_erase_self]
      omega
    · rw [List.count_cons_of_ne (Ne.symm hSame)] at hCount
      rw [List.count_erase_of_ne hSame]
      exact hCount
  · intro other hOther
    exact h.lower other (by simp [hOther])

/- The end tag of the innermost element may be supplied. -/
theorem woven_endTag
    {available opened : List Text}
    {name : Text}
    (hAuto : isAutoClosing name = true)
    (h : Covered available (name :: opened)) :
    Woven available [] (squeeze (endTag name))
      (available.erase name) := by
  have hOmissible : name ∈ omissible :=
    mem_omissible hAuto (h.lower name (by simp))
  have hAvailable : name ∈ available := by
    have hCount := h.count name
    rw [List.count_cons_self] at hCount
    apply List.count_pos_iff.mp
    omega
  rw [squeeze_endTag hOmissible,
    ← List.append_nil (endTag name)]
  exact .supplied hOmissible hAvailable .done

/- Supplying the end tag of the innermost element. -/
theorem writes_closeTop
    {name : Text}
    (nest : Nest)
    (hTop : nest.opened.head? = some name)
    (hAuto : isAutoClosing name = true) :
    Writes nest.opened [] nest.closeTop.1
      nest.closeTop.2.opened := by
  rcases List.head?_eq_some_iff.mp hTop with ⟨rest, hOpened⟩
  unfold Nest.closeTop
  rw [hOpened]
  refine ⟨trivial, ?_⟩
  intro available hCovered
  refine ⟨_, hCovered.erase, ?_⟩
  simp only [Nest.line, List.flatMap_cons,
    List.flatMap_nil, List.append_nil, squeeze_append,
    squeeze_line]
  exact woven_endTag hAuto hCovered

/- Supplying the end tags above an element. -/
theorem writes_closeAbove
    (name : Text)
    (indent : Nat)
    (opened : List Text) :
    Writes opened []
      (Nest.closeAbove name indent opened).1
      (Nest.closeAbove name indent opened).2.opened := by
  induction opened generalizing indent with
  | nil => exact writes_nil []
  | cons top rest ih =>
      unfold Nest.closeAbove
      by_cases hClose : top ≠ name ∧ isAutoClosing top = true
      · rw [if_pos hClose]
        have hTop :=
          writes_closeTop
            { indent := indent, opened := top :: rest }
            rfl hClose.2
        exact hTop.append (ih (indent - 1))
      · rw [if_neg hClose]
        exact writes_nil (top :: rest)

end Markup

end WebTidy

------------------------------------------------------------
-- Tags And Comments
------------------------------------------------------------

namespace WebTidy

namespace Markup

/- A tag on a line of its own. -/
theorem writes_tag
    {opened next : List Text}
    {source : Text}
    (depth : Nat)
    (hNext :
      ∀ available, Covered available opened →
        Covered (offered (.tag source) ++ available) next) :
    Writes opened [.tag source]
      [.line depth (tagText source)] next := by
  exact writes_token hNext rfl trivial

/- The name that a tag with a known head offers. -/
theorem offered_tag
    {source : Text}
    {head : Tag.Head}
    (hRead : Tag.head? (source.trim isBlank) = some head)
    (hStart : head.isEnd = false) :
    offered (.tag source) = [head.name.lower] := by
  rw [offered, hRead]
  simp only
  rw [hStart]
  rfl

/- A start tag covers the element that it opens. -/
theorem Covered.cons
    {available opened : List Text}
    {source : Text}
    {head : Tag.Head}
    (hRead : Tag.head? (source.trim isBlank) = some head)
    (hStart : head.isEnd = false)
    (h : Covered available opened) :
    Covered (offered (.tag source) ++ available)
      (head.name.lower :: opened) := by
  rw [offered_tag hRead hStart]
  constructor
  · intro other
    have hCount := h.count other
    rw [List.singleton_append, List.count_cons,
      List.count_cons]
    omega
  · intro other hOther
    rcases List.mem_cons.mp hOther with rfl | hRest
    · exact lower_lower head.name
    · exact h.lower other hRest

/- What an end tag writes. -/
theorem writes_endElement
    (nest : Nest)
    (source name : Text) :
    Writes nest.opened [.tag source]
      (endElement nest name (tagText source)).1
      (endElement nest name (tagText source)).2.opened := by
  unfold endElement
  have hClosed :
      Writes nest.opened []
        (if isOpen nest.opened name then
          Nest.closeAbove name nest.indent nest.opened
        else ([], nest)).1
        (if isOpen nest.opened name then
          Nest.closeAbove name nest.indent nest.opened
        else ([], nest)).2.opened := by
    split
    · exact writes_closeAbove name nest.indent nest.opened
    · exact writes_nil nest.opened
  generalize
    (if isOpen nest.opened name then
      Nest.closeAbove name nest.indent nest.opened
    else ([], nest)) = closed at hClosed
  apply hClosed.append
  apply writes_tag
  intro available hCovered
  apply Covered.append_left
  apply hCovered.sublist
  simp only
  unfold Nest.pop
  split
  · exact List.tail_sublist _
  · exact List.Sublist.refl _

/- What a start tag writes. -/
theorem writes_startElement
    {source : Text}
    {head : Tag.Head}
    (nest : Nest)
    (hRead : Tag.head? (source.trim isBlank) = some head)
    (hStart : head.isEnd = false) :
    Writes nest.opened [.tag source]
      (startElement nest head.name.lower
        (tagText source)).1
      (startElement nest head.name.lower
        (tagText source)).2.opened := by
  unfold startElement
  have hClosed :
      Writes nest.opened []
        (if isAutoClosing head.name.lower ∧
            nest.opened.head? = some head.name.lower then
          nest.closeTop
        else ([], nest)).1
        (if isAutoClosing head.name.lower ∧
            nest.opened.head? = some head.name.lower then
          nest.closeTop
        else ([], nest)).2.opened := by
    split
    · rename_i hSibling
      exact writes_closeTop nest hSibling.2 hSibling.1
    · exact writes_nil nest.opened
  generalize
    (if isAutoClosing head.name.lower ∧
        nest.opened.head? = some head.name.lower then
      nest.closeTop
    else ([], nest)) = closed at hClosed
  apply hClosed.append
  apply writes_tag
  intro available hCovered
  exact hCovered.cons hRead hStart

/- What a tag on a line of its own writes. -/
theorem writes_element
    {source : Text}
    {head : Tag.Head}
    (nest : Nest)
    (hRead : Tag.head? (source.trim isBlank) = some head) :
    Writes nest.opened [.tag source]
      (element nest (source.trim isBlank) head).1
      (element nest (source.trim isBlank) head).2.opened := by
  have hKeep (depth : Nat) :
      Writes nest.opened [.tag source]
        [.line depth (tagText source)] nest.opened := by
    apply writes_tag
    intro available hCovered
    exact hCovered.append_left _
  unfold element
  simp only
  split
  · exact hKeep 0
  · split
    · exact hKeep nest.indent
    · split
      · exact writes_endElement nest source head.name.lower
      · split
        · exact hKeep nest.indent
        · rename_i hStart _
          exact writes_startElement nest hRead
            (by simpa using hStart)

/- A copy of a token on a line of its own. -/
theorem writes_copy
    {token : Token}
    {source : Text}
    (opened : List Text)
    (depth : Nat)
    (hContent : content token = source)
    (hCopied : copiedSource token = [source]) :
    Writes opened [token] [.line depth source] opened := by
  apply writes_token
  · intro available hCovered
    exact hCovered.append_left (offered token)
  · rw [hContent]
  · rw [hCopied]
    refine ⟨List.replicate depth '\t', ['\n'], ?_, trivial⟩
    exact List.append_assoc _ _ _

/- What a comment writes. -/
theorem writes_comment
    {source : Text}
    (nest : Nest)
    (hSource : IsBracketed source) :
    Writes nest.opened [.comment source]
      (comment nest source).1
      (comment nest source).2.opened := by
  -- The markers change the indentation only.
  have hLine (depth : Nat) :
      Writes nest.opened [.comment source]
        [.line depth source] nest.opened :=
    writes_copy nest.opened depth rfl rfl
  unfold comment
  rw [hSource.trim_eq]
  simp only
  split
  · exact hLine nest.dedent.indent
  · split
    · exact hLine nest.indent
    · exact hLine nest.indent

end Markup

end WebTidy
