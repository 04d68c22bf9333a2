import WebTidy.Proofs.Markup.SelfClosing
import WebTidy.Proofs.Text.Spacing

/-
  How far a block on one line reaches.

  The tokens of a block are counted off one by one.  Its end
  is the first tag that can end it while as many elements
  were opened as end tags were read, in any order, and
  everything before that tag is text or inline.  The search
  for the end of a block finds exactly this place, and what
  the line holds is made of the tokens up to it, one after
  the other.

  Key definitions include:
    * `WebTidy.Markup.surplus`
    * `WebTidy.Markup.IsEndpoint`
    * `WebTidy.Markup.IsExtent`
    * `WebTidy.Markup.ClosedBy`

  Key theorems include:
    * `WebTidy.Markup.findSpan_of_isExtent`
    * `WebTidy.Markup.endsAhead_iff`
    * `WebTidy.Markup.exists_step_extent`
-/

------------------------------------------------------------
-- Tokens Of A Block
------------------------------------------------------------

namespace WebTidy

namespace Markup

namespace Token

/- The head of a token that is a tag. -/
def head? :
    Token → Option Tag.Head
| .tag source => Tag.head? (source.trim isBlank)
| _ => none

/- A start tag that is not self-closing. -/
def isOpening
    (token : Token) :
    Bool :=
  token.head?.any fun head =>
    !head.isEnd && !head.selfClosing

/- An end tag. -/
def isClosing
    (token : Token) :
    Bool :=
  token.head?.any (·.isEnd)

/- A text, or a tag of an inline element. -/
def isFlowing :
    Token → Bool
| .text _ => true
| token => token.head?.any (isInline ·.name)

/- An end tag of a name. -/
def isEndOf
    (name : Text)
    (token : Token) :
    Bool :=
  token.head?.any fun head =>
    head.isEnd && Text.sameLetters head.name name

/-
  A tag in front of which the end tag of an element may be
  omitted: a sibling, or the end of an element around it.
-/
def impliesEndOf
    (name : Text)
    (opened : List Text)
    (token : Token) :
    Bool :=
  isAmong ["p", "li", "dt", "dd"] name &&
    token.head?.any fun head =>
      if head.isEnd then isOpen opened head.name.lower
      else Text.sameLetters head.name name

end Token

/- How many more elements are opened than end tags read. -/
def surplus
    (tokens : List Token) :
    Int :=
  tokens.countP Token.isOpening - tokens.countP Token.isClosing

/-
  A place where a block can end: the elements are balanced,
  and the token there is a tag that ends the block.
-/
structure IsEndpoint
    (name : Text)
    (opened : List Text)
    (balance : Int)
    (tokens : List Token)
    (n : Nat) :
    Prop where
  level : balance + surplus (tokens.take n) = 0
  mark :
    tokens[n]?.any (fun token =>
      token.isEndOf name || token.impliesEndOf name opened) =
        true

/-
  The number of tokens inside a block.  Behind them is the
  first place where the block can end, and they are texts
  and tags of inline elements.
-/
structure IsExtent
    (name : Text)
    (opened : List Text)
    (balance : Int)
    (tokens : List Token)
    (n : Nat) :
    Prop where
  ends : IsEndpoint name opened balance tokens n
  first : ∀ m < n, ¬ IsEndpoint name opened balance tokens m
  flows : (tokens.take n).all Token.isFlowing = true

variable
  {name : Text}
  {opened : List Text}
  {balance : Int}
  {tokens : List Token}
  {n : Nat}

instance :
    Decidable (IsEndpoint name opened balance tokens n) :=
  decidable_of_iff
    (balance + surplus (tokens.take n) = 0 ∧
      tokens[n]?.any (fun token =>
        token.isEndOf name ||
          token.impliesEndOf name opened) = true)
    ⟨fun h => ⟨h.1, h.2⟩, fun h => ⟨h.level, h.mark⟩⟩

instance :
    Decidable (IsExtent name opened balance tokens n) :=
  decidable_of_iff
    (IsEndpoint name opened balance tokens n ∧
      (∀ m < n, ¬ IsEndpoint name opened balance tokens m) ∧
      (tokens.take n).all Token.isFlowing = true)
    ⟨fun h => ⟨h.1, h.2.1, h.2.2⟩,
      fun h => ⟨h.ends, h.first, h.flows⟩⟩

/- A block has one extent at most. -/
theorem IsExtent.unique
    {m : Nat}
    (h : IsExtent name opened balance tokens m)
    (hOther : IsExtent name opened balance tokens n) :
    m = n := by
  rcases Nat.lt_trichotomy m n with hLess | hSame | hMore
  · exact absurd h.ends (hOther.first m hLess)
  · exact hSame
  · exact absurd hOther.ends (h.first n hMore)

end Markup

end WebTidy

------------------------------------------------------------
-- Token By Token
------------------------------------------------------------

namespace WebTidy

namespace Markup

variable
  {name : Text}
  {opened : List Text}
  {balance : Int}
  {token : Token}
  {rest : List Token}
  {n : Nat}

/- The tokens are counted one after the other. -/
theorem surplus_cons
    (token : Token)
    (rest : List Token) :
    surplus (token :: rest) = surplus [token] + surplus rest := by
  unfold surplus
  rw [List.countP_cons, List.countP_cons, List.countP_singleton,
    List.countP_singleton]
  omega

/- A text opens nothing. -/
theorem surplus_text
    (s : Text) :
    surplus [.text s] = 0 := by
  rfl

/- A tag counts as the search counts it. -/
theorem surplus_tag
    {s : Text}
    {head : Tag.Head}
    (hRead : Tag.head? (s.trim isBlank) = some head) :
    surplus [.tag s] = balanceOf head := by
  have hHead : Token.head? (.tag s) = some head := hRead
  unfold surplus balanceOf
  rw [List.countP_singleton, List.countP_singleton,
    Token.isOpening, Token.isClosing, hHead]
  cases hEnd : head.isEnd <;> cases hSelf : head.selfClosing <;>
    simp [hEnd, hSelf]

/- A place behind the first token. -/
theorem isEndpoint_succ_iff :
    IsEndpoint name opened balance (token :: rest) (n + 1) ↔
      IsEndpoint name opened (balance + surplus [token])
        rest n := by
  have hLevel :
      balance + surplus ((token :: rest).take (n + 1)) =
        balance + surplus [token] + surplus (rest.take n) := by
    rw [List.take_succ_cons, surplus_cons, Int.add_assoc]
  constructor
  · rintro ⟨hBefore, hMark⟩
    exact ⟨hLevel ▸ hBefore, hMark⟩
  · rintro ⟨hBehind, hMark⟩
    exact ⟨hLevel.trans hBehind, hMark⟩

/- An empty block ends at once. -/
theorem isExtent_zero_iff
    {tokens : List Token} :
    IsExtent name opened balance tokens 0 ↔
      IsEndpoint name opened balance tokens 0 := by
  constructor
  · exact fun h => h.ends
  · exact fun h => ⟨h, by simp, rfl⟩

/- Any other block goes on behind its first token. -/
theorem isExtent_succ_iff :
    IsExtent name opened balance (token :: rest) (n + 1) ↔
      ¬ IsEndpoint name opened balance (token :: rest) 0 ∧
        token.isFlowing = true ∧
        IsExtent name opened (balance + surplus [token])
          rest n := by
  constructor
  · rintro ⟨hEnds, hFirst, hFlows⟩
    rw [List.take_succ_cons, List.all_cons,
      Bool.and_eq_true] at hFlows
    refine ⟨hFirst 0 (by omega), hFlows.1, ?_, ?_, hFlows.2⟩
    · exact isEndpoint_succ_iff.mp hEnds
    · intro m hm hEarlier
      apply hFirst (m + 1) (by omega)
      exact isEndpoint_succ_iff.mpr hEarlier
  · rintro ⟨hHere, hToken, hEnds, hFirst, hFlows⟩
    refine ⟨isEndpoint_succ_iff.mpr hEnds, ?_, ?_⟩
    · intro m hm hEarlier
      cases m with
      | zero => exact hHere hEarlier
      | succ m =>
          apply hFirst m (by omega)
          exact isEndpoint_succ_iff.mp hEarlier
    · rw [List.take_succ_cons, List.all_cons, hToken, hFlows]
      rfl

/- No block ends at a token without a head. -/
theorem not_isEndpoint_zero
    (hHead : token.head? = none) :
    ¬ IsEndpoint name opened balance (token :: rest) 0 := by
  intro h
  have hMark := h.mark
  simp [Token.isEndOf, Token.impliesEndOf, hHead] at hMark

/- A class in two parts. -/
theorem isAmong_append
    (names others : List String)
    (name : Text) :
    isAmong (names ++ others) name =
      (isAmong names name || isAmong others name) := by
  exact List.any_append

/-
  The blocks whose end tags may be omitted.  The choices of
  a form are none, although their end tags may be, too.
-/
theorem isAutoClosing_eq
    (hBlock : isCollapsible name = true) :
    isAutoClosing name =
      isAmong ["p", "li", "dt", "dd"] name := by
  have hChoice : isAmong ["option"] name = false :=
    isAmong_eq_false rfl hBlock
  calc
    isAutoClosing name =
        isAmong (["p", "li", "dt", "dd"] ++ ["option"]) name :=
      rfl
    _ = (isAmong ["p", "li", "dt", "dd"] name ||
          isAmong ["option"] name) :=
      isAmong_append _ _ name
    _ = isAmong ["p", "li", "dt", "dd"] name := by
      rw [hChoice, Bool.or_false]

/- A block ends at the tags where the search stops. -/
theorem isEndpoint_zero_iff
    {s : Text}
    {head : Tag.Head}
    (rest : List Token)
    (hBlock : isCollapsible name = true)
    (hRead : Tag.head? (s.trim isBlank) = some head) :
    IsEndpoint name opened balance (.tag s :: rest) 0 ↔
      Stops name opened balance head := by
  have hHead : Token.head? (.tag s) = some head := hRead
  have hMark :
      ((Token.tag s :: rest)[0]?.any fun token =>
          token.isEndOf name ||
            token.impliesEndOf name opened) = true ↔
        head.isEnd = true ∧
            Text.sameLetters head.name name = true ∨
          isAutoClosing name = true ∧
            impliesEnd name opened head = true := by
    rw [isAutoClosing_eq hBlock]
    simp [Token.isEndOf, Token.impliesEndOf, hHead, impliesEnd,
      isOpen]
  unfold Stops
  rw [← hMark]
  constructor
  · rintro ⟨hLevel, hEnds⟩
    exact ⟨by simpa [surplus] using hLevel, hEnds⟩
  · rintro ⟨hLevel, hEnds⟩
    exact ⟨by simpa [surplus] using hLevel, hEnds⟩

end Markup

end WebTidy

------------------------------------------------------------
-- The Search
------------------------------------------------------------

namespace WebTidy

namespace Markup

variable
  {name : Text}
  {opened : List Text}
  {balance : Int}
  {tokens rest : List Token}
  {n : Nat}

/- The way in which a token ends a block of a name. -/
def endingAt
    (name : Text) :
    Token → Ending
| .tag s =>
    if Token.isEndOf name (.tag s) then .written s
    else .implied
| _ => .implied

/- What the search finds at a tag where it stops. -/
theorem findSpan_of_stops
    {s : Text}
    {head : Tag.Head}
    (rest : List Token)
    (hRead : Tag.head? (s.trim isBlank) = some head)
    (h : Stops name opened balance head) :
    findSpan name opened balance (.tag s :: rest) =
      .ok (some ⟨[], endingAt name (.tag s)⟩) := by
  have hHead : Token.head? (.tag s) = some head := hRead
  have hEndOf :
      Token.isEndOf name (.tag s) = true ↔
        head.isEnd = true ∧
          Text.sameLetters head.name name = true := by
    simp [Token.isEndOf, hHead]
  rw [findSpan, hRead, endingAt]
  simp only [hEndOf, h.1, true_and]
  split
  · rfl
  · rename_i hOther
    rw [if_pos (h.2.resolve_left hOther)]

/- The search goes on behind a token that ends no block. -/
theorem findSpan_of_isFlowing
    {token : Token}
    (hBlock : isCollapsible name = true)
    (hFlows : token.isFlowing = true)
    (hGo :
      ¬ IsEndpoint name opened balance (token :: rest) 0) :
    findSpan name opened balance (token :: rest) =
      (findSpan name opened (balance + surplus [token])
        rest).map (Option.map (.cons token)) := by
  cases token with
  | text s =>
      rw [surplus_text, Int.add_zero, findSpan]
      rfl
  | tag s =>
      rcases (Option.any_eq_true _ _).mp hFlows with
        ⟨head, hRead, hInline⟩
      rw [isEndpoint_zero_iff rest hBlock hRead] at hGo
      rcases findSpan_tag_cases name opened balance rest hRead
        with ⟨hStops, _⟩ | ⟨_, hFound⟩
      · exact absurd hStops hGo
      · rw [hFound, if_pos hInline, surplus_tag hRead]
  | verbatim s => cases hFlows
  | comment s => cases hFlows

/- The search finds the extent of a block. -/
theorem findSpan_of_isExtent
    (hBlock : isCollapsible name = true)
    (h : IsExtent name opened balance tokens n) :
    ∃ token,
      tokens[n]? = some token ∧
      findSpan name opened balance tokens =
        .ok (some ⟨tokens.take n, endingAt name token⟩) := by
  induction tokens generalizing balance n with
  | nil => exact absurd h.ends.mark (by simp)
  | cons token rest ih =>
      cases n with
      | zero =>
          rw [isExtent_zero_iff] at h
          cases hHead : token.head? with
          | none => exact absurd h (not_isEndpoint_zero hHead)
          | some head =>
              cases token with
              | tag s =>
                  have hStops :=
                    (isEndpoint_zero_iff rest hBlock hHead).mp h
                  exact ⟨_, rfl,
                    findSpan_of_stops rest hHead hStops⟩
              | text s => cases hHead
              | verbatim s => cases hHead
              | comment s => cases hHead
      | succ n =>
          rcases isExtent_succ_iff.mp h with
            ⟨hGo, hFlows, hRest⟩
          rcases ih hRest with ⟨other, hOther, hFound⟩
          refine ⟨other, hOther, ?_⟩
          rw [findSpan_of_isFlowing hBlock hFlows hGo, hFound]
          rfl

/-
  A block ends ahead exactly if it has an extent.  Where it
  ends in front of a tag that is inline itself, that tag
  comes first.
-/
theorem endsAhead_iff
    (hBlock : isCollapsible name = true)
    (hShaped : ∀ token ∈ tokens, token.IsShaped) :
    EndsAhead name opened balance tokens ↔
      ∃ n, IsExtent name opened balance tokens n := by
  constructor
  · intro h
    clear hShaped
    induction h with
    | @here balance s head rest hRead hStops =>
        refine ⟨0, isExtent_zero_iff.mpr ?_⟩
        exact (isEndpoint_zero_iff rest hBlock hRead).mpr hStops
    | @text balance s rest hRest ih =>
        rcases ih with ⟨n, hExtent⟩
        refine ⟨n + 1, ?_⟩
        refine isExtent_succ_iff.mpr ⟨?_, rfl, ?_⟩
        · exact not_isEndpoint_zero rfl
        · rwa [surplus_text, Int.add_zero]
    | @inline balance s head rest hRead hInline hRest ih =>
        rcases ih with ⟨n, hExtent⟩
        by_cases hEnds :
            IsEndpoint name opened balance (.tag s :: rest) 0
        · exact ⟨0, isExtent_zero_iff.mpr hEnds⟩
        · refine ⟨n + 1, ?_⟩
          refine isExtent_succ_iff.mpr ⟨hEnds, ?_, ?_⟩
          · exact (Option.any_eq_true _ _).mpr
              ⟨head, hRead, hInline⟩
          · rwa [surplus_tag hRead]
  · rintro ⟨n, h⟩
    rcases findSpan_of_isExtent hBlock h with ⟨_, _, hFound⟩
    by_contra hNone
    rw [← findSpan_eq_none_iff hShaped, hFound] at hNone
    cases hNone

end Markup

end WebTidy

------------------------------------------------------------
-- The Line
------------------------------------------------------------

namespace WebTidy

namespace Markup

/-
  How a block with some tokens inside ends at the token
  behind them: how many tokens are taken, and what closes
  the line.  An end tag of the block is taken and written in
  normal form; in front of any other tag one is supplied.
-/
inductive ClosedBy
    (name : Text)
    (n : Nat) :
    Token → Nat → Text → Prop
| written
    {s : Text}
    (hEnd : Token.isEndOf name (.tag s) = true) :
    ClosedBy name n (.tag s) (n + 1)
      (Tag.normalize (s.trim isBlank))
| supplied
    {token : Token}
    (hOther : token.isEndOf name = false) :
    ClosedBy name n token n (endTag name.lower)

/- What flows inside a block may stand on its line. -/
theorem isInlineToken_eq_isFlowing :
    isInlineToken = Token.isFlowing := by
  funext token
  cases token with
  | text s => rfl
  | verbatim s => rfl
  | comment s => rfl
  | tag s =>
      change isInline (tagName s) =
        (Tag.head? (s.trim isBlank)).any (isInline ·.name)
      rw [tagName]
      cases Tag.head? (s.trim isBlank) with
      | none => rfl
      | some head => rfl

/- How the line of a block is closed. -/
theorem closedBy_endingAt
    (name : Text)
    (between : List Token)
    (token : Token) :
    ClosedBy name between.length token
      (Span.taken ⟨between, endingAt name token⟩)
      ((endingAt name token).text name) := by
  cases token with
  | tag s =>
      rw [endingAt]
      split
      · rename_i hEnd
        exact .written hEnd
      · rename_i hOther
        exact .supplied (Bool.not_eq_true _ ▸ hOther)
  | text s => exact .supplied rfl
  | verbatim s => exact .supplied rfl
  | comment s => exact .supplied rfl

variable
  {document source : Text}
  {front rest : List Token}
  {head : Tag.Head}

/-
  Where a block is set on one line.  In every document and
  every nesting, the search from a start tag of a block
  finds something exactly if the block has an extent.  The
  line at the current indentation then holds the start tag,
  what is inside without blanks at its ends, and the end
  tag, and the nesting is what it was.  Otherwise the start
  tag is laid out alone.
-/
theorem exists_step_extent
    (format : StyleFormatter)
    (nest : Nest)
    (hTokens :
      Token.scan document = front ++ .tag source :: rest)
    (hRead : Tag.head? (source.trim isBlank) = some head)
    (hStart : head.isEnd = false)
    (hBlock : isCollapsible head.name = true) :
    ∃ found,
      span? nest head rest = .ok found ∧
      (found.isSome = true ↔
        ∃ n, IsExtent head.name nest.opened 0 rest n) ∧
      (found = none →
        step format nest rest (.tag source) =
          .ok
            { items :=
                (element nest (source.trim isBlank) head).1
              nest :=
                (element nest (source.trim isBlank) head).2 }) ∧
      ∀ n,
        IsExtent head.name nest.opened 0 rest n →
        ∃ token taken closing parts,
          rest[n]? = some token ∧
          ClosedBy head.name n token taken closing ∧
          List.Forall₂ Inscribed (rest.take n) parts ∧
          step format nest rest (.tag source) =
            .ok
              { items :=
                  [.joined head.name (n + 2),
                    nest.line
                      (Tag.normalize (source.trim isBlank) ++
                        Text.trim isBlank parts.flatten ++
                        closing)]
                nest := nest
                taken := taken } := by
  have hShaped : ∀ token ∈ rest, token.IsShaped := by
    intro token hToken
    apply Token.isShaped_of_mem_scan (s := document)
    rw [hTokens]
    simp [hToken]
  rcases @exists_span? nest rest head hShaped hStart with
    ⟨found, hFound, hNone⟩
  refine ⟨found, hFound, ?_, ?_, ?_⟩
  · rw [← endsAhead_iff hBlock hShaped,
      Option.isSome_iff_ne_none, Ne, hNone, not_not]
    simp [hBlock]
  · rintro rfl
    exact step_tag format hRead hFound rfl
  · intro n hExtent
    rcases findSpan_of_isExtent hBlock hExtent with
      ⟨token, hToken, hSpan⟩
    have hInside : n < rest.length :=
      (List.getElem?_eq_some_iff.mp hToken).1
    have hLength : (rest.take n).length = n :=
      List.length_take_of_le hInside.le
    have hJoins :
        span? nest head rest =
          .ok (some
            ⟨rest.take n, endingAt head.name token⟩) := by
      rw [span?, if_pos (by simp [hStart, hBlock]), hSpan]
    have hClosed :=
      closedBy_endingAt head.name (rest.take n) token
    rw [hLength] at hClosed
    have hFlows :
        (rest.take n).all isInlineToken = true := by
      rw [isInlineToken_eq_isFlowing]
      exact hExtent.flows
    refine ⟨token, _, _, _, hToken, hClosed,
      (forall₂_inscribed_iff hFlows).mpr rfl, ?_⟩
    rw [step_joined format hRead hJoins, Span.size, Span.line,
      hLength]
    rfl

/- A paragraph in a cell, with end tags out of order. -/
def crossedCell :
    Text :=
  "<td><p>a </b> <b><i>x</td>\n c</td>".toList

/-
  One end tag too many is made up for by a start tag.  The
  first end tag of the cell is then inside the paragraph,
  because an element is open there; the second one ends it.
-/
theorem exists_step_crossedCell :
    ∃ found,
      span? ⟨1, ["td".toList]⟩ ⟨"p".toList, false, false⟩
          ((Token.scan crossedCell).drop 2) =
        .ok found ∧
      found.isSome = true ∧
      step .ok ⟨1, ["td".toList]⟩
          ((Token.scan crossedCell).drop 2)
          (.tag "<p>".toList) =
        .ok
          { items :=
              [.joined "p".toList 10,
                .line 1 "<p>a </b> <b><i>x</td> c</p>".toList]
            nest := ⟨1, ["td".toList]⟩
            taken := 8 } := by
  have hTokens :
      Token.scan crossedCell =
        [.tag "<td>".toList] ++ .tag "<p>".toList ::
          (Token.scan crossedCell).drop 2 := by
    decide +kernel
  have hExtent :
      IsExtent "p".toList ["td".toList] 0
        ((Token.scan crossedCell).drop 2) 8 := by
    decide +kernel
  have hCell :
      ((Token.scan crossedCell).drop 2)[8]? =
        some (.tag "</td>".toList) := by
    decide +kernel
  rcases @exists_step_extent crossedCell "<p>".toList _ _
      ⟨"p".toList, false, false⟩ .ok ⟨1, ["td".toList]⟩
      hTokens (by decide) rfl (by decide) with
    ⟨found, hFound, hSome, _, hLine⟩
  refine ⟨found, hFound, hSome.mpr ⟨8, hExtent⟩, ?_⟩
  have hInline :
      (((Token.scan crossedCell).drop 2).take 8).all
        isInlineToken = true := by
    rw [isInlineToken_eq_isFlowing]
    exact hExtent.flows
  rcases hLine 8 hExtent with
    ⟨token, taken, closing, parts, hToken, hClosed, hParts,
      hStep⟩
  rw [hCell, Option.some_inj] at hToken
  subst hToken
  cases hClosed with
  | written hEnd => exact absurd hEnd (by decide)
  | supplied hOther =>
      rw [← (forall₂_inscribed_iff hInline).mp hParts] at hStep
      rw [hStep]
      decide +kernel

end Markup

end WebTidy
