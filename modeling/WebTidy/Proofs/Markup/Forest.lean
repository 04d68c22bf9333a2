import WebTidy.Proofs.CharRef
import WebTidy.Proofs.Markup.Walk

/-
  Well-nested documents and their pages.

  A forest is a sequence of leaves and elements, and its
  tokens are what the scanner of documents would find.  It
  has one page: every line is indented by the number of
  elements around it, and a block without blocks inside is
  one line, with what its tokens leave there.  The layout of
  the tokens is the page of the forest.

  Key definitions include:
    * `WebTidy.Markup.Forest`
    * `WebTidy.Markup.Forest.tokens`
    * `WebTidy.Markup.Forest.page`
    * `WebTidy.Markup.Inscribed`
    * `WebTidy.Markup.Forest.IsPage`
    * `WebTidy.Markup.WellNested`

  Key theorems include:
    * `WebTidy.Markup.Forest.isPage_iff`
    * `WebTidy.Markup.WellNested.findSpan_eq`
    * `WebTidy.Markup.WellNested.lays`
    * `WebTidy.Markup.walk_forest`
-/

------------------------------------------------------------
-- Forests
------------------------------------------------------------

namespace WebTidy

namespace Markup

/- A sequence of leaves and elements. -/
inductive Forest
| nil
| leaf (token : Token) (rest : Forest)
| element (start : Text) (inner : Forest) (finish : Text)
    (rest : Forest)
deriving DecidableEq, Repr

/- The tokens of a forest, in order. -/
def Forest.tokens :
    Forest → List Token
| .nil => []
| .leaf token rest => token :: rest.tokens
| .element start inner finish rest =>
    .tag start :: (inner.tokens ++ .tag finish :: rest.tokens)

/- The name of a tag; a text without a head has none. -/
def tagName
    (source : Text) :
    Text :=
  ((Tag.head? (source.trim isBlank)).map
    Tag.Head.name).getD []

/- A token that a block on one line may hold. -/
def isInlineToken :
    Token → Bool
| .text _ => true
| .tag source => isInline (tagName source)
| .verbatim _ => false
| .comment _ => false

/- A line at a depth. -/
def lineAt
    (depth : Nat)
    (content : Text) :
    Text :=
  List.replicate depth '\t' ++ content ++ ['\n']

/- The page of a leaf. -/
def leafPage
    (depth : Nat) :
    Token → Text
| .text source =>
    let text : Text := source.trim isBlank
    if text = [] then []
    else lineAt depth (CharRef.decode .text text)
| .tag source => lineAt depth (tagText source)
| .verbatim source => lineAt depth source
| .comment source => lineAt depth (source.trim isBlank)

/- The page of a forest at a depth. -/
def Forest.page
    (depth : Nat) :
    Forest → Text
| .nil => []
| .leaf token rest =>
    leafPage depth token ++ rest.page depth
| .element start inner finish rest =>
    let content : Text := inner.tokens.flatMap inlineText
    let element :=
      if isCollapsible (tagName start) ∧
          inner.tokens.all isInlineToken then
        lineAt depth
          (tagText start ++ content.trim isBlank ++
            tagText finish)
      else
        lineAt depth (tagText start) ++
          inner.page (depth + 1) ++
          lineAt depth (tagText finish)
    element ++ rest.page depth

/- The marks of conditional sections. -/
def isMarker
    (source : Text) :
    Bool :=
  Text.beginsWith "<![endif".toList (source.trim isBlank) ∨
    Text.beginsWith "<![if".toList (source.trim isBlank)

/-
  An element whose end tag may be omitted does not stand
  directly inside an element of its own name.
-/
def Fits
    (parent : Option Text)
    (head : Tag.Head) :
    Prop :=
  isAutoClosing head.name = true →
    parent ≠ some head.name.lower

instance
    (parent : Option Text)
    (head : Tag.Head) :
    Decidable (Fits parent head) :=
  inferInstanceAs
    (Decidable
      (isAutoClosing head.name = true →
        parent ≠ some head.name.lower))

/-
  Well-nested forests.  The first index is the lowercase
  name of the element around the forest, if there is one.
-/
inductive WellNested :
    Option Text → Forest → Prop
| nil
    {parent : Option Text} :
    WellNested parent .nil
| text
    {parent : Option Text}
    {source : Text}
    {rest : Forest}
    (hRest : WellNested parent rest) :
    WellNested parent (.leaf (.text source) rest)
| comment
    {parent : Option Text}
    {source : Text}
    {rest : Forest}
    (hMarker : isMarker source = false)
    (hRest : WellNested parent rest) :
    WellNested parent (.leaf (.comment source) rest)
| verbatim
    {parent : Option Text}
    {source : Text}
    {head : Tag.Head}
    {rest : Forest}
    (hRead : Tag.head? source = some head)
    (hStyle :
      Text.sameLetters head.name "style".toList = false)
    (hRest : WellNested parent rest) :
    WellNested parent (.leaf (.verbatim source) rest)
| void
    {parent : Option Text}
    {source : Text}
    {head : Tag.Head}
    {rest : Forest}
    (hRead : Tag.head? (source.trim isBlank) = some head)
    (hStart : head.isEnd = false)
    (hVoid : isVoid head.name = true)
    (hRest : WellNested parent rest) :
    WellNested parent (.leaf (.tag source) rest)
| selfClosing
    {parent : Option Text}
    {source : Text}
    {head : Tag.Head}
    {rest : Forest}
    (hRead : Tag.head? (source.trim isBlank) = some head)
    (hStart : head.isEnd = false)
    (hSelf : head.selfClosing = true)
    (hName : head.name ≠ [])
    (hBlock : isCollapsible head.name = false)
    (hFits : Fits parent head)
    (hRest : WellNested parent rest) :
    WellNested parent (.leaf (.tag source) rest)
| declaration
    {parent : Option Text}
    {source : Text}
    {rest : Forest}
    (hDeclaration :
      Tag.isDeclaration (source.trim isBlank) = true)
    (hDoctype : Tag.isDoctype (source.trim isBlank) = false)
    (hRest : WellNested parent rest) :
    WellNested parent (.leaf (.tag source) rest)
| element
    {parent : Option Text}
    {start finish : Text}
    {head tail : Tag.Head}
    {inner rest : Forest}
    (hRead : Tag.head? (start.trim isBlank) = some head)
    (hStart : head.isEnd = false)
    (hSelf : head.selfClosing = false)
    (hName : head.name ≠ [])
    (hVoid : isVoid head.name = false)
    (hFits : Fits parent head)
    (hInner : WellNested (some head.name.lower) inner)
    (hFinish : Tag.head? (finish.trim isBlank) = some tail)
    (hEnd : tail.isEnd = true)
    (hSame : Text.sameLetters tail.name head.name = true)
    (hRest : WellNested parent rest) :
    WellNested parent (.element start inner finish rest)

end Markup

end WebTidy

------------------------------------------------------------
-- Pages
------------------------------------------------------------

namespace WebTidy

namespace Markup

/-
  A token as it stands on a line: a tag in normal form, or
  a text with its references decoded and its runs of blanks
  folded.
-/
inductive Inscribed :
    Token → Text → Prop
| tag
    (s : Text) :
    Inscribed (.tag s) (Tag.normalize (s.trim isBlank))
| text
    {s decoded folded : Text}
    (hDecodes : CharRef.Decodes .text s decoded)
    (hFolds : Text.Folds isBlank decoded folded) :
    Inscribed (.text s) folded

/-
  A leaf at a depth, as it stands on a page.  A text without
  visible characters leaves nothing there.
-/
inductive IsLeafPage
    (depth : Nat) :
    Token → Text → Prop
| blank
    {s : Text}
    (hBlank : s.all isBlank = true) :
    IsLeafPage depth (.text s) []
| text
    {s decoded : Text}
    (hVisible : s.all isBlank = false)
    (hDecodes :
      CharRef.Decodes .text (s.trim isBlank) decoded) :
    IsLeafPage depth (.text s) (lineAt depth decoded)
| tag
    (s : Text) :
    IsLeafPage depth (.tag s)
      (lineAt depth (Tag.normalize (s.trim isBlank)))
| verbatim
    (s : Text) :
    IsLeafPage depth (.verbatim s) (lineAt depth s)
| comment
    (s : Text) :
    IsLeafPage depth (.comment s)
      (lineAt depth (s.trim isBlank))

/-
  The page of a forest at a depth.  A block that holds texts
  and tags of inline elements only is one line, with what
  these tokens leave on it; any other element has a line for
  each of its tags, and what is inside stands one deeper.
-/
inductive Forest.IsPage :
    Nat → Forest → Text → Prop
| nil
    (depth : Nat) :
    Forest.IsPage depth .nil []
| leaf
    {depth : Nat}
    {token : Token}
    {rest : Forest}
    {line page : Text}
    (hLeaf : IsLeafPage depth token line)
    (hRest : Forest.IsPage depth rest page) :
    Forest.IsPage depth (.leaf token rest) (line ++ page)
| joined
    {depth : Nat}
    {start finish page : Text}
    {inner rest : Forest}
    {parts : List Text}
    (hBlock : isCollapsible (tagName start) = true)
    (hInline : inner.tokens.all isInlineToken = true)
    (hParts : List.Forall₂ Inscribed inner.tokens parts)
    (hRest : Forest.IsPage depth rest page) :
    Forest.IsPage depth (.element start inner finish rest)
      (lineAt depth
        (Tag.normalize (start.trim isBlank) ++
          Text.trim isBlank parts.flatten ++
          Tag.normalize (finish.trim isBlank)) ++ page)
| nested
    {depth : Nat}
    {start finish content page : Text}
    {inner rest : Forest}
    (hOther :
      ¬ (isCollapsible (tagName start) = true ∧
        inner.tokens.all isInlineToken = true))
    (hInner : Forest.IsPage (depth + 1) inner content)
    (hRest : Forest.IsPage depth rest page) :
    Forest.IsPage depth (.element start inner finish rest)
      (lineAt depth (Tag.normalize (start.trim isBlank)) ++
        content ++
        lineAt depth (Tag.normalize (finish.trim isBlank)) ++
        page)

/- What a line holds for a token that may stand on it. -/
theorem inscribed_iff
    {token : Token}
    {part : Text}
    (hInline : isInlineToken token = true) :
    Inscribed token part ↔ inlineText token = part := by
  cases token with
  | text s =>
      constructor
      · rintro (_ | ⟨hDecodes, hFolds⟩)
        rw [inlineText, CharRef.decodes_iff.mp hDecodes,
          Text.folds_iff.mp hFolds]
      · intro h
        exact .text (CharRef.decodes_decode .text s)
          (Text.folds_iff.mpr h)
  | tag s =>
      constructor
      · rintro (_ | _)
        rfl
      · rintro rfl
        exact .tag s
  | verbatim s => cases hInline
  | comment s => cases hInline

/- What it holds for all of them. -/
theorem forall₂_inscribed_iff
    {tokens : List Token}
    {parts : List Text}
    (hInline : tokens.all isInlineToken = true) :
    List.Forall₂ Inscribed tokens parts ↔
      tokens.map inlineText = parts := by
  induction tokens generalizing parts with
  | nil =>
      rw [List.forall₂_nil_left_iff, List.map_nil, eq_comm]
  | cons token rest ih =>
      rw [List.all_cons, Bool.and_eq_true] at hInline
      rw [List.forall₂_cons_left_iff, List.map_cons]
      constructor
      · rintro ⟨part, more, hPart, hMore, rfl⟩
        rw [(inscribed_iff hInline.1).mp hPart,
          (ih hInline.2).mp hMore]
      · rintro rfl
        exact ⟨_, _, (inscribed_iff hInline.1).mpr rfl,
          (ih hInline.2).mpr rfl, rfl⟩

/- Every leaf has one page. -/
theorem isLeafPage_iff
    {depth : Nat}
    {token : Token}
    {page : Text} :
    IsLeafPage depth token page ↔
      leafPage depth token = page := by
  constructor
  · intro h
    cases h with
    | blank hBlank =>
        exact if_pos (Text.trim_eq_nil_iff.mpr hBlank)
    | text hVisible hDecodes =>
        rw [← Bool.not_eq_true, ← Text.trim_eq_nil_iff]
          at hVisible
        rw [← CharRef.decodes_iff.mp hDecodes]
        exact if_neg hVisible
    | tag s => rfl
    | verbatim s => rfl
    | comment s => rfl
  · rintro rfl
    cases token with
    | text s =>
        cases hBlank : s.all isBlank with
        | true =>
            have hNone := Text.trim_eq_nil_iff.mpr hBlank
            rw [leafPage, if_pos hNone]
            exact .blank hBlank
        | false =>
            have hSome : ¬ s.trim isBlank = [] := by
              rw [Text.trim_eq_nil_iff, hBlank]
              exact Bool.false_ne_true
            rw [leafPage, if_neg hSome]
            exact .text hBlank (CharRef.decodes_decode .text _)
    | tag s => exact .tag s
    | verbatim s => exact .verbatim s
    | comment s => exact .comment s

/- So has every forest. -/
theorem Forest.isPage_iff
    {depth : Nat}
    {forest : Forest}
    {page : Text} :
    forest.IsPage depth page ↔ forest.page depth = page := by
  constructor
  · intro h
    induction h with
    | nil => rfl
    | leaf hLeaf hRest ih =>
        rw [Forest.page, isLeafPage_iff.mp hLeaf, ih]
    | joined hBlock hInline hParts hRest ih =>
        rw [← (forall₂_inscribed_iff hInline).mp hParts,
          ← List.flatMap_def, Forest.page,
          if_pos ⟨hBlock, hInline⟩, ih]
        rfl
    | nested hOther hInner hRest ihInner ihRest =>
        rw [Forest.page, if_neg hOther, ihInner, ihRest]
        rfl
  · rintro rfl
    induction forest generalizing depth with
    | nil => exact .nil depth
    | leaf token rest ih =>
        exact .leaf (isLeafPage_iff.mpr rfl) ih
    | element start inner finish rest ihInner ihRest =>
        rw [Forest.page]
        by_cases hJoined :
            isCollapsible (tagName start) = true ∧
              inner.tokens.all isInlineToken = true
        · rw [if_pos hJoined, List.flatMap_def]
          exact .joined hJoined.1 hJoined.2
            ((forall₂_inscribed_iff hJoined.2).mpr rfl) ihRest
        · rw [if_neg hJoined]
          exact .nested hJoined ihInner ihRest

end Markup

end WebTidy

------------------------------------------------------------
-- Blocks On One Line
------------------------------------------------------------

namespace WebTidy

namespace Markup

/- The name of a tag with a known head. -/
theorem tagName_eq
    {source : Text}
    {head : Tag.Head}
    (hRead : Tag.head? (source.trim isBlank) = some head) :
    tagName source = head.name := by
  unfold tagName
  rw [hRead]
  rfl

/- Tokens in front of the content of a block. -/
def Span.prepend
    (tokens : List Token)
    (span : Span) :
    Span :=
  { span with between := tokens ++ span.between }

/- A search behind tokens that a line may hold. -/
def foundBehind
    (tokens : List Token)
    (found : Except Fault (Option Span)) :
    Except Fault (Option Span) :=
  if tokens.all isInlineToken then
    found.map (Option.map (Span.prepend tokens))
  else .ok none

/- No tokens stand in the way of a search. -/
theorem foundBehind_nil
    (found : Except Fault (Option Span)) :
    foundBehind [] found = found := by
  unfold foundBehind
  cases found with
  | error fault => rfl
  | ok span => cases span <;> rfl

/- A search behind tokens behind other tokens. -/
theorem foundBehind_append
    (tokens more : List Token)
    (found : Except Fault (Option Span)) :
    foundBehind tokens (foundBehind more found) =
      foundBehind (tokens ++ more) found := by
  unfold foundBehind
  rw [List.all_append]
  cases tokens.all isInlineToken with
  | false => rfl
  | true =>
      cases more.all isInlineToken with
      | false => rfl
      | true =>
          cases found with
          | error fault => rfl
          | ok span =>
              cases span with
              | none => rfl
              | some span => simp [Except.map, Span.prepend]

/- The search passes over a text. -/
theorem findSpan_text
    (name : Text)
    (opened : List Text)
    (balance : Int)
    (source : Text)
    (rest : List Token) :
    findSpan name opened balance (.text source :: rest) =
      foundBehind [.text source]
        (findSpan name opened balance rest) := by
  rw [findSpan]
  cases findSpan name opened balance rest with
  | error fault => rfl
  | ok span => cases span <;> rfl

/- The search passes over a tag that does not end it. -/
theorem findSpan_tag
    {name : Text}
    {opened : List Text}
    {balance : Int}
    {source : Text}
    {head : Tag.Head}
    (rest : List Token)
    (hRead : Tag.head? (source.trim isBlank) = some head)
    (hWritten :
      balance = 0 → head.isEnd = false ∨
        Text.sameLetters head.name name = false)
    (hImplied :
      balance = 0 → isAutoClosing name = true →
        impliesEnd name opened head = false) :
    findSpan name opened balance (.tag source :: rest) =
      foundBehind [.tag source]
        (findSpan name opened (balance + balanceOf head)
          rest) := by
  have hInline :
      [Token.tag source].all isInlineToken =
        isInline head.name := by
    rw [List.all_cons, isInlineToken, tagName_eq hRead,
      List.all_nil, Bool.and_true]
  rw [findSpan, hRead]
  simp only
  rw [if_neg, if_neg]
  · unfold foundBehind
    rw [hInline]
    cases isInline head.name with
    | false => rfl
    | true =>
        cases findSpan name opened
            (balance + balanceOf head) rest with
        | error fault => rfl
        | ok span => cases span <;> rfl
  · rintro ⟨hZero, hAuto, hEnds⟩
    rw [hImplied hZero hAuto] at hEnds
    cases hEnds
  · rintro ⟨hZero, hEnd, hSame⟩
    rcases hWritten hZero with hStart | hOther
    · rw [hStart] at hEnd
      cases hEnd
    · rw [hOther] at hSame
      cases hSame

/- The search does not pass over any other token. -/
theorem findSpan_other
    {token : Token}
    (name : Text)
    (opened : List Text)
    (balance : Int)
    (rest tokens : List Token)
    (found : Except Fault (Option Span))
    (hToken :
      (∃ source, token = .verbatim source) ∨
        ∃ source, token = .comment source) :
    findSpan name opened balance (token :: rest) =
      foundBehind (token :: tokens) found := by
  rcases hToken with ⟨source, rfl⟩ | ⟨source, rfl⟩
  · rfl
  · rfl

/- A tag that fits into a block does not end it. -/
theorem impliesEnd_of_fits
    {name : Text}
    {opened : List Text}
    {head : Tag.Head}
    (hStart : head.isEnd = false)
    (hFits : Fits (some name.lower) head)
    (hAuto : isAutoClosing name = true) :
    impliesEnd name opened head = false := by
  unfold impliesEnd
  rw [hStart, if_neg (by simp)]
  cases hSame : Text.sameLetters head.name name with
  | false => rfl
  | true =>
      have hLower : head.name.lower = name.lower := by
        unfold Text.sameLetters at hSame
        exact of_decide_eq_true hSame
      have hClass : isAutoClosing head.name = true := by
        rw [← hAuto]
        exact isAmong_congr _ hLower
      exact absurd (congrArg some hLower.symm) (hFits hClass)

/-
  The search passes over a leaf.  One that leaves the count
  as it is may be inline, any other is not.
-/
theorem findSpan_leaf
    {parent : Option Text}
    {name : Text}
    {opened : List Text}
    {balance : Int}
    {source : Text}
    {head : Tag.Head}
    (rest : List Token)
    (hBalance :
      0 < balance ∨ balance = 0 ∧ parent = some name.lower)
    (hRead : Tag.head? (source.trim isBlank) = some head)
    (hStart : head.isEnd = false)
    (hFits : Fits parent head)
    (hLeaf :
      head.selfClosing = true ∨ isInline head.name = false) :
    findSpan name opened balance (.tag source :: rest) =
      foundBehind [.tag source]
        (findSpan name opened balance rest) := by
  have hTag :
      findSpan name opened balance (.tag source :: rest) =
        foundBehind [.tag source]
          (findSpan name opened (balance + balanceOf head)
            rest) := by
    apply findSpan_tag rest hRead
    · intro _
      exact Or.inl hStart
    · intro hZero hAuto
      rcases hBalance with hPos | ⟨_, rfl⟩
      · omega
      · exact impliesEnd_of_fits hStart hFits hAuto
  rw [hTag]
  rcases hLeaf with hSelf | hOther
  · have hZero : balanceOf head = 0 := by
      unfold balanceOf
      rw [hStart, hSelf]
      rfl
    rw [hZero, Int.add_zero]
  · unfold foundBehind
    rw [List.all_cons, isInlineToken, tagName_eq hRead,
      hOther]
    rfl

/- A void element or a declaration fits everywhere. -/
theorem fits_of_isAutoClosing
    (parent : Option Text)
    {head : Tag.Head}
    (h : isAutoClosing head.name = false) :
    Fits parent head := by
  intro hAuto
  rw [h] at hAuto
  cases hAuto

/-
  In front of a well-nested forest, the search for the end
  of the block around it comes out behind the forest, or
  fails at the first token that is not inline.
-/
theorem WellNested.findSpan_eq
    {parent : Option Text}
    {forest : Forest}
    {name : Text}
    {balance : Int}
    (h : WellNested parent forest)
    (hBalance :
      0 < balance ∨ balance = 0 ∧ parent = some name.lower)
    (opened : List Text)
    (rest : List Token) :
    findSpan name opened balance (forest.tokens ++ rest) =
      foundBehind forest.tokens
        (findSpan name opened balance rest) := by
  induction h generalizing balance rest with
  | nil => exact (foundBehind_nil _).symm
  | @text parent source forest hRest ih =>
      rw [Forest.tokens, List.cons_append, findSpan_text,
        ih hBalance, foundBehind_append]
      rfl
  | @comment parent source forest hMarker hRest ih =>
      rw [Forest.tokens, List.cons_append]
      exact findSpan_other _ _ _ _ _ _ (Or.inr ⟨source, rfl⟩)
  | @verbatim parent source head forest hRead hStyle hRest
      ih =>
      rw [Forest.tokens, List.cons_append]
      exact findSpan_other _ _ _ _ _ _ (Or.inl ⟨source, rfl⟩)
  | @void parent source head forest hRead hStart hVoid hRest
      ih =>
      have hApart := isVoid_apart hVoid
      have hFits := fits_of_isAutoClosing parent hApart.2.2
      rw [Forest.tokens, List.cons_append,
        findSpan_leaf _ hBalance hRead hStart hFits
          (Or.inr hApart.2.1),
        ih hBalance, foundBehind_append]
      rfl
  | @selfClosing parent source head forest hRead hStart
      hSelf hName hBlock hFits hRest ih =>
      rw [Forest.tokens, List.cons_append,
        findSpan_leaf _ hBalance hRead hStart hFits
          (Or.inl hSelf),
        ih hBalance, foundBehind_append]
      rfl
  | @declaration parent source forest hDeclaration hDoctype
      hRest ih =>
      rcases Tag.exists_head_of_isDeclaration hDeclaration
        with ⟨head, hRead, hName, hStart⟩
      have hInline : isInline head.name = false := by
        rw [hName]
        rfl
      have hFits : Fits parent head := by
        apply fits_of_isAutoClosing
        rw [hName]
        rfl
      rw [Forest.tokens, List.cons_append,
        findSpan_leaf _ hBalance hRead hStart hFits
          (Or.inr hInline),
        ih hBalance, foundBehind_append]
      rfl
  | @element parent start finish head tail inner forest
      hRead hStart hSelf hName hVoid hFits hInner hFinish hEnd
      hSame hRest ihInner ihRest =>
      have hUp : balanceOf head = 1 := by
        unfold balanceOf
        rw [hStart, hSelf]
        rfl
      have hDown : balanceOf tail = -1 := by
        unfold balanceOf
        rw [hEnd]
        rfl
      have hInside : 0 < balance + 1 := by
        rcases hBalance with hPos | ⟨hZero, _⟩
        · omega
        · omega
      have hOpen (more : List Token) :
          findSpan name opened balance (.tag start :: more) =
            foundBehind [.tag start]
              (findSpan name opened (balance + 1) more) := by
        rw [← hUp]
        apply findSpan_tag more hRead
        · intro _
          exact Or.inl hStart
        · intro hZero hAuto
          rcases hBalance with hPos | ⟨_, rfl⟩
          · omega
          · exact impliesEnd_of_fits hStart hFits hAuto
      have hClose (more : List Token) :
          findSpan name opened (balance + 1)
              (.tag finish :: more) =
            foundBehind [.tag finish]
              (findSpan name opened balance more) := by
        have hTag :
            findSpan name opened (balance + 1)
                (.tag finish :: more) =
              foundBehind [.tag finish]
                (findSpan name opened
                  (balance + 1 + balanceOf tail) more) := by
          apply findSpan_tag more hFinish
          · intro hZero
            omega
          · intro hZero
            omega
        rw [hTag, hDown, Int.add_neg_cancel_right]
      rw [Forest.tokens, List.cons_append, hOpen,
        List.append_assoc, ihInner (Or.inl hInside),
        List.cons_append, hClose, ihRest hBalance,
        foundBehind_append, foundBehind_append,
        foundBehind_append, List.append_assoc,
        List.append_assoc]
      rfl

end Markup

end WebTidy

------------------------------------------------------------
-- Tokens And Their Pages
------------------------------------------------------------

namespace WebTidy

namespace Markup

/-
  Tokens that are laid out as a page and lead from one
  nesting to another, whatever follows them.
-/
def Lays
    (format : StyleFormatter)
    (nest : Nest)
    (tokens : List Token)
    (page : Text)
    (after : Nest) :
    Prop :=
  ∃ items : List Item,
    items.flatMap Item.text = page ∧
    ∀ rest,
      walk format nest (tokens ++ rest) =
        (walk format after rest).map
          fun more => (items ++ more.1, more.2)

/- No tokens are an empty page. -/
theorem lays_nil
    (format : StyleFormatter)
    (nest : Nest) :
    Lays format nest [] [] nest := by
  refine ⟨[], rfl, ?_⟩
  intro rest
  rw [List.nil_append]
  cases walk format nest rest with
  | error fault => rfl
  | ok more => rfl

/- Pages follow one another. -/
theorem Lays.append
    {format : StyleFormatter}
    {first second third : Nest}
    {tokens more : List Token}
    {page next : Text}
    (hFirst : Lays format first tokens page second)
    (hSecond : Lays format second more next third) :
    Lays format first (tokens ++ more) (page ++ next)
      third := by
  rcases hFirst with ⟨items, rfl, hItems⟩
  rcases hSecond with ⟨others, rfl, hOthers⟩
  refine ⟨items ++ others, List.flatMap_append, ?_⟩
  intro rest
  rw [List.append_assoc, hItems, hOthers]
  cases walk format third rest with
  | error fault => rfl
  | ok last =>
      simp only [Except.map, List.append_assoc]

/- A step that takes one token, and what follows it. -/
theorem Lays.cons
    {format : StyleFormatter}
    {nest next after : Nest}
    {token : Token}
    {tokens : List Token}
    {items : List Item}
    {page : Text}
    (hStep :
      ∀ rest,
        step format nest (tokens ++ rest) token =
          .ok { items := items, nest := next })
    (hRest : Lays format next tokens page after) :
    Lays format nest (token :: tokens)
      (items.flatMap Item.text ++ page) after := by
  rcases hRest with ⟨others, rfl, hOthers⟩
  refine ⟨items ++ others, List.flatMap_append, ?_⟩
  intro rest
  rw [List.cons_append, walk_cons (hStep rest)]
  simp only [List.drop_zero]
  rw [hOthers]
  cases walk format after rest with
  | error fault => rfl
  | ok last =>
      simp only [Except.map, List.append_assoc]

/- A step that takes a line's worth of tokens. -/
theorem lays_block
    {format : StyleFormatter}
    {nest : Nest}
    {token : Token}
    {taken : List Token}
    {items : List Item}
    (h :
      ∀ rest,
        step format nest (taken ++ rest) token =
          .ok
            { items := items
              nest := nest
              taken := taken.length }) :
    Lays format nest (token :: taken)
      (items.flatMap Item.text) nest := by
  refine ⟨items, rfl, ?_⟩
  intro rest
  rw [List.cons_append, walk_cons (h rest), List.drop_left]

end Markup

end WebTidy

------------------------------------------------------------
-- Steps Of A Forest
------------------------------------------------------------

namespace WebTidy

namespace Markup

/- One line on a page. -/
theorem flatMap_line
    (depth : Nat)
    (content : Text) :
    [Item.line depth content].flatMap Item.text =
      lineAt depth content := by
  exact List.append_nil _

/- Only a start tag of a block begins a block. -/
theorem span?_eq_none
    (nest : Nest)
    {head : Tag.Head}
    (rest : List Token)
    (h :
      head.isEnd = true ∨ isCollapsible head.name = false) :
    span? nest head rest = .ok none := by
  unfold span?
  rw [if_neg]
  rintro ⟨hStart, hBlock⟩
  rcases h with hEnd | hOther
  · simp [hEnd] at hStart
  · rw [hOther] at hBlock
    cases hBlock

/- A tag without content is one line. -/
theorem element_empty
    {nest : Nest}
    {tag : Text}
    {head : Tag.Head}
    (hRead : Tag.head? tag = some head)
    (hName : head.name ≠ [])
    (hStart : head.isEnd = false)
    (hEmpty :
      head.selfClosing = true ∨ isVoid head.name = true) :
    element nest tag head =
      ([nest.line (Tag.normalize tag)], nest) := by
  have hPlain :=
    Tag.isDeclaration_eq_false hRead (Or.inl hName)
  have hLower : head.name.lower ≠ [] := by
    simpa [Text.lower] using hName
  have hVoid : isVoid head.name.lower = isVoid head.name :=
    isAmong_lower _ _
  unfold element
  simp only [hPlain.1, hPlain.2, hLower, hStart, hVoid]
  rw [if_neg (by simp), if_neg (by simp), if_neg (by simp),
    if_pos hEmpty]

/- A declaration is one line. -/
theorem element_declaration
    {nest : Nest}
    {tag : Text}
    (head : Tag.Head)
    (hDeclaration : Tag.isDeclaration tag = true)
    (hDoctype : Tag.isDoctype tag = false) :
    element nest tag head =
      ([nest.line (Tag.normalize tag)], nest) := by
  unfold element
  simp only [hDeclaration, hDoctype]
  rw [if_neg (by simp), if_pos (Or.inl trivial)]

/- A start tag is one line, and what follows is deeper. -/
theorem element_start
    {nest : Nest}
    {tag : Text}
    {head : Tag.Head}
    (hRead : Tag.head? tag = some head)
    (hName : head.name ≠ [])
    (hStart : head.isEnd = false)
    (hSelf : head.selfClosing = false)
    (hVoid : isVoid head.name = false)
    (hFits : Fits nest.opened.head? head) :
    element nest tag head =
      ([nest.line (Tag.normalize tag)],
        nest.push head.name.lower) := by
  have hPlain :=
    Tag.isDeclaration_eq_false hRead (Or.inl hName)
  have hLower : head.name.lower ≠ [] := by
    simpa [Text.lower] using hName
  have hOther : isVoid head.name.lower = false := by
    rw [← hVoid]
    exact isAmong_lower _ _
  have hApart :
      ¬ (isAutoClosing head.name.lower = true ∧
        nest.opened.head? = some head.name.lower) := by
    rintro ⟨hAuto, hSibling⟩
    have hClass : isAutoClosing head.name = true := by
      rw [← hAuto]
      exact (isAmong_lower _ _).symm
    exact hFits hClass hSibling
  unfold element startElement
  simp only [hPlain.1, hPlain.2, hLower, hStart, hSelf,
    hOther]
  rw [if_neg (by simp), if_neg (by simp), if_neg (by simp),
    if_neg (by simp), if_neg hApart]
  rfl

/- The end tag of the innermost element is one line. -/
theorem element_finish
    {nest : Nest}
    {tag : Text}
    {tail : Tag.Head}
    (hRead : Tag.head? tag = some tail)
    (hName : tail.name ≠ [])
    (hEnd : tail.isEnd = true) :
    element (nest.push tail.name.lower) tag tail =
      ([nest.line (Tag.normalize tag)], nest) := by
  have hPlain :=
    Tag.isDeclaration_eq_false hRead (Or.inl hName)
  have hLower : tail.name.lower ≠ [] := by
    simpa [Text.lower] using hName
  have hTop :
      Nest.closeAbove tail.name.lower (nest.indent + 1)
          (tail.name.lower :: nest.opened) =
        ([], nest.push tail.name.lower) := by
    rw [Nest.closeAbove, if_neg (by simp)]
    rfl
  unfold element endElement
  simp only [hPlain.1, hPlain.2, hLower, hEnd]
  rw [if_neg (by simp), if_neg (by simp), if_pos trivial,
    if_pos (by simp [isOpen, Nest.push])]
  simp only [Nest.push] at hTop ⊢
  rw [hTop]
  simp [Nest.dedent, Nest.pop]

/- A leaf in front of a forest. -/
theorem Lays.leaf
    {format : StyleFormatter}
    {nest : Nest}
    {token : Token}
    {items : List Item}
    {forest : Forest}
    (hStep :
      ∀ rest,
        step format nest rest token =
          .ok { items := items, nest := nest })
    (hText :
      items.flatMap Item.text = leafPage nest.indent token)
    (hRest :
      Lays format nest forest.tokens
        (forest.page nest.indent) nest) :
    Lays format nest (Forest.leaf token forest).tokens
      ((Forest.leaf token forest).page nest.indent) nest := by
  rw [Forest.tokens, Forest.page, ← hText]
  apply Lays.cons _ hRest
  intro rest
  exact hStep _

/- A comment other than a marker is one line. -/
theorem step_comment
    {source : Text}
    (format : StyleFormatter)
    (nest : Nest)
    (rest : List Token)
    (hMarker : isMarker source = false) :
    step format nest rest (.comment source) =
      .ok
        { items := [nest.line (source.trim isBlank)]
          nest := nest } := by
  unfold isMarker at hMarker
  rw [decide_eq_false_iff_not, not_or] at hMarker
  rw [step, comment, if_neg hMarker.1, if_neg hMarker.2]

end Markup

end WebTidy

------------------------------------------------------------
-- Pages Of Forests
------------------------------------------------------------

namespace WebTidy

namespace Markup

/- The span of a block with a well-nested content. -/
theorem WellNested.span?_eq
    {inner : Forest}
    {head tail : Tag.Head}
    {finish : Text}
    (nest : Nest)
    (hInner : WellNested (some head.name.lower) inner)
    (hStart : head.isEnd = false)
    (hFinish : Tag.head? (finish.trim isBlank) = some tail)
    (hEnd : tail.isEnd = true)
    (hSame : Text.sameLetters tail.name head.name = true)
    (rest : List Token) :
    span? nest head
        (inner.tokens ++ .tag finish :: rest) =
      .ok
        (if isCollapsible head.name ∧
            inner.tokens.all isInlineToken then
          some ⟨inner.tokens, .written finish⟩
        else none) := by
  have hFound :
      findSpan head.name nest.opened 0 (.tag finish :: rest) =
        .ok (some ⟨[], .written finish⟩) := by
    rw [findSpan, hFinish]
    simp only
    rw [if_pos ⟨trivial, hEnd, hSame⟩]
  unfold span?
  cases hBlock : isCollapsible head.name with
  | false => simp
  | true =>
      rw [if_pos (by simp [hStart]),
        hInner.findSpan_eq (Or.inr ⟨rfl, rfl⟩), hFound]
      unfold foundBehind
      cases inner.tokens.all isInlineToken with
      | false => rfl
      | true => simp [Except.map, Span.prepend]

/- A block whose content is inline is one line. -/
theorem lays_joined
    {format : StyleFormatter}
    {nest : Nest}
    {start finish : Text}
    {head : Tag.Head}
    {inner : List Token}
    (hRead : Tag.head? (start.trim isBlank) = some head)
    (hSpan :
      ∀ rest,
        span? nest head (inner ++ .tag finish :: rest) =
          .ok (some ⟨inner, .written finish⟩)) :
    Lays format nest
      (.tag start :: (inner ++ [.tag finish]))
      (lineAt nest.indent
        (tagText start ++
          Text.trim isBlank (inner.flatMap inlineText) ++
          tagText finish))
      nest := by
  have hLays :
      Lays format nest
        (.tag start :: (inner ++ [.tag finish]))
        (List.flatMap Item.text
          [.joined head.name (inner.length + 2),
            nest.line
              (tagText start ++
                Text.trim isBlank
                  (inner.flatMap inlineText) ++
                tagText finish)])
        nest := by
    apply lays_block
    intro rest
    rw [List.append_assoc, List.singleton_append,
      step_joined format hRead (hSpan rest)]
    simp only [List.length_append, List.length_singleton]
    rfl
  unfold Nest.line at hLays
  rw [List.flatMap_cons, flatMap_line] at hLays
  exact hLays

/- An element around a page, each tag on its own line. -/
theorem lays_nested
    {format : StyleFormatter}
    {nest : Nest}
    {start finish page : Text}
    {head tail : Tag.Head}
    {inner : List Token}
    (hRead : Tag.head? (start.trim isBlank) = some head)
    (hElement :
      element nest (start.trim isBlank) head =
        ([nest.line (tagText start)],
          nest.push head.name.lower))
    (hSpan :
      ∀ rest,
        span? nest head (inner ++ .tag finish :: rest) =
          .ok none)
    (hInner :
      Lays format (nest.push head.name.lower) inner page
        (nest.push head.name.lower))
    (hFinish : Tag.head? (finish.trim isBlank) = some tail)
    (hEnd : tail.isEnd = true)
    (hClose :
      element (nest.push head.name.lower)
          (finish.trim isBlank) tail =
        ([nest.line (tagText finish)], nest)) :
    Lays format nest
      (.tag start :: (inner ++ [.tag finish]))
      (lineAt nest.indent (tagText start) ++
        (page ++ lineAt nest.indent (tagText finish)))
      nest := by
  have hLast :
      Lays format (nest.push head.name.lower) [.tag finish]
        ([nest.line (tagText finish)].flatMap Item.text ++ [])
        nest := by
    apply Lays.cons _ (lays_nil format nest)
    intro rest
    apply step_tag format hFinish _ hClose
    exact span?_eq_none _ _ (Or.inl hEnd)
  have hFirst :
      Lays format nest
        (.tag start :: (inner ++ [.tag finish]))
        ([nest.line (tagText start)].flatMap Item.text ++
          (page ++
            ([nest.line (tagText finish)].flatMap Item.text ++
              [])))
        nest := by
    apply Lays.cons _ (hInner.append hLast)
    intro rest
    apply step_tag format hRead _ hElement
    rw [List.append_assoc]
    exact hSpan rest
  unfold Nest.line at hFirst
  rw [List.append_nil, flatMap_line, flatMap_line] at hFirst
  exact hFirst

/-
  A well-nested forest is laid out as its page, and leaves
  the nesting as it is.
-/
theorem WellNested.lays
    {parent : Option Text}
    {forest : Forest}
    {nest : Nest}
    (format : StyleFormatter)
    (h : WellNested parent forest)
    (hParent : nest.opened.head? = parent) :
    Lays format nest forest.tokens
      (forest.page nest.indent) nest := by
  induction h generalizing nest with
  | nil => exact lays_nil format nest
  | @text parent source forest hRest ih =>
      refine Lays.leaf (fun rest => rfl) ?_ (ih hParent)
      unfold leafPage
      by_cases hBlank : source.trim isBlank = []
      · simp only [hBlank, if_true]
        rfl
      · simp only [hBlank, if_false]
        exact flatMap_line _ _
  | comment hMarker hRest ih =>
      apply Lays.leaf _ (flatMap_line _ _) (ih hParent)
      intro rest
      exact step_comment format nest rest hMarker
  | verbatim hRead hStyle hRest ih =>
      apply Lays.leaf _ (flatMap_line _ _) (ih hParent)
      intro rest
      exact step_verbatim format nest rest hRead hStyle
  | @void parent source head forest hRead hStart hVoid hRest
      ih =>
      have hName : head.name ≠ [] := by
        intro hNil
        rw [hNil] at hVoid
        cases hVoid
      apply Lays.leaf _ (flatMap_line _ _) (ih hParent)
      intro rest
      apply step_tag format hRead
      · exact span?_eq_none nest rest
          (Or.inr (isVoid_apart hVoid).1)
      · exact element_empty hRead hName hStart (Or.inr hVoid)
  | @selfClosing parent source head forest hRead hStart
      hSelf hName hBlock hFits hRest ih =>
      apply Lays.leaf _ (flatMap_line _ _) (ih hParent)
      intro rest
      apply step_tag format hRead
      · exact span?_eq_none nest rest (Or.inr hBlock)
      · exact element_empty hRead hName hStart (Or.inl hSelf)
  | @declaration parent source forest hDeclaration hDoctype
      hRest ih =>
      rcases Tag.exists_head_of_isDeclaration hDeclaration
        with ⟨head, hRead, hName, _⟩
      apply Lays.leaf _ (flatMap_line _ _) (ih hParent)
      intro rest
      apply step_tag format hRead
      · apply span?_eq_none
        rw [hName]
        exact Or.inr rfl
      · exact element_declaration head hDeclaration hDoctype
  | @element parent start finish head tail inner forest
      hRead hStart hSelf hName hVoid hFits hInner hFinish hEnd
      hSame hRest ihInner ihRest =>
      have hSpan (rest : List Token) :=
        hInner.span?_eq nest hStart hFinish hEnd hSame rest
      have hTokens :
          (Forest.element start inner finish forest).tokens =
            .tag start :: (inner.tokens ++ [.tag finish]) ++
              forest.tokens := by
        rw [Forest.tokens, List.cons_append,
          List.append_assoc]
        rfl
      rw [hTokens, Forest.page, tagName_eq hRead]
      refine Lays.append ?_ (ihRest hParent)
      by_cases hJoined :
          isCollapsible head.name = true ∧
            inner.tokens.all isInlineToken = true
      · simp only [if_pos hJoined] at hSpan ⊢
        exact lays_joined hRead hSpan
      · simp only [if_neg hJoined] at hSpan ⊢
        have hLower : tail.name.lower = head.name.lower := by
          unfold Text.sameLetters at hSame
          exact of_decide_eq_true hSame
        have hTail : tail.name ≠ [] := by
          intro hNil
          rw [hNil] at hLower
          apply hName
          exact List.map_eq_nil_iff.mp hLower.symm
        have hClose :
            Markup.element (nest.push head.name.lower)
                (finish.trim isBlank) tail =
              ([nest.line (tagText finish)], nest) := by
          rw [← hLower]
          exact element_finish hFinish hTail hEnd
        rw [List.append_assoc]
        apply lays_nested hRead _ hSpan (ihInner rfl) hFinish
          hEnd hClose
        apply element_start hRead hName hStart hSelf hVoid
        rw [hParent]
        exact hFits

end Markup

end WebTidy

------------------------------------------------------------
-- Documents
------------------------------------------------------------

namespace WebTidy

namespace Markup

/-
  The layout of a well-nested document is the one page that
  it has, and at the end every element is closed and nothing
  is indented.
-/
theorem walk_forest
    (format : StyleFormatter)
    {forest : Forest}
    (h : WellNested none forest) :
    ∃ items,
      walk format {} forest.tokens = .ok (items, {}) ∧
      layout format {} forest.tokens = .ok items ∧
      ∀ page,
        forest.IsPage 0 page ↔
          items.flatMap Item.text = page := by
  have hLays :
      Lays format {} forest.tokens (forest.page 0) {} :=
    h.lays format rfl
  rcases hLays with ⟨items, hPage, hWalk⟩
  have hEnd :
      walk format {} forest.tokens = .ok (items, {}) := by
    have hWhole := hWalk []
    rw [List.append_nil, walk] at hWhole
    rw [hWhole]
    simp only [Except.map, List.append_nil]
  refine ⟨items, hEnd, ?_, ?_⟩
  · rw [layout_eq_walk, hEnd]
    rfl
  · intro page
    rw [Forest.isPage_iff, hPage]

/-
  A list with an item on one line, and an item with a break
  that an inline element holds.
-/
def listForest :
    Forest :=
  .element "<ul>".toList
    (.element "<li>".toList
      (.leaf (.text "\n one  &copy;\n".toList)
        (.element "<b>".toList
          (.leaf (.text "two".toList) .nil)
          "</B>".toList .nil))
      "</li>".toList
      (.element "<li>".toList
        (.element "<i>".toList
          (.leaf (.tag "<br>".toList) .nil)
          "</i>".toList .nil)
        "</li>".toList .nil))
    "</ul>".toList
    (.leaf (.comment "<!-- end -->".toList) .nil)

/- The page of the list. -/
theorem walk_listForest :
    WellNested none listForest ∧
    ∃ items,
      walk .ok {} listForest.tokens = .ok (items, {}) ∧
      layout .ok {} listForest.tokens = .ok items ∧
      items.flatMap Item.text =
        ("<ul>\n\t<li>one © <b>two</B></li>\n" ++
          "\t<li>\n\t\t<i>\n\t\t\t<br>\n\t\t</i>\n" ++
          "\t</li>\n</ul>\n<!-- end -->\n").toList := by
  have hList :
      Tag.head? (Text.trim isBlank "<ul>".toList) =
        some ⟨"ul".toList, false, false⟩ := by
    rfl
  have hItem :
      Tag.head? (Text.trim isBlank "<li>".toList) =
        some ⟨"li".toList, false, false⟩ := by
    rfl
  have hBold :
      Tag.head? (Text.trim isBlank "<b>".toList) =
        some ⟨"b".toList, false, false⟩ := by
    rfl
  have hItalic :
      Tag.head? (Text.trim isBlank "<i>".toList) =
        some ⟨"i".toList, false, false⟩ := by
    rfl
  have hBreak :
      Tag.head? (Text.trim isBlank "<br>".toList) =
        some ⟨"br".toList, false, false⟩ := by
    rfl
  have hNested : WellNested none listForest := by
    refine .element hList rfl rfl (by decide) rfl (by decide) ?_
      rfl rfl rfl (.comment rfl .nil)
    refine .element hItem rfl rfl (by decide) rfl (by decide) ?_
      rfl rfl rfl ?_
    · refine .text (.element hBold rfl rfl (by decide) rfl
        (by decide) (.text .nil) rfl rfl rfl .nil)
    · refine .element hItem rfl rfl (by decide) rfl (by decide) ?_
        rfl rfl rfl .nil
      exact .element hItalic rfl rfl (by decide) rfl (by decide)
        (.void hBreak rfl rfl .nil) rfl rfl rfl .nil
  rcases walk_forest .ok hNested with
    ⟨items, hWalk, hLayout, hPage⟩
  refine ⟨hNested, items, hWalk, hLayout, ?_⟩
  rw [← hPage, Forest.isPage_iff]
  decide +kernel

end Markup

end WebTidy
