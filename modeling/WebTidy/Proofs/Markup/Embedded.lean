import WebTidy.Operation
import WebTidy.Proofs.Markup.Forest
import WebTidy.Proofs.Markup.Rescan
import WebTidy.Proofs.Stylesheet.Lines

/-
  Style elements inside other elements.

  A style sheet is cut into lines and set one level deeper
  than its tags, and a second layout finds it there.  The
  lines come out as they are, whatever the depth, if each of
  them begins in code and none ends with two carriage
  returns.

  Key definitions include:
    * `WebTidy.Markup.styleSource`
    * `WebTidy.Markup.restyled`
    * `WebTidy.Markup.nestedPage`
    * `WebTidy.Markup.wrapped`

  Key theorems include:
    * `WebTidy.Markup.prettify_nestedPage`
    * `WebTidy.Markup.apply_wrapped`
-/

------------------------------------------------------------
-- Style Elements
------------------------------------------------------------

namespace WebTidy

namespace Markup

/- A style element with a given body. -/
def styleSource
    (body : Text) :
    Text :=
  "<style>".toList ++ body ++ "</style>".toList

/- The body of a style element at a level of the nesting. -/
def inset
    (level : Nat)
    (sheet : Text) :
    Text :=
  '\n' ::
    ((Text.lines sheet).flatMap (Text.indented (level + 1)) ++
      List.replicate level '\t')

/- The style sheets of all levels, laid out and inset. -/
def restyled
    (body : Nat → Text)
    (level : Nat) :
    Text :=
  inset level
    ((Stylesheet.prettify (body level)).trimEnd isSpace)

/- A style element, character by character. -/
theorem styleSource_eq
    (body : Text) :
    styleSource body =
      '<' :: (['s', 't', 'y', 'l', 'e'] ++
        ('>' :: body ++
          ['<', '/', 's', 't', 'y', 'l', 'e', '>'])) := by
  have hStart :
      "<style>".toList =
        ['<', 's', 't', 'y', 'l', 'e', '>'] := by
    decide
  have hFinish :
      "</style>".toList =
        ['<', '/', 's', 't', 'y', 'l', 'e', '>'] := by
    decide
  unfold styleSource
  rw [hStart, hFinish]
  rfl

/- A style element is written between brackets. -/
theorem isBracketed_styleSource
    (body : Text) :
    IsBracketed (styleSource body) := by
  rw [styleSource_eq]
  constructor
  · rfl
  · simp [List.getLast?_cons]

/- The last place of a character in a second part. -/
theorem lastIndexOf?_append
    (s : Text)
    {c : Char}
    {t : Text}
    {n : Nat}
    (h : Text.lastIndexOf? c t = some n) :
    Text.lastIndexOf? c (s ++ t) = some (n + s.length) := by
  induction s with
  | nil => exact h
  | cons d s ih =>
      rw [List.cons_append, Text.lastIndexOf?, ih]
      rfl

/- The last bracket of a style element begins its end tag. -/
theorem parts_styleSource
    (body : Text) :
    StyleParts.of? (styleSource body) =
      some
        { start := "<style>".toList
          body := body
          finish := "</style>".toList } := by
  have hStart :
      Tag.endIndex? (styleSource body) 0 = some 6 := by
    rw [styleSource_eq]
    rfl
  have hClose :
      Text.lastIndexOf? '<' (styleSource body) =
        some ("<style>".toList ++ body).length := by
    have hLast :
        Text.lastIndexOf? '<' "</style>".toList = some 0 := by
      decide
    have hPlace :=
      lastIndexOf?_append ("<style>".toList ++ body) hLast
    rw [Nat.zero_add] at hPlace
    exact hPlace
  have hFront :
      (styleSource body).take ("<style>".toList ++ body).length =
        "<style>".toList ++ body :=
    List.take_left
  have hBehind :
      (styleSource body).drop ("<style>".toList ++ body).length =
        "</style>".toList :=
    List.drop_left
  have hLength : "<style>".toList.length = 7 := by decide
  have hTag : (styleSource body).take 7 = "<style>".toList := by
    rw [← hLength]
    unfold styleSource
    rw [List.append_assoc, List.take_left]
  have hBody : ("<style>".toList ++ body).drop 7 = body := by
    rw [← hLength, List.drop_left]
  unfold StyleParts.of?
  rw [hStart, hClose]
  simp only
  rw [if_pos (by rw [List.length_append, hLength]; omega),
    hFront, hBehind, hTag, hBody]

section Body

variable
  {body : Text}
  (hBody : '<' ∉ body)

include hBody

/- An end tag is sought behind a text without brackets. -/
theorem throughEndTag?_append
    (name rest : Text) :
    throughEndTag? name (body ++ rest) =
      (throughEndTag? name rest).map (· + body.length) := by
  induction body with
  | nil =>
      cases hRest : throughEndTag? name rest <;>
        simp [hRest]
  | cons c body ih =>
      rw [List.mem_cons, not_or] at hBody
      have hNone :
          endTagLength? name (c :: (body ++ rest)) = none := by
        unfold endTagLength?
        simp only
        rw [if_neg]
        rintro ⟨hOpen, _⟩
        simp [hBody.1] at hOpen
      rw [List.cons_append, throughEndTag?, hNone]
      simp only
      rw [ih hBody.2, Option.map_map]
      rfl

/- A style element is read up to its end tag. -/
theorem first_styleSource
    (rest : Text) :
    Token.first (styleSource body ++ rest) =
      .verbatim (styleSource body) := by
  have hEnd :
      throughEndTag? ['s', 't', 'y', 'l', 'e']
          (['<', '/', 's', 't', 'y', 'l', 'e', '>'] ++ rest) =
        some 8 :=
    throughEndTag?_of_endTagLength? rfl
  have hThrough :=
    @throughEndTag?_append ('>' :: body) (by simpa using hBody)
      ['s', 't', 'y', 'l', 'e']
      (['<', '/', 's', 't', 'y', 'l', 'e', '>'] ++ rest)
  rw [hEnd] at hThrough
  have hLength :
      verbatimLength? (styleSource body ++ rest) =
        some (styleSource body).length := by
    rw [styleSource_eq, List.cons_append, List.append_assoc,
      List.append_assoc,
      verbatimLength?_cons _ _ (by decide) rfl,
      if_pos ⟨by decide, rfl⟩, hThrough, Option.map_some,
      Option.map_some]
    apply congrArg some
    simp only [List.length_cons, List.length_append,
      List.length_nil]
    omega
  have hHead := (isBracketed_styleSource body).1
  have hFirst :
      (styleSource body ++ rest).head? = some '<' := by
    rw [List.head?_append, hHead]
    rfl
  unfold Token.first
  rw [if_pos hFirst, hLength]
  simp only [List.take_left]

end Body

/- A line of a style sheet is set one level deeper. -/
theorem text_styleLine
    (nest : Nest)
    (line : Text) :
    (styleLine nest line).text =
      Text.indented (nest.indent + 1) line := by
  unfold styleLine Text.indented
  split <;> rfl

/- The layout of a style element. -/
theorem step_styleSource
    (nest : Nest)
    (body : Text) :
    ∃ items : List Item,
      (∀ rest,
        step Operation.formatStyle nest rest
            (.verbatim (styleSource body)) =
          .ok { items := items, nest := nest }) ∧
      items.flatMap Item.text =
        lineAt nest.indent
          (styleSource (inset nest.indent
            ((Stylesheet.prettify body).trimEnd isSpace))) := by
  have hHead :
      ∃ head : Tag.Head,
        Tag.head? (styleSource body) = some head ∧
          head.name = ['s', 't', 'y', 'l', 'e'] := by
    rw [styleSource_eq]
    exact ⟨_, rfl, rfl⟩
  rcases hHead with ⟨head, hRead, hName⟩
  have hStyle :
      Text.sameLetters head.name "style".toList = true := by
    rw [hName]
    decide
  let sheet := (Stylesheet.prettify body).trimEnd isSpace
  refine
    ⟨nest.line "<style>".toList ::
      (Text.lines sheet).map (styleLine nest) ++
        [nest.line "</style>".toList], ?_, ?_⟩
  · intro rest
    unfold step stepVerbatim styleElement
    simp only [hRead, hStyle, if_true, parts_styleSource,
      Operation.formatStyle]
    rfl
  · have hLines :
        ((Text.lines sheet).map (styleLine nest)).flatMap
            Item.text =
          (Text.lines sheet).flatMap
            (Text.indented (nest.indent + 1)) := by
      rw [List.flatMap_map]
      exact List.flatMap_congr fun line _ =>
        text_styleLine nest line
    rw [List.flatMap_append, List.flatMap_cons, hLines]
    unfold lineAt styleSource inset Nest.line
    generalize "<style>".toList = start
    generalize "</style>".toList = finish
    simp [Item.text, sheet]

end Markup

end WebTidy

------------------------------------------------------------
-- Nested Elements
------------------------------------------------------------

namespace WebTidy

namespace Markup

/- The start tag of the elements around a style element. -/
def divStart :
    Text :=
  "<div>".toList

/- Their end tag. -/
def divFinish :
    Text :=
  "</div>".toList

/-
  A style element inside other elements.  The gaps between
  the tags and the style sheet depend on the level of the
  nesting that they stand on.
-/
def nestedPage
    (gap body : Nat → Text) :
    Nat → Nat → Text
| level, 0 => styleSource (body level)
| level, depth + 1 =>
    divStart ++
      (gap (level + 1) ++
        (nestedPage gap body (level + 1) depth ++
          (gap level ++ divFinish)))

/- The tokens of a gap. -/
def gapTokens
    (gap : Text) :
    List Token :=
  if gap = [] then [] else [.text gap]

/- The tokens of such elements. -/
def nestedTokens
    (gap body : Nat → Text) :
    Nat → Nat → List Token
| level, 0 => [.verbatim (styleSource (body level))]
| level, depth + 1 =>
    .tag divStart ::
      (gapTokens (gap (level + 1)) ++
        nestedTokens gap body (level + 1) depth ++
        gapTokens (gap level) ++ [.tag divFinish])

/- The gaps of a layout: each tag is on a line of its own. -/
def feed
    (level : Nat) :
    Text :=
  '\n' :: List.replicate level '\t'

/- Both tags are read in front of any text. -/
theorem first_div
    (rest : Text) :
    Token.first (divStart ++ rest) = .tag divStart ∧
      Token.first (divFinish ++ rest) = .tag divFinish := by
  have hStart : divStart = ['<', 'd', 'i', 'v', '>'] := by
    decide
  have hFinish : divFinish = ['<', '/', 'd', 'i', 'v', '>'] := by
    decide
  rw [hStart, hFinish]
  exact ⟨rfl, rfl⟩

/- They are written between brackets. -/
theorem isBracketed_div :
    IsBracketed divStart ∧ IsBracketed divFinish := by
  unfold IsBracketed
  decide

/- So are such elements. -/
theorem isBracketed_nestedPage
    (gap body : Nat → Text)
    (level depth : Nat) :
    IsBracketed (nestedPage gap body level depth) := by
  cases depth with
  | zero => exact isBracketed_styleSource _
  | succ depth =>
      unfold nestedPage
      constructor
      · rw [List.head?_append, isBracketed_div.1.1]
        rfl
      · simp only [List.getLast?_append, isBracketed_div.2.2,
          Option.some_or]

/- They stand on lines of their own around a page. -/
theorem lays_div
    {nest : Nest}
    {inner : List Token}
    {page : Text}
    (hInner :
      Lays Operation.formatStyle (nest.push "div".toList) inner
        page (nest.push "div".toList)) :
    Lays Operation.formatStyle nest
      (.tag divStart :: (inner ++ [.tag divFinish]))
      (lineAt nest.indent divStart ++
        (page ++ lineAt nest.indent divFinish))
      nest := by
  have hStart :
      Tag.head? (divStart.trim isBlank) =
        some ⟨"div".toList, false, false⟩ := by
    decide
  have hFinish :
      Tag.head? (divFinish.trim isBlank) =
        some ⟨"div".toList, true, false⟩ := by
    decide
  have hText :
      tagText divStart = divStart ∧
        tagText divFinish = divFinish := by
    decide +kernel
  have hLays :=
    lays_nested hStart
      (element_start hStart (by decide) rfl rfl (by decide)
        (fun hAuto => absurd hAuto (by decide)))
      (fun rest => span?_eq_none _ _ (Or.inr (by decide)))
      hInner hFinish rfl
      (element_finish hFinish (by decide) rfl)
  rw [hText.1, hText.2] at hLays
  exact hLays

section Nested

variable
  {gap body : Nat → Text}
  (hGap : ∀ level, (gap level).all isBlank = true)
  (hBody : ∀ level, '<' ∉ body level)

include hGap

/- A gap in front of a tag is a text, or nothing. -/
theorem scan_gap
    (level : Nat)
    {rest : Text}
    (hRest : rest.head? = some '<') :
    Token.scan (gap level ++ rest) =
      gapTokens (gap level) ++ Token.scan rest := by
  have hClean : '<' ∉ gap level := by
    intro hMem
    have hBlank := List.all_eq_true.mp (hGap level) _ hMem
    cases hBlank
  rcases List.head?_eq_some_iff.mp hRest with ⟨more, rfl⟩
  have hFirst := Token.first_ne_text hRest
  rw [Token.scan_text_append _ hClean, gapTokens, Token.scan]
  cases hToken : Token.first ('<' :: more) with
  | text source => exact absurd hToken (hFirst source)
  | tag source | verbatim source | comment source =>
      rw [Token.attach]
      · split <;> rfl
      · intro t rest hSame
        cases hSame

/- It is not part of the page. -/
theorem lays_gap
    (level : Nat)
    (nest : Nest) :
    Lays Operation.formatStyle nest (gapTokens (gap level)) []
      nest := by
  have hTrim : (gap level).trim isBlank = [] := by
    rw [Text.trim, List.dropWhile_eq_nil_iff.mpr
      (List.all_eq_true.mp (hGap level))]
    rfl
  unfold gapTokens
  split
  · exact lays_nil _ nest
  · apply @Lays.cons _ nest nest nest _ _ [] _ _ (lays_nil _ nest)
    intro rest
    simp only [step, hTrim, if_true]

/- Such elements are laid out tag by tag. -/
theorem lays_nestedTokens
    (nest : Nest)
    (depth : Nat) :
    Lays Operation.formatStyle nest
      (nestedTokens gap body nest.indent depth)
      (lineAt nest.indent
        (nestedPage feed (restyled body) nest.indent depth))
      nest := by
  induction depth generalizing nest with
  | zero =>
      rcases step_styleSource nest (body nest.indent) with
        ⟨items, hStep, hText⟩
      have hLays :=
        @Lays.cons _ nest nest nest _ [] items _
          (fun rest => hStep rest) (lays_nil _ nest)
      rw [hText, List.append_nil] at hLays
      exact hLays
  | succ depth ih =>
      have hLays :=
        lays_div
          ((lays_gap hGap (nest.indent + 1) _).append
            ((ih (nest.push "div".toList)).append
              (lays_gap hGap nest.indent _)))
      have hTokens (first inner second : List Token) :
          first ++ inner ++ second ++ [.tag divFinish] =
            first ++ (inner ++ second) ++ [.tag divFinish] := by
        rw [List.append_assoc first]
      have hPage (inner : Text) :
          lineAt nest.indent
              (divStart ++
                (feed (nest.indent + 1) ++
                  (inner ++ (feed nest.indent ++ divFinish)))) =
            lineAt nest.indent divStart ++
              (([] ++ (lineAt (nest.indent + 1) inner ++ [])) ++
                lineAt nest.indent divFinish) := by
        simp [lineAt, feed]
      unfold nestedTokens nestedPage
      rw [hPage, hTokens]
      exact hLays

include hBody

/- Their tokens are read in front of any text. -/
theorem scan_nestedPage
    (level depth : Nat)
    (rest : Text) :
    Token.scan (nestedPage gap body level depth ++ rest) =
      nestedTokens gap body level depth ++
        Token.scan rest := by
  induction depth generalizing level rest with
  | zero =>
      exact @Token.scan_markup
        (.verbatim (styleSource (body level))) rest
        (by simp [Token.source, styleSource_eq])
        (first_styleSource (hBody level) rest)
  | succ depth ih =>
      have hInner (more : Text) :
          (nestedPage gap body (level + 1) depth ++
            more).head? = some '<' := by
        rw [List.head?_append,
          (isBracketed_nestedPage gap body _ depth).1]
        rfl
      have hFinish (more : Text) :
          (divFinish ++ more).head? = some '<' := by
        rw [List.head?_append, isBracketed_div.2.1]
        rfl
      have hOpen (more : Text) :
          Token.scan (divStart ++ more) =
            .tag divStart :: Token.scan more :=
        @Token.scan_markup (.tag divStart) more (by decide)
          (first_div more).1
      have hClose (more : Text) :
          Token.scan (divFinish ++ more) =
            .tag divFinish :: Token.scan more :=
        @Token.scan_markup (.tag divFinish) more (by decide)
          (first_div more).2
      unfold nestedPage nestedTokens
      simp only [List.append_assoc, List.cons_append]
      rw [hOpen, scan_gap hGap _ (hInner _), ih,
        scan_gap hGap _ (hFinish _), hClose]
      rfl

/-
  The layout of a document of such elements has the same
  elements, and the layouts of the style sheets.
-/
theorem prettify_nestedPage
    (depth : Nat) :
    prettify Operation.formatStyle
        (nestedPage gap body 0 depth) =
      .ok (nestedPage feed (restyled body) 0 depth) := by
  have hTrim {p : Char → Bool} {page tail : Text}
      (hOpen : p '<' = false)
      (hClose : p '>' = false)
      (hTail : tail.all p = true)
      (hPage : IsBracketed page) :
      (page ++ tail).trim p = page := by
    have hSame :=
      @Text.trim_append p [] page tail rfl hTail
        (by simp [hPage.1, hOpen]) (by simp [hPage.2, hClose])
    exact hSame
  have hScan := scan_nestedPage hGap hBody 0 depth []
  rw [Token.scan, List.append_nil, List.append_nil] at hScan
  rcases lays_nestedTokens hGap {} depth with
    ⟨items, hText, hWalk⟩
  have hEnd := hWalk []
  rw [List.append_nil, walk] at hEnd
  have hSource :=
    @hTrim isSpace _ [] rfl rfl rfl
      (isBracketed_nestedPage gap body 0 depth)
  rw [List.append_nil] at hSource
  unfold prettify render
  rw [hSource, hScan, layout_eq_walk, hEnd]
  simp only [Except.map, List.append_nil]
  unfold pageText
  simp only [hText]
  exact congrArg Except.ok
    (hTrim rfl rfl rfl (isBracketed_nestedPage _ _ _ _))

end Nested

end Markup

end WebTidy

------------------------------------------------------------
-- Stable Documents
------------------------------------------------------------

namespace WebTidy

namespace Markup

/- A text inside a number of elements. -/
def wrapped
    (depth : Nat)
    (inner : Text) :
    Text :=
  (List.replicate depth divStart).flatten ++ inner ++
    (List.replicate depth divFinish).flatten

/- These elements are nested, with nothing between them. -/
theorem nestedPage_eq_wrapped
    (body : Text)
    (level depth : Nat) :
    nestedPage (fun _ => []) (fun _ => body) level depth =
      wrapped depth (styleSource body) := by
  induction depth generalizing level with
  | zero =>
      exact (List.append_nil _).symm
  | succ depth ih =>
      unfold nestedPage
      rw [ih, wrapped, wrapped, List.replicate_succ,
        List.replicate_succ', List.flatten_cons,
        List.flatten_concat]
      simp only [List.nil_append, List.append_assoc]

/- An inset style sheet has the characters of its lines. -/
theorem not_mem_inset
    {sheet : Text}
    (h : '<' ∉ sheet)
    (level : Nat) :
    '<' ∉ inset level sheet := by
  unfold inset
  rw [List.mem_cons, List.mem_append, List.mem_flatMap]
  rintro (hFeed | ⟨line, hLine, hMem⟩ | hTab)
  · cases hFeed
  · rcases Text.exists_indented (level + 1) line with
      ⟨blanks, hBlanks, _, hText⟩
    rw [hText, List.append_assoc, List.mem_append,
      List.mem_append] at hMem
    rcases hMem with hBlank | hInner | hEnd
    · cases List.all_eq_true.mp hBlanks _ hBlank
    · exact h (Text.mem_of_mem_lines hLine hInner)
    · cases List.mem_singleton.mp hEnd
  · cases List.eq_of_mem_replicate hTab

/- An inset layout is laid out and inset as it is. -/
theorem restyled_inset
    {body sheet : Text}
    (hSheet :
      (Stylesheet.prettify body).trimEnd isSpace = sheet)
    (hContents :
      ∀ segment ∈ Stylesheet.contents body,
        '\n' ∉ segment.source)
    (hReturns : ¬ "\r\r\n".toList <:+: body)
    (level : Nat) :
    restyled (fun level => inset level sheet) level =
      inset level sheet := by
  have hLines :=
    @Stylesheet.lines_prettify_indented body sheet hSheet
      hContents hReturns (level + 1) ['\n']
      (List.replicate level '\t') rfl (by simp [isBlank])
  have hBody :
      ['\n'] ++
          (Text.lines sheet).flatMap
            (Text.indented (level + 1)) ++
          List.replicate level '\t' =
        inset level sheet :=
    rfl
  rw [hBody] at hLines
  unfold restyled inset
  unfold inset at hLines
  rw [hLines]

/- The layout of a document is the result of its operation. -/
theorem apply_htmlPrettify
    {document page : Text}
    (h : prettify Operation.formatStyle document = .ok page) :
    Operation.apply .htmlPrettify document = .ok page := by
  unfold Operation.apply
  rw [h]
  rfl

/-
  A style element inside any number of elements is laid out
  with one tag a line and its style sheet inset, and that
  layout is laid out as it is, if no comment and no string
  of the style sheet goes over a line end and no line ends
  with two carriage returns.
-/
theorem apply_wrapped
    (depth : Nat)
    {body : Text}
    (hBody : '<' ∉ body)
    (hContents :
      ∀ segment ∈ Stylesheet.contents body,
        '\n' ∉ segment.source)
    (hReturns : ¬ "\r\r\n".toList <:+: body) :
    let page := nestedPage feed (restyled fun _ => body) 0 depth
    Operation.apply .htmlPrettify
        (wrapped depth (styleSource body)) =
      .ok page ∧
    Operation.apply .htmlPrettify page = .ok page := by
  obtain ⟨sheet, hSheet⟩ :
      ∃ sheet,
        (Stylesheet.prettify body).trimEnd isSpace = sheet :=
    ⟨_, rfl⟩
  have hClean : '<' ∉ sheet := by
    rcases Text.exists_trimEnd_append isSpace
      (Stylesheet.prettify body) with ⟨w, _, hSplit⟩
    intro hMem
    apply hBody
    apply Stylesheet.mem_of_mem_prettify rfl (by decide)
    rw [hSplit, hSheet]
    exact List.mem_append_left w hMem
  -- both runs lay out nested elements, with other gaps
  have hFirst :=
    @prettify_nestedPage (fun _ => []) (fun _ => body)
      (fun _ => rfl) (fun _ => hBody) depth
  have hSecond :=
    @prettify_nestedPage feed (fun level => inset level sheet)
      (fun level => by simp [feed, isBlank])
      (not_mem_inset hClean) depth
  have hPage :
      restyled (fun _ => body) = fun level => inset level sheet := by
    funext level
    rw [restyled, hSheet]
  rw [nestedPage_eq_wrapped] at hFirst
  rw [funext (restyled_inset hSheet hContents hReturns)]
    at hSecond
  rw [hPage] at hFirst ⊢
  exact ⟨apply_htmlPrettify hFirst,
    apply_htmlPrettify hSecond⟩

/- A comment and a rule. -/
def commentedRule :
    Text :=
  "/* x */\na\x7bb:c\x7d".toList

/- They are laid out inside two elements. -/
theorem apply_wrapped_commentedRule :
    ('<' ∉ commentedRule ∧
      (∀ segment ∈ Stylesheet.contents commentedRule,
        '\n' ∉ segment.source) ∧
      ¬ "\r\r\n".toList <:+: commentedRule) ∧
    let page :=
      nestedPage feed (restyled fun _ => commentedRule) 0 2
    Operation.apply .htmlPrettify
        (wrapped 2 (styleSource commentedRule)) =
      .ok page ∧
    Operation.apply .htmlPrettify page = .ok page := by
  have hBody : '<' ∉ commentedRule := by decide
  have hContents :
      ∀ segment ∈ Stylesheet.contents commentedRule,
        '\n' ∉ segment.source := by
    decide +kernel
  have hReturns : ¬ "\r\r\n".toList <:+: commentedRule := by
    decide
  exact ⟨⟨hBody, hContents, hReturns⟩,
    apply_wrapped 2 hBody hContents hReturns⟩

/-
  Without the conditions the layout may change again: the
  second line of a comment is indented by every layout.
-/
theorem not_stable_wrapped :
    ¬ ∀ (depth : Nat) (body page : Text),
      '<' ∉ body →
      Operation.apply .htmlPrettify
          (wrapped depth (styleSource body)) =
        .ok page →
      Operation.apply .htmlPrettify page = .ok page := by
  intro hStable
  have hFirst :
      Operation.apply .htmlPrettify
          (wrapped 0 (styleSource "/*\n*/".toList)) =
        .ok "<style>\n\t/*\n\t*/\n</style>".toList := by
    decide +kernel
  have hSecond :
      Operation.apply .htmlPrettify
          "<style>\n\t/*\n\t*/\n</style>".toList =
        .ok "<style>\n\t/*\n\t\t*/\n</style>".toList := by
    decide +kernel
  have hSame := hStable 0 _ _ (by decide) hFirst
  rw [hSecond] at hSame
  revert hSame
  decide

/- Each layout also takes one of two carriage returns. -/
example :
    Operation.apply .htmlPrettify
        (wrapped 0 (styleSource "a\r\r\nb".toList)) =
      .ok "<style>\n\ta\r\n\tb\n</style>".toList ∧
    Operation.apply .htmlPrettify
        "<style>\n\ta\r\n\tb\n</style>".toList =
      .ok "<style>\n\ta\n\tb\n</style>".toList := by
  decide +kernel

end Markup

end WebTidy
