import WebTidy.Proofs.Markup.Replay

/-
  The layout of tidy documents is final.

  A document is tidy if its tags are in normal form, its
  texts have no character references to decode, no block is
  closed by its own start tag and no style sheet is laid out.
  Its elements need not be nested well.

  Key definitions include:
    * `WebTidy.Markup.Token.isTidy`

  Key theorems include:
    * `WebTidy.Markup.Token.isNeat_of_mem_scan`
    * `WebTidy.Markup.Prints.endsVisibly_seam`
    * `WebTidy.Markup.prettify_of_prettify`
-/

------------------------------------------------------------
-- Tidy Tokens
------------------------------------------------------------

namespace WebTidy

namespace Markup

namespace Token

/- A token that needs no change by itself. -/
def isTidy :
    Token → Bool
| .tag s =>
    Tag.normalize (s.trim isBlank) = s.trim isBlank ∧
      (Tag.head? (s.trim isBlank)).all fun head =>
        !(isCollapsible head.name && head.selfClosing)
| .text s => CharRef.decode .text s = s
| .verbatim s => !isStyle (.verbatim s)
| .comment _ => true

/- A text has no bracket. -/
theorem not_mem_of_first
    {x s : Text}
    (h : first x = .text s) :
    '<' ∉ s := by
  by_cases hHead : x.head? = some '<'
  · exact absurd h (first_ne_text hHead s)
  · rw [first, if_neg hHead] at h
    cases h
    intro hMem
    have hOther := List.mem_takeWhile_imp hMem
    simp at hOther

/- A tidy first token is neat. -/
theorem isNeat_first
    {token : Token}
    {y : Text}
    (hFirst : first (token.source ++ y) = token)
    (hLast :
      (token.source ++ y).getLast?.all (!isBlank ·) = true)
    (hTidy : token.isTidy = true) :
    token.IsNeat := by
  have hShaped : token.IsShaped := by
    rw [← hFirst]
    exact isShaped_first _
  cases token with
  | text s =>
      exact ⟨not_mem_of_first hFirst, of_decide_eq_true hTidy⟩
  | verbatim s => exact ⟨hShaped, by simpa [isTidy] using hTidy⟩
  | comment s => exact hShaped
  | tag s =>
      have hOpens : s.head? = some '<' := hShaped
      have hTrim : s.trim isBlank = s := by
        rcases getLast?_source hFirst hOpens with hClose | rfl
        · exact IsBracketed.trim_eq ⟨hOpens, hClose⟩
        · -- The tag is the end of the document.
          rw [List.append_nil, source] at hLast
          have hStart : s.head?.all (!isBlank ·) = true := by
            rw [hOpens]
            rfl
          have hWhole :=
            @Text.trim_append isBlank [] s [] rfl rfl hStart
              hLast
          rwa [List.nil_append, List.append_nil] at hWhole
      rw [isTidy, hTrim, decide_eq_true_eq] at hTidy
      refine ⟨hOpens, hTrim, hTidy.1, ?_⟩
      intro head hRead hBlock
      rw [hRead] at hTidy
      simpa [hBlock] using hTidy.2

/- The tidy tokens of a document are neat. -/
theorem isNeat_of_mem_scan
    {x : Text}
    {token : Token}
    (hLast : x.getLast?.all (!isBlank ·) = true)
    (hToken : token ∈ scan x)
    (hTidy : token.isTidy = true) :
    token.IsNeat := by
  generalize hTokens : scan x = tokens at hToken
  induction tokens generalizing x with
  | nil => cases hToken
  | cons other rest ih =>
      rcases exists_of_scan hTokens with ⟨y, rfl, hFirst, hy⟩
      rcases List.mem_cons.mp hToken with rfl | hRest
      · exact isNeat_first hFirst hLast hTidy
      · apply ih _ hy hRest
        cases y with
        | nil => rfl
        | cons c body =>
            rwa [List.getLast?_append_of_ne_nil _
              (List.cons_ne_nil c body)] at hLast

end Token

end Markup

end WebTidy

------------------------------------------------------------
-- The Ends Of A Page
------------------------------------------------------------

namespace WebTidy

namespace Markup

/- Some tokens of a document, and what follows them. -/
theorem Token.exists_of_scan_append
    {x : Text}
    {tokens rest : List Token}
    (h : scan x = tokens ++ rest) :
    ∃ y, x = sources tokens ++ y ∧ scan y = rest := by
  induction tokens generalizing x with
  | nil => exact ⟨x, rfl, h⟩
  | cons token tokens ih =>
      rcases exists_of_scan h with ⟨y, rfl, _, hy⟩
      rcases ih hy with ⟨z, rfl, hz⟩
      refine ⟨z, ?_, hz⟩
      rw [sources_cons, List.append_assoc]

/- A text ends with a character that is no space. -/
def endsVisibly
    (t : Text) :
    Bool :=
  t.getLast?.any (!isSpace ·)

/- Such a text ends all texts that it is the end of. -/
theorem endsVisibly_append
    (s : Text)
    {t : Text}
    (h : endsVisibly t = true) :
    endsVisibly (s ++ t) = true := by
  unfold endsVisibly at h ⊢
  rw [List.getLast?_append]
  cases hLast : t.getLast? with
  | none =>
      rw [hLast] at h
      cases h
  | some c =>
      rw [hLast] at h
      exact h

/- The end of a text is the end of its last part. -/
theorem endsVisibly_of_append
    {s t : Text}
    (hSome : t ≠ [])
    (h : endsVisibly (s ++ t) = true) :
    endsVisibly t = true := by
  unfold endsVisibly at h ⊢
  rwa [List.getLast?_append_of_ne_nil _ hSome] at h

/- Blanks do not end a text visibly. -/
theorem endsVisibly_blanks
    {blanks : Text}
    (h : blanks.all isBlank = true) :
    endsVisibly blanks = false := by
  unfold endsVisibly
  cases hLast : blanks.getLast? with
  | none => rfl
  | some c =>
      have hBlank :=
        List.all_eq_true.mp h c (List.mem_of_getLast? hLast)
      rw [Option.any_some, isSpace_of_isBlank hBlank]
      rfl

/- No blanks are trimmed at such an end. -/
theorem endsVisibly_trim
    {s : Text}
    (h : endsVisibly s = true) :
    endsVisibly (s.trim isBlank) = true := by
  rcases Text.exists_trim_append isBlank s with
    ⟨lead, tail, hLead, hTail, hText⟩
  rw [hText] at h
  by_cases hNil : tail = []
  · rw [hNil, List.append_nil] at h
    apply endsVisibly_of_append _ h
    intro hTrim
    rw [hTrim, List.append_nil, endsVisibly_blanks hLead] at h
    cases h
  · have hEnd := endsVisibly_of_append hNil h
    rw [endsVisibly_blanks hTail] at hEnd
    cases hEnd

/- The last row, or a row in front of others. -/
theorem Prints.endsVisibly_cons
    {nest : Nest}
    {y : Text}
    {rest : List Token}
    {row : Row}
    {rows : List Row}
    (h : Prints nest rest rows)
    (hScan : Token.scan y = rest)
    (hLast :
      y = [] → endsVisibly (sources row.content) = true)
    (hLater : y ≠ [] → endsVisibly (seam rows) = true) :
    endsVisibly (seam (row :: rows)) = true := by
  have hSeam :
      seam (row :: rows) =
        row.lead ++ sources row.content ++ seam rows := rfl
  rw [hSeam]
  by_cases hNil : y = []
  · have hRest : rest = [] := by
      rw [← hScan, hNil, Token.scan]
    rw [hRest] at h
    rw [h.rows_eq_nil, seam, List.flatMap_nil, List.append_nil]
    exact endsVisibly_append _ (hLast hNil)
  · exact endsVisibly_append _ (hLater hNil)

/- The rows of a document end as the document does. -/
theorem Prints.endsVisibly_seam
    {nest : Nest}
    {tokens : List Token}
    {rows : List Row}
    {x : Text}
    (h : Prints nest tokens rows)
    (hScan : Token.scan x = tokens)
    (hEnd : endsVisibly x = true) :
    endsVisibly (seam rows) = true := by
  -- A row of one token ends as the token does.
  have hToken {nest : Nest} {token shown : Token}
      {rest : List Token} {rows : List Row} {x : Text}
      {depth : Nat}
      (hRows : Prints nest rest rows)
      (hScan : Token.scan x = token :: rest)
      (hEnd : endsVisibly x = true)
      (hShown :
        endsVisibly token.source = true →
          endsVisibly shown.source = true)
      (ih :
        ∀ {y}, Token.scan y = rest → endsVisibly y = true →
          endsVisibly (seam rows) = true) :
      endsVisibly (seam (⟨depth, [shown]⟩ :: rows)) = true := by
    rcases Token.exists_of_scan hScan with ⟨y, rfl, _, hy⟩
    apply hRows.endsVisibly_cons hy
    · rintro rfl
      rw [List.append_nil] at hEnd
      rw [sources_singleton]
      exact hShown hEnd
    · intro hSome
      exact ih hy (endsVisibly_of_append hSome hEnd)
  induction h generalizing x with
  | nil =>
      cases x with
      | nil => cases hEnd
      | cons c body =>
          rw [Token.scan] at hScan
          cases hScan
  | @blank nest s rest rows hBlank hRest ih =>
      rcases Token.exists_of_scan hScan with ⟨y, rfl, _, hy⟩
      apply ih hy
      apply endsVisibly_of_append _ hEnd
      rintro rfl
      rw [List.append_nil] at hEnd
      have hTrim := endsVisibly_trim hEnd
      rw [Token.source, hBlank] at hTrim
      cases hTrim
  | text hNeat hSome hNext hRest ih =>
      exact hToken hRest hScan hEnd endsVisibly_trim ih
  | verbatim hNeat hRest ih =>
      exact hToken hRest hScan hEnd id ih
  | comment hNeat hComment hRest ih =>
      exact hToken hRest hScan hEnd id ih
  | supplied hName hRead hEnds hRest ih =>
      have hLater := ih hScan hEnd
      exact endsVisibly_append _ hLater
  | alone hNeat hRead hSpan hElement hRest ih =>
      exact hToken hRest hScan hEnd id ih
  | @joined nest s head between inner ending tail rows hNeat
      hRead hStart hBlock hPasses hInner hTrim hEnding hTokens
      hSome hRest ih =>
      rw [← List.append_assoc, ← List.cons_append] at hScan
      rcases Token.exists_of_scan_append hScan with
        ⟨y, rfl, hy⟩
      apply hRest.endsVisibly_cons hy
      · rintro rfl
        -- Nothing follows, so the end tag is written.
        cases ending with
        | implied =>
            rw [Token.scan] at hy
            exact absurd hy.symm hSome
        | written e =>
            have hLast : IsNeatTag e :=
              hTokens (.tag e) List.mem_cons_self
            have hFull : e ≠ [] := by
              intro hNil
              have hOpens := hLast.opens
              rw [hNil] at hOpens
              cases hOpens
            rw [List.append_nil, sources_cons, sources_append,
              ← List.append_assoc, Ending.tokens,
              sources_singleton] at hEnd
            rw [sources_cons, sources_append, sources_singleton,
              Ending.text, hLast.tagText_eq]
            apply endsVisibly_append
            apply endsVisibly_append
            exact endsVisibly_of_append hFull hEnd
      · intro hMore
        exact ih hy (endsVisibly_of_append hMore hEnd)

/- A tag that nothing stands around is not indented. -/
theorem depth_of_element
    {s content : Text}
    {head : Tag.Head}
    {depth : Nat}
    {after : Nest}
    (h : element {} s head = ([.line depth content], after)) :
    depth = 0 := by
  have hStart :
      startElement {} head.name.lower (Tag.normalize s) =
        ([.line 0 (Tag.normalize s)],
          Nest.push {} head.name.lower) := by
    rw [startElement, if_neg (by simp)]
    rfl
  unfold element at h
  simp only at h
  split at h
  · cases h
    rfl
  · split at h
    · cases h
      rfl
    · split at h
      · cases h
        rfl
      · split at h
        · cases h
          rfl
        · rw [hStart] at h
          cases h
          rfl

/- Neither is a comment. -/
theorem depth_of_comment
    {s content : Text}
    {depth : Nat}
    {after : Nest}
    (h : comment {} s = ([.line depth content], after)) :
    depth = 0 := by
  unfold comment at h
  simp only at h
  split at h
  · cases h
    rfl
  · split at h
    · cases h
      rfl
    · cases h
      rfl

/- The first row of a document begins as the document does. -/
theorem Prints.exists_first
    {tokens : List Token}
    {rows : List Row}
    {x : Text}
    (h : Prints {} tokens rows)
    (hScan : Token.scan x = tokens)
    (hStart : x.head?.any (!isSpace ·) = true) :
    ∃ content more,
      rows = ⟨0, content⟩ :: more ∧
      (sources content).head?.any (!isSpace ·) = true := by
  -- A bracket is no space.
  have hOpen {s : Text} (more : Text)
      (hOpens : s.head? = some '<') :
      (s ++ more).head?.any (!isSpace ·) = true := by
    rw [List.head?_append, hOpens]
    rfl
  -- Neither is the start of a text, so it is not trimmed.
  have hText {s : Text} {rest : List Token}
      (hScan : Token.scan x = .text s :: rest) :
      (s.trim isBlank).head?.any (!isSpace ·) = true := by
    have hSome : x ≠ [] := by
      rintro rfl
      cases hStart
    have hPos := Token.length_first_pos hSome
    rcases Token.exists_of_scan hScan with ⟨y, rfl, hFirst, _⟩
    rw [hFirst, Token.source] at hPos
    rcases List.exists_cons_of_length_pos hPos with
      ⟨c, body, rfl⟩
    have hc : isBlank c = false := by
      rw [Bool.eq_false_iff]
      intro hBlank
      rw [Token.source, List.cons_append, List.head?_cons,
        Option.any_some, isSpace_of_isBlank hBlank] at hStart
      cases hStart
    rw [Text.trim, List.dropWhile_cons_of_neg (by simp [hc]),
      Text.trimEnd_cons body hc]
    exact hStart
  cases h with
  | nil =>
      cases x with
      | nil => cases hStart
      | cons c body =>
          rw [Token.scan] at hScan
          cases hScan
  | blank hBlank hRest =>
      have hTrim := hText hScan
      rw [hBlank] at hTrim
      cases hTrim
  | text hNeat hSome hNext hRest =>
      refine ⟨_, _, rfl, ?_⟩
      rw [sources_singleton]
      exact hText hScan
  | verbatim hNeat hRest =>
      exact ⟨_, _, rfl, hOpen [] hNeat.1.1⟩
  | comment hNeat hComment hRest =>
      have hDepth := depth_of_comment hComment
      subst hDepth
      exact ⟨_, _, rfl, hOpen [] hNeat.1⟩
  | alone hNeat hRead hSpan hElement hRest =>
      have hDepth := depth_of_element hElement
      subst hDepth
      exact ⟨_, _, rfl, hOpen [] hNeat.opens⟩
  | joined hNeat =>
      exact ⟨_, _, rfl, hOpen _ hNeat.opens⟩

end Markup

end WebTidy

------------------------------------------------------------
-- Laying Out A Page
------------------------------------------------------------

namespace WebTidy

namespace Markup

/- The layout of a page by its walk. -/
theorem prettify_eq_ok
    {format : StyleFormatter}
    {document : Text}
    {items : List Item}
    {last : Nest}
    (h :
      walk format {} (Token.scan (document.trim isSpace)) =
        .ok (items, last)) :
    prettify format document = .ok (pageText items) := by
  unfold prettify render
  rw [layout_eq_walk, h]
  rfl

/- The page of nothing is empty. -/
theorem prettify_nil
    (format : StyleFormatter) :
    prettify format [] = .ok [] := by
  have hWalk :
      walk format {} (Token.scan (Text.trim isSpace [])) =
        .ok ([], {}) := by
    rw [show Text.trim isSpace [] = [] from rfl, Token.scan,
      walk]
  exact prettify_eq_ok hWalk

/- A text with visible ends is trimmed to itself. -/
theorem trim_of_endsVisibly
    {p : Char → Bool}
    {t tail : Text}
    (hClass : ∀ c, p c = true → isSpace c = true)
    (hTail : tail.all p = true)
    (hFirst : t.head?.any (!isSpace ·) = true)
    (hLast : endsVisibly t = true) :
    (t ++ tail).trim p = t := by
  have hOut {found : Option Char}
      (hFound : found.any (!isSpace ·) = true) :
      found.all (!p ·) = true := by
    cases found with
    | none => rfl
    | some c =>
        have hc : p c = false := by
          rw [Bool.eq_false_iff]
          intro hIn
          rw [Option.any_some, hClass c hIn] at hFound
          cases hFound
        rw [Option.all_some, hc]
        rfl
  rw [← List.nil_append t]
  exact Text.trim_append rfl hTail (hOut hFirst) (hOut hLast)

/-
  The page of a document: without its last line end it is
  the text of the rows behind the first line end.
-/
theorem Prints.exists_page
    {tokens : List Token}
    {rows : List Row}
    {x : Text}
    (h : Prints {} tokens rows)
    (hScan : Token.scan x = tokens)
    (hStart : x.head?.any (!isSpace ·) = true)
    (hEnd : endsVisibly x = true) :
    ∃ page,
      seam rows = ['\n'] ++ page ∧
      rows.flatMap Row.text = page ++ ['\n'] ∧
      page.head?.any (!isSpace ·) = true ∧
      endsVisibly page = true := by
  have hSeam := h.endsVisibly_seam hScan hEnd
  rcases h.exists_first hScan hStart with
    ⟨content, more, rfl, hContent⟩
  have hPage :
      seam (⟨0, content⟩ :: more) =
        ['\n'] ++ (sources content ++ seam more) := rfl
  have hHead :
      (sources content ++ seam more).head?.any (!isSpace ·) =
        true := by
    cases hSources : sources content with
    | nil =>
        rw [hSources] at hContent
        cases hContent
    | cons c body =>
        rw [hSources] at hContent
        exact hContent
  have hSome : sources content ++ seam more ≠ [] := by
    intro hNil
    rw [hNil] at hHead
    cases hHead
  refine ⟨sources content ++ seam more, hPage, ?_, hHead, ?_⟩
  · have hRows := seam_append (⟨0, content⟩ :: more)
    rw [hPage] at hRows
    exact (List.cons.inj hRows).2.symm
  · rw [hPage] at hSeam
    exact endsVisibly_of_append hSome hSeam

/- The rows of a document are the layout of their page. -/
theorem Prints.prettify_page
    {rows : List Row}
    {x : Text}
    (format : StyleFormatter)
    (h : Prints {} (Token.scan x) rows)
    (hStart : x.head?.any (!isSpace ·) = true)
    (hEnd : endsVisibly x = true) :
    ∃ page,
      Text.trim isBlank (rows.flatMap Row.text) = page ∧
      prettify format page = .ok page := by
  rcases h.exists_page rfl hStart hEnd with
    ⟨page, hSeam, hText, hFirst, hLast⟩
  have hTrim :
      Text.trim isBlank (rows.flatMap Row.text) = page := by
    rw [hText]
    exact trim_of_endsVisibly (fun _ => isSpace_of_isBlank)
      (by rfl) hFirst hLast
  have hSame : page.trim isSpace = page := by
    have hWhole :=
      trim_of_endsVisibly (p := isSpace) (t := page)
        (fun _ => id) (List.all_nil) hFirst hLast
    rwa [List.append_nil] at hWhole
  have hScan := (h.scan_seam rfl).2
  rw [hSeam, Token.scan_text_append page (by decide)] at hScan
  rcases h.replays format with ⟨items, last, hWalk, hItems⟩
  rw [← hScan, walk_attach_blanks _ (by rfl), ← hSame] at hWalk
  refine ⟨page, hTrim, ?_⟩
  rw [prettify_eq_ok hWalk, pageText, hItems, hTrim]

/-
  The layout of a tidy document does not change it again,
  however its elements are nested.
-/
theorem prettify_of_prettify
    {format : StyleFormatter}
    {document out : Text}
    (hTidy :
      ∀ token ∈ Token.scan (document.trim isSpace),
        token.isTidy = true)
    (h : prettify format document = .ok out) :
    prettify format out = .ok out := by
  have hEnds := Text.trim_ends isSpace document
  generalize hText : document.trim isSpace = x at hTidy hEnds
  have hBlank : x.getLast?.all (!isBlank ·) = true := by
    cases hLast : x.getLast? with
    | none => rfl
    | some c =>
        rw [hLast] at hEnds
        rw [Option.all_some, Bool.not_eq_true',
          Bool.eq_false_iff]
        intro hc
        rw [Option.all_some, isSpace_of_isBlank hc] at hEnds
        cases hEnds.2
  rcases exists_prints format {} (Token.scan x)
      (fun token hToken =>
        Token.isNeat_of_mem_scan hBlank hToken
          (hTidy token hToken))
      (Token.isChain_scan x) isSound_nil with
    ⟨items, last, rows, hWalk, hRows, hItems⟩
  rw [← hText] at hWalk
  have hOut :
      out = Text.trim isBlank (rows.flatMap Row.text) := by
    rw [prettify_eq_ok hWalk, pageText, hItems] at h
    exact (Except.ok.inj h).symm
  cases x with
  | nil =>
      rw [Token.scan] at hRows
      rw [hRows.rows_eq_nil] at hOut
      rw [hOut]
      exact prettify_nil format
  | cons c body =>
      have hStart :
          (c :: body).head?.any (!isSpace ·) = true :=
        hEnds.1
      have hEnd : endsVisibly (c :: body) = true := by
        rw [endsVisibly,
          List.getLast?_eq_some_getLast (List.cons_ne_nil c body)]
        rw [List.getLast?_eq_some_getLast
          (List.cons_ne_nil c body)] at hEnds
        exact hEnds.2
      rcases hRows.prettify_page format hStart hEnd with
        ⟨page, hPage, hAgain⟩
      rw [hOut, hPage]
      exact hAgain

/-
  A list between a stray end tag and an unclosed element,
  with inline elements out of order and omitted end tags.
-/
def openList :
    Text :=
  "</b><ul><li>a <b>b</i>  c<li>\n<p>d</ul><pre> e".toList

/- The page of the list. -/
def openListPage :
    Text :=
  "</b>\n<ul>\n\t<li>a <b>b</i> c</li>\n\t<li>\n".toList ++
    "\t\t<p>d</p>\n\t</li>\n</ul>\n<pre>\n\te".toList

/- The page of the list is its own layout. -/
theorem prettify_openListPage :
    (∀ token ∈ Token.scan (openList.trim isSpace),
      token.isTidy = true) ∧
    prettify .ok openList = .ok openListPage ∧
    prettify .ok openListPage = .ok openListPage := by
  have hTidy :
      ∀ token ∈ Token.scan (openList.trim isSpace),
        token.isTidy = true := by
    decide +kernel
  have hPage : prettify .ok openList = .ok openListPage := by
    decide +kernel
  exact ⟨hTidy, hPage, prettify_of_prettify hTidy hPage⟩

end Markup

end WebTidy
