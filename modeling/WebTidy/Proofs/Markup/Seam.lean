import WebTidy.Proofs.Markup.Rows

/-
  Scanning the rows of a layout.

  Between two rows stand a line end and tabs, which become
  part of the texts around them.  Nothing that the document
  leaves open is closed by what the layout writes, so apart
  from those blanks the rows are scanned as their tokens.

  Key definitions include:
    * `WebTidy.Markup.follow`

  Key theorems include:
    * `WebTidy.Markup.scan_endTag_append`
    * `WebTidy.Markup.Squeezed.scan_again`
    * `WebTidy.Markup.Prints.scan_seam`
-/

------------------------------------------------------------
-- Tokens In Front Of A Text
------------------------------------------------------------

namespace WebTidy

namespace Markup

variable
  {x y z : Text}

/- Closing words come from the one part or the other. -/
theorem Lacks.append
    {s u : Text}
    (hFirst : Lacks s u)
    (hSecond : Lacks y z)
    (hEdge : Edge u z) :
    Lacks (s ++ y) (u ++ z) := by
  intro w hw hWord
  rcases hw.infix_append hEdge hWord with hLeft | hRight
  · exact (hFirst w hw hLeft).trans
      (List.prefix_append s y).isInfix
  · exact (hSecond w hw hRight).trans
      (List.suffix_append s y).isInfix

/- A text has the closing words of its parts. -/
theorem Lacks.append_left
    (s : Text)
    (h : Lacks y z) :
    Lacks (s ++ y) z := by
  intro w hw hWord
  exact (h w hw hWord).trans (List.suffix_append s y).isInfix

/- A token ends with a bracket, or with the document. -/
theorem Token.getLast?_source
    {token : Token}
    (hFirst : first (token.source ++ y) = token)
    (hMarkup : token.source.head? = some '<') :
    token.source.getLast? = some '>' ∨ y = [] := by
  have hHead : (token.source ++ y).head? = some '<' := by
    rw [List.head?_append, hMarkup]
    rfl
  have hShaped := isShaped_first (token.source ++ y)
  rcases first_cases hHead with
    ⟨n, _, hToken⟩ | ⟨_, n, _, hToken⟩ |
    ⟨_, _, n, hn, hToken⟩ | hToken
  · rw [hToken] at hShaped
    rw [← hFirst, hToken]
    exact Or.inl hShaped.2
  · rw [hToken] at hShaped
    rw [← hFirst, hToken]
    exact Or.inl hShaped.2
  · rw [Tag.endIndex?] at hn
    rcases Option.map_eq_some_iff.mp hn with ⟨k, hk, rfl⟩
    have hClose := Tag.getElem?_closeIndex? hk
    rw [List.getElem?_drop, Nat.add_comm] at hClose
    rw [← hFirst, hToken]
    exact Or.inl (isBracketed_take hHead hClose).2
  · rw [hFirst] at hToken
    have hWhole := congrArg Token.source hToken
    rw [Token.source] at hWhole
    exact Or.inr (List.self_eq_append_right.mp hWhole)

/- A bracketed token is scanned again. -/
theorem Token.scan_again
    {token : Token}
    (hFirst : first (token.source ++ y) = token)
    (hMarkup : token.source.head? = some '<')
    (hNil : y = [] → z = [])
    (hLacks : Lacks y z) :
    Lacks (token.source ++ y) (token.source ++ z) ∧
      scan (token.source ++ z) = token :: scan z := by
  constructor
  · apply Lacks.append (fun _ _ hWord => hWord) hLacks
    rcases getLast?_source hFirst hMarkup with hLast | hEnd
    · exact Or.inl hLast
    · exact Or.inr (Or.inl (hNil hEnd))
  · apply scan_markup
    · intro hSource
      rw [hSource] at hMarkup
      cases hMarkup
    · exact first_again hFirst hMarkup hNil hLacks

end Markup

end WebTidy

------------------------------------------------------------
-- Supplied End Tags
------------------------------------------------------------

namespace WebTidy

namespace Markup

/- Letters and marks of which every closing word has one. -/
def closingLetters :
    Text :=
  ['r', 'y', '-', ']']

/- A closing word has one of the closing letters. -/
theorem Closer.exists_closingLetter
    {w : Text}
    (h : Closer w) :
    ∃ c ∈ w, c.toLower ∈ closingLetters := by
  cases h with
  | comment => exact ⟨'-', by decide, by decide⟩
  | marker => exact ⟨']', by decide, by decide⟩
  | endTag hName hEnd =>
      rcases hEnd with ⟨letters, blanks, hSame, _, rfl⟩
      have hClass : isVerbatim letters = true := by
        rw [← hName]
        unfold Text.sameLetters at hSame
        exact isAmong_congr _ (of_decide_eq_true hSame)
      unfold isVerbatim isAmong at hClass
      rcases List.any_eq_true.mp hClass with
        ⟨listed, hListed, hLetters⟩
      unfold Text.sameLetters at hLetters
      rw [decide_eq_true_eq] at hLetters
      have hAll :
          ["pre", "textarea", "script", "style"].all
            (fun listed =>
              (Text.lower listed.toList).any
                (closingLetters.contains ·)) = true := by
        rfl
      have hAny := List.all_eq_true.mp hAll listed hListed
      rw [← hLetters] at hAny
      rcases List.any_eq_true.mp hAny with ⟨d, hd, hClosing⟩
      unfold Text.lower at hd
      rcases List.mem_map.mp hd with ⟨c, hc, rfl⟩
      refine ⟨c, by simp [hc], ?_⟩
      exact List.contains_iff_mem.mp hClosing

/- A supplied end tag closes nothing else. -/
theorem not_infix_endTag
    {w name : Text}
    (h : Closer w)
    (hName : name ∈ omissible) :
    ¬ w <:+: endTag name := by
  intro hWord
  rcases h.exists_closingLetter with ⟨c, hc, hClosing⟩
  have hAll :
      omissible.all (fun name =>
        (endTag name).all fun c =>
          !closingLetters.contains c.toLower) = true := by
    rfl
  have hLetters := List.all_eq_true.mp hAll name hName
  have hNot := List.all_eq_true.mp hLetters c (hWord.subset hc)
  rw [List.contains_iff_mem.mpr hClosing] at hNot
  cases hNot

/- A supplied end tag is scanned as a tag. -/
theorem scan_endTag_append
    {name : Text}
    (hName : name ∈ omissible)
    (z : Text) :
    Token.scan (endTag name ++ z) =
      .tag (endTag name) :: Token.scan z := by
  have hFirst :
      Token.first (endTag name ++ z) = .tag (endTag name) := by
    unfold omissible at hName
    rcases List.mem_map.mp hName with ⟨listed, hListed, rfl⟩
    simp only [List.mem_cons, List.not_mem_nil, or_false]
      at hListed
    rcases hListed with rfl | rfl | rfl | rfl | rfl
    · rfl
    · rfl
    · rfl
    · rfl
    · rfl
  have hSome : (Token.tag (endTag name)).source ≠ [] := by
    simp [Token.source, endTag]
  exact Token.scan_markup hSome hFirst

/- It closes nothing that a text leaves open. -/
theorem Lacks.endTag_append
    {x z name : Text}
    (hName : name ∈ omissible)
    (h : Lacks x z) :
    Lacks x (endTag name ++ z) := by
  intro w hw hWord
  have hEdge : Edge (endTag name) z :=
    Or.inl List.getLast?_concat
  rcases hw.infix_append hEdge hWord with hLeft | hRight
  · exact absurd hLeft (not_infix_endTag hw hName)
  · exact h w hw hRight

end Markup

end WebTidy

------------------------------------------------------------
-- Lines
------------------------------------------------------------

namespace WebTidy

namespace Markup

/-
  The tokens on a line are scanned again in front of a tag
  that closes nothing else.
-/
theorem Squeezed.scan_again
    {between inner tokens : List Token}
    {x : Text}
    (h : Squeezed between inner)
    (hScan : Token.scan x = between ++ tokens)
    (hSome : tokens ≠ []) :
    ∃ y,
      Token.scan y = tokens ∧
      ∀ z, z.head? = some '<' → Lacks y z →
        Lacks x (sources inner ++ z) ∧
        Token.scan (sources inner ++ z) =
          inner.foldr Token.attach (Token.scan z) := by
  induction h generalizing x with
  | nil =>
      refine ⟨x, hScan, ?_⟩
      intro z _ hLacks
      exact ⟨hLacks, rfl⟩
  | @tag s rest inner hNeat hRest ih =>
      rcases Token.exists_of_scan hScan with
        ⟨more, rfl, hFirst, hMore⟩
      rcases ih hMore with ⟨y, hy, hAgain⟩
      refine ⟨y, hy, ?_⟩
      intro z hz hLacks
      rcases hAgain z hz hLacks with ⟨hInner, hText⟩
      have hNil : more = [] → sources inner ++ z = [] := by
        rintro rfl
        rw [Token.scan] at hMore
        exact absurd (List.append_eq_nil_iff.mp hMore.symm).2
          hSome
      have hTag :=
        Token.scan_again hFirst hNeat.opens hNil hInner
      rw [sources_cons, List.append_assoc]
      refine ⟨hTag.1, ?_⟩
      rw [hTag.2, hText]
      rfl
  | @blank s rest inner hBlank hRest ih =>
      rcases Token.exists_of_scan hScan with
        ⟨more, rfl, _, hMore⟩
      rcases ih hMore with ⟨y, hy, hAgain⟩
      refine ⟨y, hy, ?_⟩
      intro z hz hLacks
      rcases hAgain z hz hLacks with ⟨hInner, hText⟩
      exact ⟨hInner.append_left _, hText⟩
  | @text s u rest inner hNeat hKept hFull hNext hRest ih =>
      rcases Token.exists_of_scan hScan with
        ⟨more, rfl, _, hMore⟩
      rcases ih hMore with ⟨y, hy, hAgain⟩
      refine ⟨y, hy, ?_⟩
      intro z hz hLacks
      rcases hAgain z hz hLacks with ⟨hInner, hText⟩
      have hOpen : (sources inner ++ z).head? = some '<' := by
        rcases hRest.head?_cases with rfl | ⟨t, ht⟩ | hOpen
        · exact hz
        · exact absurd ht (hNext t)
        · rw [List.head?_append, hOpen]
          rfl
      rw [sources_cons, List.append_assoc]
      constructor
      · exact (hKept.lacks hNeat).append hInner
          (Or.inr (Or.inr (Or.inl hOpen)))
      · rw [Token.source,
          Token.scan_text_append _ (hKept.isNeat hNeat).1, hText]
        rfl

end Markup

end WebTidy

------------------------------------------------------------
-- Rows
------------------------------------------------------------

namespace WebTidy

namespace Markup

/- The tokens of some rows, with the blanks between them. -/
def follow :
    List Row → List Token
| [] => []
| row :: rows =>
    Token.attach (.text row.lead)
      (row.content.foldr Token.attach (follow rows))

/- The text of some rows is empty or begins with a blank. -/
theorem seam_cases
    (rows : List Row) :
    seam rows = [] ∨ (seam rows).head?.any isBlank = true := by
  cases rows with
  | nil => exact Or.inl rfl
  | cons row rows => exact Or.inr rfl

/- No tokens are no rows. -/
theorem Prints.rows_eq_nil
    {nest : Nest}
    {rows : List Row}
    (h : Prints nest [] rows) :
    rows = [] := by
  cases h with
  | nil => rfl

/- The rows begin with the blanks in front of the first. -/
theorem scan_seam_cons
    {x : Text}
    {row : Row}
    {rows : List Row}
    (hLacks : Lacks x (sources row.content ++ seam rows))
    (hScan :
      Token.scan (sources row.content ++ seam rows) =
        row.content.foldr Token.attach (follow rows)) :
    Lacks x (seam (row :: rows)) ∧
      Token.scan (seam (row :: rows)) = follow (row :: rows) := by
  have hSeam :
      seam (row :: rows) =
        row.lead ++ (sources row.content ++ seam rows) := by
    rw [← List.append_assoc]
    rfl
  have hOpen : '<' ∉ row.lead := by
    intro hMem
    have hBlank := List.all_eq_true.mp row.all_lead _ hMem
    cases hBlank
  rw [hSeam]
  constructor
  · intro w hw hWord
    exact hLacks w hw (hw.infix_of_blanks row.all_lead hWord)
  · rw [Token.scan_text_append _ hOpen, hScan]
    rfl

/- A row of one bracketed token is scanned again. -/
theorem scan_seam_markup
    {nest : Nest}
    {token : Token}
    {rest : List Token}
    {rows : List Row}
    {x : Text}
    (depth : Nat)
    (hRows : Prints nest rest rows)
    (hMarkup : token.source.head? = some '<')
    (hScan : Token.scan x = token :: rest)
    (hRest :
      ∀ y, Token.scan y = rest →
        Lacks y (seam rows) ∧
          Token.scan (seam rows) = follow rows) :
    Lacks x (seam (⟨depth, [token]⟩ :: rows)) ∧
      Token.scan (seam (⟨depth, [token]⟩ :: rows)) =
        follow (⟨depth, [token]⟩ :: rows) := by
  rcases Token.exists_of_scan hScan with
    ⟨y, rfl, hFirst, hy⟩
  rcases hRest y hy with ⟨hLacks, hSeam⟩
  have hNil : y = [] → seam rows = [] := by
    rintro rfl
    rw [Token.scan] at hy
    subst rest
    rw [hRows.rows_eq_nil]
    rfl
  have hAgain := Token.scan_again hFirst hMarkup hNil hLacks
  apply scan_seam_cons
  · rw [sources_singleton]
    exact hAgain.1
  · rw [sources_singleton, hAgain.2, hSeam]
    cases token with
    | text s =>
        rw [Token.source] at hFirst hMarkup
        exact absurd hFirst (Token.first_ne_text (by
          rw [List.head?_append, hMarkup]
          rfl) s)
    | tag s => rfl
    | verbatim s => rfl
    | comment s => rfl

/- The end tag of a block is scanned again. -/
theorem Ending.Fits.scan_again
    {nest : Nest}
    {name y : Text}
    {ending : Ending}
    {tail : List Token}
    {rows : List Row}
    (h : ending.Fits name)
    (hTokens : ∀ token ∈ ending.tokens, token.IsNeat)
    (hRows : Prints nest tail rows)
    (hScan : Token.scan y = ending.tokens ++ tail)
    (hRest :
      ∀ z, Token.scan z = tail →
        Lacks z (seam rows) ∧
          Token.scan (seam rows) = follow rows) :
    (ending.text name ++ seam rows).head? = some '<' ∧
      Lacks y (ending.text name ++ seam rows) ∧
      Token.scan (ending.text name ++ seam rows) =
        .tag (ending.text name) :: follow rows := by
  cases ending with
  | written s =>
      have hNeat : IsNeatTag s :=
        hTokens (.tag s) List.mem_cons_self
      rcases Token.exists_of_scan hScan with
        ⟨z, rfl, hFirst, hz⟩
      rcases hRest z hz with ⟨hLacks, hSeam⟩
      have hNil : z = [] → seam rows = [] := by
        rintro rfl
        rw [Token.scan] at hz
        have hTail : tail = [] := hz.symm
        subst tail
        rw [hRows.rows_eq_nil]
        rfl
      have hAgain :=
        Token.scan_again hFirst hNeat.opens hNil hLacks
      rw [Ending.text, hNeat.tagText_eq]
      refine ⟨?_, hAgain.1, ?_⟩
      · rw [List.head?_append, hNeat.opens]
        rfl
      · rw [← hSeam]
        exact hAgain.2
  | implied =>
      have hName : name.lower ∈ omissible := by
        apply mem_omissible _ (lower_lower name)
        rw [isAutoClosing, isAmong_lower]
        exact h
      rcases hRest y hScan with ⟨hLacks, hSeam⟩
      refine ⟨rfl, hLacks.endTag_append hName, ?_⟩
      rw [← hSeam]
      exact scan_endTag_append hName _

/- The rows of a document are scanned as their tokens. -/
theorem Prints.scan_seam
    {nest : Nest}
    {tokens : List Token}
    {rows : List Row}
    {x : Text}
    (h : Prints nest tokens rows)
    (hScan : Token.scan x = tokens) :
    Lacks x (seam rows) ∧
      Token.scan (seam rows) = follow rows := by
  induction h generalizing x with
  | nil =>
      refine ⟨?_, by rw [seam, follow]; exact Token.scan.eq_1⟩
      intro w hw hWord
      exact hWord.trans List.nil_infix
  | blank hBlank hRest ih =>
      rcases Token.exists_of_scan hScan with ⟨y, rfl, _, hy⟩
      rcases ih hy with ⟨hLacks, hSeam⟩
      exact ⟨hLacks.append_left _, hSeam⟩
  | @text nest s rest rows hNeat hSome hNext hRest ih =>
      rcases Token.exists_of_scan hScan with ⟨y, rfl, _, hy⟩
      rcases ih hy with ⟨hLacks, hSeam⟩
      rcases Text.exists_trim_append isBlank s with
        ⟨lead, tail, _, _, hText⟩
      have hPart : s.trim isBlank <:+: s :=
        ⟨lead, tail, hText.symm⟩
      have hOpen : '<' ∉ s.trim isBlank := by
        intro hMem
        exact hNeat.1 (hPart.subset hMem)
      apply scan_seam_cons
      · rw [sources_singleton]
        apply Lacks.append _ hLacks
        · rcases seam_cases rows with hNil | hBlank
          · exact Or.inr (Or.inl hNil)
          · exact Or.inr (Or.inr (Or.inr ⟨hOpen, hBlank⟩))
        · intro w _ hWord
          exact hWord.trans hPart
      · rw [sources_singleton, Token.source,
          Token.scan_text_append _ hOpen, hSeam]
        rfl
  | verbatim hNeat hRest ih =>
      exact scan_seam_markup _ hRest hNeat.1.1 hScan
        fun y hy => ih hy
  | comment hNeat hComment hRest ih =>
      exact scan_seam_markup _ hRest hNeat.1 hScan
        fun y hy => ih hy
  | supplied hName hRead hEnds hRest ih =>
      rcases ih hScan with ⟨hLacks, hSeam⟩
      apply scan_seam_cons
      · rw [sources_singleton]
        exact hLacks.endTag_append hName
      · rw [sources_singleton, Token.source,
          scan_endTag_append hName, hSeam]
        rfl
  | alone hNeat hRead hSpan hElement hRest ih =>
      exact scan_seam_markup _ hRest hNeat.opens hScan
        fun y hy => ih hy
  | @joined nest s head between inner ending tail rows hNeat
      hRead hStart hBlock hPasses hInner hTrim hEnding hTokens
      hSome hRest ih =>
      rcases Token.exists_of_scan hScan with
        ⟨more, rfl, hFirst, hMore⟩
      rcases hInner.scan_again hMore hSome with
        ⟨y, hy, hAgain⟩
      rcases hEnding.scan_again hTokens hRest hy
          fun z hz => ih hz with
        ⟨hOpen, hLacks, hEnd⟩
      rcases hAgain _ hOpen hLacks with ⟨hLine, hText⟩
      have hNil :
          more = [] →
            sources inner ++
              (ending.text head.name ++ seam rows) = [] := by
        rintro rfl
        rw [Token.scan] at hMore
        exact absurd (List.append_eq_nil_iff.mp hMore.symm).2
          hSome
      have hTag :=
        Token.scan_again hFirst hNeat.opens hNil hLine
      have hSources :
          sources
              (.tag s ::
                (inner ++ [.tag (ending.text head.name)])) ++
              seam rows =
            s ++ (sources inner ++
              (ending.text head.name ++ seam rows)) := by
        rw [sources_cons, sources_append, sources_singleton,
          List.append_assoc, List.append_assoc]
        rfl
      apply scan_seam_cons
      · rw [hSources]
        exact hTag.1
      · simp only [hSources, List.foldr_cons, List.foldr_append,
          List.foldr_nil]
        rw [← Token.source.eq_1 s, hTag.2, hText, hEnd]
        rfl

end Markup

end WebTidy
