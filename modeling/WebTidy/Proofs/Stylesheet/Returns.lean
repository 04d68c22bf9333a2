import WebTidy.Proofs.Stylesheet.Respacing

/-
  Carriage returns at the ends of lines.

  The scanner copies a carriage return before a line feed
  wherever it copies the line feed, and drops or folds it
  wherever it drops or folds the line feed.  So dropping the
  carriage returns of a style sheet and then laying it out
  is laying it out and then dropping them.

  Key definitions include:
    * `WebTidy.Text.dropReturns`
    * `WebTidy.Stylesheet.Scanner.thin`

  Key theorems include:
    * `WebTidy.Stylesheet.Scanner.step_thin`
    * `WebTidy.Stylesheet.Scanner.steps_thin`
    * `WebTidy.Stylesheet.Scanner.run_thin`
    * `WebTidy.Stylesheet.prettify_dropReturns`
-/

------------------------------------------------------------
-- Texts Without Carriage Returns
------------------------------------------------------------

namespace WebTidy

namespace Text

/- A text without the carriage return of each line feed. -/
def dropReturns :
    Text → Text
| [] => []
| c :: rest =>
    if c = '\r' ∧ rest.head? = some '\n' then
      dropReturns rest
    else c :: dropReturns rest

/- A carriage return before a line feed is dropped. -/
theorem dropReturns_return
    (rest : Text) :
    dropReturns ('\r' :: '\n' :: rest) =
      '\n' :: dropReturns rest := by
  simp [dropReturns]

/- Any other character stays. -/
theorem dropReturns_cons
    {c : Char}
    {rest : Text}
    (h : c = '\r' → rest.head? ≠ some '\n') :
    dropReturns (c :: rest) = c :: dropReturns rest := by
  rw [dropReturns, if_neg]
  rintro ⟨hc, hRest⟩
  exact h hc hRest

/- Two texts that are not parted inside a line end. -/
theorem dropReturns_append
    {s t : Text}
    (h : s.getLast? = some '\r' → t.head? ≠ some '\n') :
    dropReturns (s ++ t) = dropReturns s ++ dropReturns t := by
  induction s with
  | nil => rfl
  | cons c rest ih =>
      cases rest with
      | nil =>
          have hc : c = '\r' → t.head? ≠ some '\n' := by
            rintro rfl
            exact h rfl
          rw [List.singleton_append, dropReturns_cons hc,
            dropReturns_cons (by simp)]
          rfl
      | cons d more =>
          rw [List.getLast?_cons_cons] at h
          have hMore := ih h
          rw [List.cons_append] at hMore
          have hFirst (u : Text) :
              dropReturns (c :: d :: u) =
                if c = '\r' ∧ d = '\n' then
                  dropReturns (d :: u)
                else c :: dropReturns (d :: u) := by
            rw [dropReturns]
            simp
          rw [List.cons_append, List.cons_append, hFirst,
            hFirst, hMore]
          split <;> rfl

/- A text without carriage returns stays as it is. -/
theorem dropReturns_eq_self
    {t : Text}
    (h : '\r' ∉ t) :
    dropReturns t = t := by
  induction t with
  | nil => rfl
  | cons c rest ih =>
      rw [List.mem_cons, not_or] at h
      rw [dropReturns_cons (fun hc => absurd hc.symm h.1),
        ih h.2]

/- The last character stays. -/
theorem getLast?_dropReturns
    (t : Text) :
    (dropReturns t).getLast? = t.getLast? := by
  induction t with
  | nil => rfl
  | cons c rest ih =>
      rw [dropReturns]
      split
      · rename_i hReturn
        rcases List.head?_eq_some_iff.mp hReturn.2 with
          ⟨more, rfl⟩
        rw [ih, List.getLast?_cons_cons]
      · rw [List.getLast?_cons, List.getLast?_cons, ih]

/- The first character stays, but for a carriage return. -/
theorem head?_dropReturns
    (t : Text) :
    (dropReturns t).head? = t.head? ∨
      t.head? = some '\r' ∧
        (dropReturns t).head? = some '\n' := by
  cases t with
  | nil => exact Or.inl rfl
  | cons c rest =>
      rw [dropReturns]
      split
      · rename_i hReturn
        rcases List.head?_eq_some_iff.mp hReturn.2 with
          ⟨more, rfl⟩
        rw [dropReturns_cons (by simp)]
        exact Or.inr ⟨congrArg some hReturn.1, rfl⟩
      · exact Or.inl rfl

/- Nothing but carriage returns is dropped. -/
theorem all_dropReturns
    {p : Char → Bool}
    (hp : p '\r' = true)
    (t : Text) :
    (dropReturns t).all p = t.all p := by
  induction t with
  | nil => rfl
  | cons c rest ih =>
      rw [dropReturns]
      split
      · rename_i hReturn
        rw [ih, List.all_cons, hReturn.1, hp, Bool.true_and]
      · rw [List.all_cons, List.all_cons, ih]

/- Blanks at the end are trimmed before or after. -/
theorem trimEnd_dropReturns
    (t : Text) :
    (dropReturns t).trimEnd isBlank =
      dropReturns (t.trimEnd isBlank) := by
  rcases exists_trimEnd_append isBlank t with
    ⟨tail, hTail, hSplit⟩
  have hLast :
      (t.trimEnd isBlank).getLast?.all (!isBlank ·) = true :=
    trimEnd_ends isBlank t
  generalize t.trimEnd isBlank = front at *
  have hApart :
      front.getLast? = some '\r' → tail.head? ≠ some '\n' := by
    intro hReturn
    rw [hReturn] at hLast
    cases hLast
  rw [hSplit, dropReturns_append hApart]
  apply trimEnd_append
  · rw [all_dropReturns rfl, hTail]
  · rw [getLast?_dropReturns, hLast]

/- So are blanks at the start. -/
theorem dropWhile_dropReturns
    (t : Text) :
    (dropReturns t).dropWhile isBlank =
      dropReturns (t.dropWhile isBlank) := by
  induction t with
  | nil => rfl
  | cons c rest ih =>
      cases hc : isBlank c with
      | true =>
          rw [List.dropWhile_cons_of_pos hc, ← ih, dropReturns]
          split
          · rfl
          · rw [List.dropWhile_cons_of_pos hc]
      | false =>
          have hNe : c ≠ '\r' := by
            rintro rfl
            cases hc
          rw [List.dropWhile_cons_of_neg (by simp [hc]),
            dropReturns_cons (fun h => absurd h hNe),
            List.dropWhile_cons_of_neg (by simp [hc])]

end Text

end WebTidy

------------------------------------------------------------
-- What Is Seen Ahead
------------------------------------------------------------

namespace WebTidy

namespace Stylesheet

/- A class without carriage returns and line feeds. -/
theorem head?_any_dropReturns
    {p : Char → Bool}
    (hReturn : p '\r' = false)
    (hFeed : p '\n' = false)
    (t : Text) :
    t.dropReturns.head?.any p = t.head?.any p := by
  rcases Text.head?_dropReturns t with hSame | ⟨hOld, hNew⟩
  · rw [hSame]
  · rw [hOld, hNew, Option.any_some, Option.any_some, hReturn,
      hFeed]

/- A character other than these two. -/
theorem head?_dropReturns_iff
    {d : Char}
    (hReturn : d ≠ '\r')
    (hFeed : d ≠ '\n')
    (t : Text) :
    t.dropReturns.head? = some d ↔ t.head? = some d := by
  rcases Text.head?_dropReturns t with hSame | ⟨hOld, hNew⟩
  · rw [hSame]
  · rw [hOld, hNew, Option.some_inj, Option.some_inj]
    exact iff_of_false hFeed.symm hReturn.symm

/- The decision about a colon. -/
theorem selectorAhead_dropReturns
    (t : Text) :
    selectorAhead t.dropReturns = selectorAhead t := by
  unfold selectorAhead
  congr 2
  induction t with
  | nil => rfl
  | cons c rest ih =>
      rw [Text.dropReturns]
      split
      · rename_i hReturn
        rw [ih, hReturn.1]
        rfl
      · rw [List.find?_cons, List.find?_cons, ih]

/- A mark without carriage returns and line feeds. -/
theorem beginsWith_dropReturns
    (mark : Text)
    (hMark :
      (mark.all fun m =>
        m.toLower ≠ '\r' ∧ m.toLower ≠ '\n') = true)
    (t : Text) :
    Text.beginsWith mark t.dropReturns =
      Text.beginsWith mark t := by
  induction mark generalizing t with
  | nil => simp [Text.beginsWith]
  | cons m mark ih =>
      rw [List.all_cons, Bool.and_eq_true, decide_eq_true_eq]
        at hMark
      have hReturn : ¬ '\r'.toLower = m.toLower :=
        Ne.symm hMark.1.1
      have hFeed : ¬ '\n'.toLower = m.toLower :=
        Ne.symm hMark.1.2
      cases t with
      | nil => rfl
      | cons c rest =>
          by_cases hEnd : c = '\r' ∧ rest.head? = some '\n'
          · rcases List.head?_eq_some_iff.mp hEnd.2 with
              ⟨more, rfl⟩
            rw [hEnd.1, Text.dropReturns_return,
              Text.beginsWith_cons, Text.beginsWith_cons,
              decide_eq_false hReturn, decide_eq_false hFeed,
              Bool.false_and, Bool.false_and]
          · rw [Text.dropReturns, if_neg hEnd,
              Text.beginsWith_cons, Text.beginsWith_cons,
              ih hMark.2]

namespace Scanner

/- Everything that a step looks at ahead of a character. -/
theorem step_congr
    {c : Char}
    {t u : Text}
    (hStar : t.head? = some '*' ↔ u.head? = some '*')
    (hDash : t.head? = some '-' ↔ u.head? = some '-')
    (hIdent :
      t.head?.any isIdentStart = u.head?.any isIdentStart)
    (hSelector : selectorAhead t = selectorAhead u)
    (hBlank : c = '}' → t.all isBlank = u.all isBlank)
    (hCalc :
      Text.beginsWith "calc(".toList (c :: t) =
        Text.beginsWith "calc(".toList (c :: u))
    (s : Scanner) :
    s.step c t = s.step c u := by
  by_cases hBrace : c = '}'
  · simp only [step, read, readCode, closeBlock, readColon,
      readPlain, readValue, readOperator, trackCalc, isHyphen,
      hStar, hDash, hIdent, hSelector, hBlank hBrace, hCalc]
  · simp only [step, read, readCode, readColon,
      readPlain, readValue, readOperator, trackCalc, isHyphen,
      hStar, hDash, hIdent, hSelector, hBrace, hCalc, if_false]

/- Carriage returns do not matter ahead of a character. -/
theorem step_dropReturns
    (s : Scanner)
    (c : Char)
    (rest : Text)
    (hc : c = '\r' → rest.head? ≠ some '\n') :
    s.step c rest.dropReturns = s.step c rest := by
  apply step_congr
  · exact head?_dropReturns_iff (by decide) (by decide) rest
  · exact head?_dropReturns_iff (by decide) (by decide) rest
  · exact head?_any_dropReturns rfl rfl rest
  · exact selectorAhead_dropReturns rest
  · exact fun _ => Text.all_dropReturns rfl rest
  · rw [← Text.dropReturns_cons hc]
    exact beginsWith_dropReturns _ (by decide) _

end Scanner

end Stylesheet

end WebTidy

------------------------------------------------------------
-- Thin Scanners
------------------------------------------------------------

namespace WebTidy

namespace Stylesheet

namespace Scanner

/- A scanner that has written no carriage returns. -/
def thin
    (s : Scanner) :
    Scanner :=
  { s with
    written := (Text.dropReturns s.written.reverse).reverse }

/- One character more, if it completes no line end. -/
theorem dropReturns_reverse_cons
    {c : Char}
    {w : Text}
    (h : c = '\n' → w.head? ≠ some '\r') :
    (Text.dropReturns (c :: w).reverse).reverse =
      c :: (Text.dropReturns w.reverse).reverse := by
  have hApart :
      w.reverse.getLast? = some '\r' →
        [c].head? ≠ some '\n' := by
    rw [List.getLast?_reverse, List.head?_cons, ne_eq,
      Option.some_inj]
    exact fun hReturn hFeed => h hFeed hReturn
  rw [List.reverse_cons, Text.dropReturns_append hApart,
    List.reverse_append]
  simp [Text.dropReturns]

/- The view of a scanner that shows it so. -/
def thinView :
    View where
  output := fun w => (Text.dropReturns w.reverse).reverse
  before := id
  last := id
  keeps := Octet.keeps_id
  head?_output := by
    intro w
    rw [List.head?_reverse, Text.getLast?_dropReturns,
      List.getLast?_reverse]
    exact (congrFun Option.map_id w.head?).symm
  dropWhile_output := by
    intro w
    have hTrim := Text.trimEnd_dropReturns w.reverse
    unfold Text.trimEnd at hTrim
    rw [List.reverse_reverse] at hTrim
    rw [← hTrim, List.reverse_reverse]
  output_cons := fun _ h => dropReturns_reverse_cons h

/- The last character written is the same. -/
@[simp] theorem last?_thin
    (s : Scanner) :
    s.thin.last? = s.last? := by
  have hLast := thinView.last?_of s
  exact hLast.trans (congrFun Option.map_id s.last?)

/- Taking back blanks after or before. -/
theorem trimmed_thin
    (s : Scanner) :
    s.thin.trimmed = s.trimmed.thin := by
  exact thinView.trimmed_of s

/- The final part is the same but for carriage returns. -/
theorem core_thin
    (s : Scanner) :
    s.thin.core =
      (Text.dropReturns s.core.reverse).reverse := by
  exact congrArg Scanner.written (trimmed_thin s)

/- Every step on a character that completes no line end. -/
theorem step_thin
    (s : Scanner)
    (c : Char)
    (rest : Text)
    (h : c = '\n' → s.last? ≠ some '\r') :
    s.thin.step c rest = (s.step c rest).thin := by
  exact thinView.step_of s (fun _ => dropReturns_reverse_cons)
    rest rfl (dropReturns_reverse_cons h) rfl

end Scanner

end Stylesheet

end WebTidy

------------------------------------------------------------
-- Reading Line Ends
------------------------------------------------------------

namespace WebTidy

namespace Stylesheet

namespace Scanner

/- A blank of code outside values. -/
theorem step_gap
    {s : Scanner}
    {c : Char}
    (rest : Text)
    (hCode : s.context = .code)
    (hSkip : s.skipping = false)
    (hValue : s.inValue = false)
    (hc : isBlank c = true) :
    s.step c rest =
      (if s.atLineStart then s
        else s.write [c]).remember (some c) := by
  have hAttend : { s with skipping := false } = s := by
    rw [← hSkip]
  rw [step, read, hCode]
  simp only [hSkip, Bool.false_eq_true, false_and, if_false]
  rw [readCode_blank s rest hc, hAttend, readPlain, hValue,
    if_neg (by simp)]
  by_cases hStart : s.atLineStart = true
  · rw [if_pos ⟨hc, hStart⟩, if_pos hStart]
    rfl
  · have hLast : ¬ s.last? = some '\n' := by
      intro hLast
      exact hStart (by simp [atLineStart, hLast])
    rw [if_neg (fun h => hStart h.2), if_neg hStart, put,
      if_neg hLast]
    rfl

/- A line end is written as its line feed. -/
theorem write_return_thin
    (s : Scanner) :
    ((s.write ['\r']).write ['\n']).thin =
      s.thin.write ['\n'] := by
  have hApart :
      s.written.reverse.getLast? = some '\r' →
        ['\r', '\n'].head? ≠ some '\n' := by
    simp
  rw [write_write]
  unfold write thin
  simp only [List.reverse_append, List.reverse_reverse]
  rw [List.singleton_append, Text.dropReturns_append hApart,
    List.reverse_append]
  rfl

/- A line end is copied as its line feed. -/
theorem copied_return_thin
    (s : Scanner)
    (context : Context) :
    (s.copied ['\r', '\n'] context).thin =
      s.thin.copied ['\n'] context := by
  have hWrite :=
    congrArg Scanner.written (write_return_thin s)
  rw [write_write] at hWrite
  unfold copied
  exact congrArg
    (fun t : Text =>
      { s with
        written := t
        before := some '\n'
        context := context })
    hWrite

/- The character behind the slash of a comment. -/
theorem step_opening
    {s : Scanner}
    (c : Char)
    (rest : Text)
    (hContext : s.context = .opening) :
    s.step c rest = s.copied [c] (.comment false) := by
  rw [step, read, hContext]
  rfl

/- A line end between values is read as its line feed. -/
theorem steps_gap_thin
    {s : Scanner}
    (rest : Text)
    (hCode : s.context = .code)
    (hSkip : s.skipping = false)
    (hValue : s.inValue = false) :
    s.thin.step '\n' rest =
      ((s.step '\r' ('\n' :: rest)).step '\n' rest).thin := by
  have hStart : s.thin.atLineStart = s.atLineStart := by
    rw [atLineStart, atLineStart, last?_thin]
  rw [@step_gap s.thin '\n' rest hCode hSkip hValue rfl, hStart,
    @step_gap s '\r' ('\n' :: rest) hCode hSkip hValue rfl]
  split
  · rename_i hLine
    have hAgain : (s.remember (some '\r')).atLineStart = true :=
      hLine
    rw [@step_gap (s.remember (some '\r')) '\n' rest hCode hSkip
      hValue rfl, if_pos hAgain]
    rfl
  · have hInside :
        ¬ ((s.write ['\r']).remember
          (some '\r')).atLineStart = true := by
      simp [atLineStart, remember, last?, write]
    rw [@step_gap ((s.write ['\r']).remember (some '\r')) '\n'
      rest hCode hSkip hValue rfl, if_neg hInside,
      ← write_return_thin s]
    rfl

/- So is every line end of code. -/
theorem steps_code_thin
    {s : Scanner}
    (rest : Text)
    (hCode : s.context = .code) :
    s.thin.step '\n' rest =
      ((s.step '\r' ('\n' :: rest)).step '\n' rest).thin := by
  have hBlanks : ['\r', '\n'].all isBlank = true := rfl
  cases hSkip : s.skipping with
  | true =>
      have hBoth := through_skipping rest hCode hSkip hBlanks
      have hThin :=
        @through_skipping s.thin ['\n'] rest hCode hSkip rfl
      exact hThin.trans (congrArg thin hBoth).symm
  | false =>
      cases hValue : s.inValue with
      | true =>
          have hReads : s.readsValue = true := by
            simp [readsValue, hCode, hValue]
          have hBoth :=
            through_spaced rest hReads (by simp) hBlanks
          have hThin :=
            @step_spaced s.thin '\n' rest hReads rfl
          have hSpaced : s.thin.spaced = s.spaced.thin :=
            thinView.spaced_of s
          rw [hSpaced] at hThin
          exact hThin.trans (congrArg thin hBoth).symm
      | false => exact steps_gap_thin rest hCode hSkip hValue

/- So is every line end, wherever it stands. -/
theorem steps_thin
    {s : Scanner}
    {rest : Text}
    (hs : Reached s ('\r' :: '\n' :: rest)) :
    s.thin.step '\n' rest =
      ((s.step '\r' ('\n' :: rest)).step '\n' rest).thin := by
  have hComment :
      (s.copied ['\r'] (.comment false)).step '\n' rest =
        s.copied ['\r', '\n'] (.comment false) := by
    rw [step_comment '\n' rest rfl, copied_copied]
    rfl
  cases hContext : s.context with
  | code => exact steps_code_thin rest hContext
  | opening =>
      rw [step_opening '\r' _ hContext, hComment,
        copied_return_thin]
      exact step_opening '\n' rest hContext
  | comment star =>
      have hStep (t : Scanner) (c : Char) (more : Text)
          (ht : t.context = .comment star)
          (hSlash : c ≠ '/')
          (hStar : c ≠ '*') :
          t.step c more = t.copied [c] (.comment false) := by
        rw [step_comment c more ht, if_neg (by simp [hSlash]),
          decide_eq_false hStar]
      rw [hStep s.thin '\n' rest hContext (by decide) (by decide),
        hStep s '\r' _ hContext (by decide) (by decide),
        hComment, copied_return_thin]
  | quoted mark escaped =>
      have hMark : '\r' ≠ mark ∧ '\n' ≠ mark := by
        rcases hs.mark _ _ hContext with rfl | rfl <;> decide
      have hReturn :
          afterQuoted mark escaped '\r' =
            .quoted mark false := by
        simp [afterQuoted, hMark]
      have hFeed (flag : Bool) :
          afterQuoted mark flag '\n' = .quoted mark false := by
        simp [afterQuoted, hMark]
      have hThin :
          s.thin.step '\n' rest =
            s.thin.copied ['\n'] (.quoted mark false) := by
        rw [@step_quoted s.thin mark escaped '\n' rest hContext,
          hFeed]
      rw [hThin, step_quoted '\r' _ hContext, hReturn,
        step_quoted '\n' rest rfl, hFeed, copied_copied,
        List.singleton_append, copied_return_thin]
  | dash => cases hs.dash hContext

/- A scanner that skips blanks behind no carriage return. -/
def SkipsCleanly
    (s : Scanner) :
    Prop :=
  s.context = .code → s.skipping = true →
    s.last? ≠ some '\r'

/- The last character of what is written. -/
theorem last?_write_concat
    (s : Scanner)
    (t : Text)
    (c : Char) :
    (s.write (t ++ [c])).last? = some c := by
  simp [last?, write]

/- The character behind its indentation. -/
theorem last?_put
    (s : Scanner)
    (c : Char) :
    (s.put c).last? = some c := by
  unfold put
  split
  · exact last?_write_concat s s.tabs c
  · exact last?_write_concat s [] c

section Last

variable
  (s : Scanner)
  {c : Char}
  (rest : Text)
  (hc : c ≠ '\r')

include hc

/- No other character of a value writes a carriage return, -/
theorem last?_readValue_ne :
    (s.readValue c rest).last? ≠ some '\r' := by
  have hPut (t : Scanner) : (t.put c).last? ≠ some '\r' := by
    rw [last?_put]
    simpa using hc
  unfold readValue
  simp only
  generalize s.trackCalc c rest = t
  split
  · unfold readOperator
    split
    · simpa [last?, write] using hc
    · split
      · exact hPut t
      · simp [last?, write]
  · split
    · split
      · simp [last?, write]
      · rename_i hSpace
        intro hLast
        exact hSpace (by simp [takesSpace, hLast])
    · split
      · exact hPut t.trimmed
      · exact hPut t

/- and no other character of code. -/
theorem last?_readCode_ne :
    (s.readCode c rest).last? ≠ some '\r' := by
  have hPut (t : Scanner) : (t.put c).last? ≠ some '\r' := by
    rw [last?_put]
    simpa using hc
  unfold readCode
  simp only
  generalize { s.trackGroup c with skipping := false } = t
  split
  · simp [openComment, last?, write]
  split
  · exact hPut t
  split
  · simp [openBlock, last?, write]
  split
  · unfold closeBlock
    simp only
    split
    · simp [last?, write]
    · simp [last?, write]
  split
  · simp [endDeclaration, last?, write]
  split
  · simp [readComma, last?, write]
  split
  · unfold readColon
    simp only
    split
    · simp [last?, write]
    · simp [last?, write]
  · unfold readPlain
    split
    · exact last?_readValue_ne t rest hc
    · split
      · rename_i hStart
        intro hLast
        have hLine := hStart.2
        simp [atLineStart, hLast] at hLine
      · exact hPut t

/- So is the case in every context. -/
theorem last?_step_ne
    (hs : SkipsCleanly s) :
    (s.step c rest).last? ≠ some '\r' := by
  have hWrite : (s.write [c]).last? ≠ some '\r' := by
    simpa [last?, write] using hc
  unfold step read
  cases hContext : s.context with
  | code =>
      simp only
      split
      · rename_i hSkip
        exact hs hContext hSkip.1
      · exact last?_readCode_ne s rest hc
  | opening => exact hWrite
  | comment star => exact hWrite
  | quoted mark escaped => exact hWrite
  | dash => exact hWrite

end Last

/- A carriage return ends no skipping, and starts none. -/
theorem skipsCleanly_step_return
    {s : Scanner}
    {rest : Text}
    (hs : Reached s ('\r' :: rest))
    (hClean : SkipsCleanly s) :
    SkipsCleanly (s.step '\r' rest) := by
  cases hContext : s.context with
  | code =>
      cases hSkip : s.skipping with
      | true =>
          have hStep :=
            @through_skipping s ['\r'] rest hContext hSkip rfl
          intro _ _
          exact (congrArg last? hStep).trans_ne
            (hClean hContext hSkip)
      | false =>
          have hStill :
              (s.step '\r' rest).skipping = false := by
            cases hValue : s.inValue with
            | true =>
                rw [step_spaced rest
                  (by simp [readsValue, hContext, hValue]) rfl,
                  spaced]
                split <;> exact hSkip
            | false =>
                rw [step_gap rest hContext hSkip hValue rfl]
                split <;> exact hSkip
          intro _ hAgain
          rw [hStill] at hAgain
          cases hAgain
  | opening =>
      intro hCode
      rw [step_opening _ rest hContext] at hCode
      cases hCode
  | comment star =>
      intro hCode
      rw [step_comment _ rest hContext, if_neg (by simp)]
        at hCode
      cases hCode
  | quoted mark escaped =>
      have hMark : '\r' ≠ mark := by
        rcases hs.mark _ _ hContext with rfl | rfl <;> decide
      intro hCode
      rw [step_quoted _ rest hContext] at hCode
      simp [copied, afterQuoted, hMark] at hCode
  | dash => cases hs.dash hContext

/- Reading without carriage returns is writing without. -/
theorem run_thin
    {s : Scanner}
    {t : Text}
    (hs : Reached s t)
    (hClean : SkipsCleanly s)
    (hFeed : t.head? = some '\n' → s.last? ≠ some '\r') :
    run s.thin t.dropReturns = (run s t).thin := by
  -- a line end takes two steps, so the induction is on the length
  induction hLength : t.length using Nat.strong_induction_on
    generalizing s t with
  | h n ih =>
      cases t with
      | nil => rfl
      | cons c rest =>
          by_cases hEnd : c = '\r' ∧ rest.head? = some '\n'
          · rcases hEnd with ⟨rfl, hHead⟩
            rcases List.head?_eq_some_iff.mp hHead with
              ⟨more, rfl⟩
            have hReturn := skipsCleanly_step_return hs hClean
            have hNext :=
              last?_step_ne _ more (by decide : '\n' ≠ '\r')
                hReturn
            rw [Text.dropReturns_return, run, run, run,
              step_dropReturns _ _ _ (by simp), steps_thin hs]
            refine ih more.length ?_ hs.step.step
              (fun _ _ => hNext) (fun _ => hNext) rfl
            rw [← hLength]
            simp only [List.length_cons]
            omega
          · have hc : c = '\r' → rest.head? ≠ some '\n' :=
              fun h hHead => hEnd ⟨h, hHead⟩
            have hNewline : c = '\n' → s.last? ≠ some '\r' :=
              fun h => hFeed (by rw [h]; rfl)
            have hNext :
                SkipsCleanly (s.step c rest) ∧
                  (rest.head? = some '\n' →
                    (s.step c rest).last? ≠ some '\r') := by
              by_cases hReturn : c = '\r'
              · subst hReturn
                exact ⟨skipsCleanly_step_return hs hClean,
                  fun h => absurd h (hc rfl)⟩
              · have hLast := last?_step_ne s rest hReturn hClean
                exact ⟨fun _ _ => hLast, fun _ => hLast⟩
            rw [Text.dropReturns_cons hc, run, run,
              step_dropReturns _ _ _ hc, step_thin s c rest hNewline]
            refine ih rest.length ?_ hs.step hNext.1 hNext.2 rfl
            rw [← hLength]
            exact Nat.lt_succ_self _

/- The result without carriage returns. -/
theorem result_thin
    (s : Scanner) :
    s.thin.result = s.result.dropReturns := by
  have hFinal : s.thin.final? = s.final? := by
    rw [← last?_trimmed, ← last?_trimmed, trimmed_thin,
      last?_thin]
  have hLacking : s.thin.lacking = s.lacking := by
    rw [lacking, lacking, hFinal]
  have hContext : s.thin.context = s.context := rfl
  have hValue : s.thin.inValue = s.inValue := rfl
  rw [result_eq, result_eq, core_thin, List.reverse_reverse,
    hLacking, hContext, hValue]
  have hTail :
      (if s.context = .code ∧ s.inValue = true then s.lacking
        else []) = [] ∨
      (if s.context = .code ∧ s.inValue = true then s.lacking
        else []) = [';'] := by
    unfold lacking
    split_ifs <;> simp
  generalize
    (if s.context = .code ∧ s.inValue = true then s.lacking
      else []) = tail at hTail
  have hEnd (x : Text)
      (hx : x <:+ s.core.reverse ++ tail) :
      x.getLast? ≠ some '\r' := by
    intro hLast
    rcases hx with ⟨front, hFront⟩
    have hWhole :
        (s.core.reverse ++ tail).getLast? = some '\r' := by
      rw [← hFront, List.getLast?_append, hLast]
      rfl
    rcases hTail with rfl | rfl
    · rw [List.append_nil, List.getLast?_reverse] at hWhole
      cases isBlank_of_final? hWhole
    · simp at hWhole
  have hSplit :
      Text.dropReturns (s.core.reverse ++ tail) =
        Text.dropReturns s.core.reverse ++ tail := by
    have hSelf : Text.dropReturns tail = tail := by
      rcases hTail with rfl | rfl <;> rfl
    have hFirst : tail.head? ≠ some '\n' := by
      rcases hTail with rfl | rfl <;> simp
    rw [Text.dropReturns_append (fun _ => hFirst), hSelf]
  have hPage :=
    hEnd _ (List.dropWhile_suffix isBlank)
  rw [Text.dropReturns_append (fun h => absurd h hPage),
    ← Text.dropWhile_dropReturns, hSplit]
  rfl

end Scanner

/-
  Laying out a style sheet without the carriage returns of
  its line ends is laying it out, and then dropping them.
-/
theorem prettify_dropReturns
    (sheet : Text) :
    prettify sheet.dropReturns =
      (prettify sheet).dropReturns := by
  have hRun :
      Scanner.run {} sheet.dropReturns =
        (Scanner.run {} sheet).thin :=
    Scanner.run_thin (Scanner.reached_new sheet) (by simp
      [Scanner.SkipsCleanly]) (by simp [Scanner.last?])
  rw [prettify, prettify, hRun, Scanner.result_thin]

end Stylesheet

end WebTidy
