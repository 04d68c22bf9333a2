import WebTidy.Proofs.Stylesheet.Lookahead

/-
  Laying out a style sheet twice is laying it out once.

  A layout is laid out again by the same moves: the blanks
  that a move keeps are kept once more, and the scanner sees
  the same ahead.  Only a semicolon that a value lacked is
  now read by a move of its own.

  Key theorems include:
    * `WebTidy.Stylesheet.Scanner.lead_lead`
    * `WebTidy.Stylesheet.Scanner.Move.laid_again`
    * `WebTidy.Stylesheet.Scanner.Laid.laid_again`
    * `WebTidy.Stylesheet.prettify_prettify`
-/

------------------------------------------------------------
-- Blanks That Stay
------------------------------------------------------------

namespace WebTidy

namespace Stylesheet

/- A run of blanks is cut at its first line feed only. -/
theorem throughLine_append
    {t : Text}
    (u : Text)
    (h : (throughLine t).getLast? = some '\n') :
    throughLine (throughLine t ++ u) = throughLine t := by
  induction t with
  | nil => cases h
  | cons c rest ih =>
      rw [throughLine] at h ⊢
      by_cases hc : c = '\n'
      · simp [hc, throughLine]
      · rw [if_neg hc] at h ⊢
        rw [List.cons_append, throughLine, if_neg hc, ih]
        cases hRest : throughLine rest with
        | nil =>
            rw [hRest] at h
            exact absurd (Option.some_inj.mp h) hc
        | cons d more =>
            rw [hRest, List.getLast?_cons_cons] at h
            exact h

/- Cutting a run of blanks twice is cutting it once. -/
theorem throughLine_throughLine
    (t : Text) :
    throughLine (throughLine t) = throughLine t := by
  induction t with
  | nil => rfl
  | cons c rest ih =>
      by_cases hc : c = '\n'
      · simp [throughLine, hc]
      · simp [throughLine, hc, ih]

namespace Scanner

/- The blanks kept in front of a segment are kept again. -/
theorem lead_lead
    {s : Scanner}
    (hs : Settled s)
    (blanks : Text) :
    s.lead (s.lead blanks) = s.lead blanks := by
  have hGap : s.gap (s.lead blanks) = s.gap blanks := by
    cases hSkip : s.skipping with
    | true => simp [gap, hSkip]
    | false =>
        cases hValue : s.inValue with
        | true =>
            rw [lead_value hs hValue]
            simp only [gap, hSkip, hValue, if_true,
              Bool.false_eq_true, if_false]
            split <;> simp_all
        | false =>
            by_cases hFinal : s.final? = none
            · simp [gap, hSkip, hValue, hFinal]
            · have hLine (t : Text) :
                  s.gap t = throughLine t := by
                simp [gap, hSkip, hValue, hFinal]
              rw [lead, hLine, hLine]
              split
              · rename_i hEnd
                exact throughLine_append _ hEnd
              · rw [List.append_nil, throughLine_throughLine]
  rw [lead, hGap, ← lead]

end Scanner

end Stylesheet

end WebTidy

------------------------------------------------------------
-- Moves On A Layout
------------------------------------------------------------

namespace WebTidy

namespace Stylesheet

namespace Scanner

/- A move with no blanks in front of its segment. -/
theorem Laid.of_tight
    {s t : Scanner}
    {k rest text out : Text}
    (hCode : s.context = .code)
    (hMove : Move s [] rest k text t)
    (hRest : Laid t rest out) :
    Laid s (k ++ rest) (text ++ out) := by
  exact Laid.move hCode rfl hMove hRest

/- The same move, behind the blanks that it wrote. -/
theorem Laid.of_move
    {s t : Scanner}
    {k out : Text}
    (front : Text)
    (hCode : s.context = .code)
    (hFront : front.all isBlank = true)
    (hMove : Move s front (out ++ ['\n']) k (front ++ k) t)
    (hRest : Laid t (out ++ ['\n']) out) :
    Laid s (front ++ k ++ out ++ ['\n'])
      (front ++ k ++ out) := by
  have hLaid := Laid.move hCode hFront hMove hRest
  rw [← List.append_assoc] at hLaid
  exact hLaid

/- A hyphen of the text is one of the layout. -/
theorem isHyphen_lead
    {s t : Scanner}
    {blanks rest out : Text}
    {c : Char}
    (hs : Settled s)
    (hBlanks : blanks.all isBlank = true)
    (hSign : s.isSign c = false)
    (hDash : ¬ (c = '-' ∧ rest.head? = some '-'))
    (hRest : Laid t rest out)
    (ht : InWord t)
    (h : (s.pass blanks).isHyphen c rest = true) :
    (s.pass (s.lead blanks)).isHyphen c (out ++ ['\n']) =
      true := by
  simp only [isHyphen, decide_eq_true_eq] at h
  rcases h with ⟨rfl, hBefore, hAhead⟩
  -- No blank is between the parts of a name.
  have hNil : blanks = [] := by
    cases hLast : blanks.getLast? with
    | none => exact List.getLast?_eq_none_iff.mp hLast
    | some b =>
        have hb : isBlank b = true :=
          List.all_eq_true.mp hBlanks b
            (List.mem_of_getLast? hLast)
        rw [pass_before, hLast] at hBefore
        simp only [isBlank, decide_eq_true_eq] at hb
        rcases hb with rfl | rfl | rfl | rfl | rfl <;>
          cases hBefore
  subst blanks
  -- Nor does the name end with an operator.
  have hSkip : s.skipping = false := by
    cases hSkip : s.skipping with
    | false => rfl
    | true =>
        rcases (Option.any_eq_true _ _).mp (hs.joint hSkip)
          with ⟨p, hFinal, hJoint⟩
        have hPart : isIdentChar p = true := by
          rw [pass_nil hs, hs.before, hFinal] at hBefore
          exact hBefore
        have hOther : isOperator p = false := by
          simp [isSign, hFinal] at hSign
          exact hSign.2.2
        simp only [isJoint, hOther, decide_eq_true_eq]
          at hJoint
        rcases hJoint with rfl | rfl | rfl | rfl | rfl | h <;>
          contradiction
  have hLead : s.lead [] = [] := by
    simp [lead, gap, hSkip, throughLine]
  rcases (Option.any_eq_true _ _).mp hAhead with
    ⟨d, hHead, hd⟩
  rcases List.head?_eq_some_iff.mp hHead with ⟨more, rfl⟩
  have hWord : isWord d = true := by
    apply isWord_of_isIdentStart hd
    rintro rfl
    exact hDash ⟨rfl, rfl⟩
  rcases hRest.of_isWord ht hWord with ⟨_, tail, rfl, _⟩
  rw [hLead, isHyphen, decide_eq_true_eq]
  exact ⟨rfl, hBefore, hAhead⟩

/- The end of a value and of its block, in two moves. -/
theorem Laid.of_closeValue
    {s : Scanner}
    {out : Text}
    (hs : Settled s)
    (hCode : s.context = .code)
    (hValue : s.inValue = true)
    (hRest :
      Laid (s.leave (';' :: s.closing) (out ++ ['\n']))
        (out ++ ['\n']) out) :
    Laid s (';' :: s.closing ++ out ++ ['\n'])
      (';' :: s.closing ++ out) := by
  let ended : Scanner :=
    { s.lay [';'] ['\n'] with
      skipping := true
      inValue := false
      parens := none }
  have hSame :
      ended.leave s.closing (out ++ ['\n']) =
        s.leave (';' :: s.closing) (out ++ ['\n']) := by
    simp [leave, ended, lay, core, isBlank,
      List.getLast?_cons]
  rw [← hSame] at hRest
  have hBlock :
      Laid ended (s.closing ++ (out ++ ['\n']))
        (s.closing ++ out) :=
    @Laid.move _ _
      ('\n' :: List.replicate (s.depth - 1) '\t') ['}'] _ _ _
      hCode (by simp [isBlank]) (.closeBlock rfl) hRest
  rw [← List.append_assoc] at hBlock
  have hLaid :=
    Laid.of_tight hCode
      (.semicolon (hs.final?_ne_semicolon hValue)) hBlock
  exact hLaid

/-
  The layout of a segment is laid out as it is, if the
  layout of the rest is.
-/
theorem Move.laid_again
    {s t : Scanner}
    {blanks rest k text out : Text}
    (hs : Settled s)
    (hCode : s.context = .code)
    (hBlanks : blanks.all isBlank = true)
    (h : Move s blanks rest k text t)
    (hRest : Laid t rest out)
    (hAgain : Laid t (out ++ ['\n']) out) :
    Laid s (text ++ out ++ ['\n']) (text ++ out) := by
  have hReady := h.ready hCode
  have hFinal := h.final?_eq hCode hBlanks
  have hLead := lead_lead hs blanks
  have hLeadBlanks := s.all_lead hBlanks
  -- What the scanner sees ahead, for the last character p.
  have hAhead {p d : Char}
      (hLast : k.getLast? = some p)
      (hp : dropsBehind p = false)
      (hd : dropsAhead d = false)
      (hHead : (out ++ ['\n']).head? = some d) :
      rest.head? = some d :=
    hRest.head?_source hReady (hFinal.trans hLast) hp hHead hd
  have hCalc {p : Char}
      (hLast : k.getLast? = some p)
      (ht : InWord t) :
      (s.trackCalc p rest).parens =
        (s.trackCalc p (out ++ ['\n'])).parens :=
    hRest.parens_trackCalc_eq ht (hFinal.trans hLast)
  have hColon
      (hLast : k.getLast? = some ':') :
      selectorAhead rest = selectorAhead (out ++ ['\n']) := by
    apply hRest.selectorAhead_eq
    rw [hFinal, hLast]
    decide
  cases h with
  | plain c hPlain hComment hName hValue =>
      apply Laid.of_move _ hCode hLeadBlanks _ hAgain
      have hMove :
          Move s (s.lead blanks) (out ++ ['\n']) [c] _ _ :=
        .plain c hPlain
          (by
            rintro ⟨rfl, hStar⟩
            exact hComment ⟨rfl, hAhead rfl rfl rfl hStar⟩)
          hName hValue
      rw [hLead] at hMove
      exact hMove
  | word c hPlain hComment hClose hValue hOperator =>
      have ht : InWord _ :=
        ⟨hReady.settled, hCode, rfl, hValue⟩
      apply Laid.of_move _ hCode hLeadBlanks _ hAgain
      have hMove :
          Move s (s.lead blanks) (out ++ ['\n']) [c] _ _ :=
        .word c hPlain
          (by
            rintro ⟨rfl, hStar⟩
            exact hComment ⟨rfl, hAhead rfl rfl rfl hStar⟩)
          hClose hValue
          (by
            intro hParens hSymbol
            rw [← hCalc (p := c) rfl ht] at hParens
            rcases hOperator hParens hSymbol with
              ⟨hDash, hKept⟩
            refine ⟨?_, ?_⟩
            · rintro ⟨rfl, hNext⟩
              exact hDash ⟨rfl, hAhead rfl rfl rfl hNext⟩
            · cases hSign : s.isSign c with
              | true => exact Or.inl rfl
              | false =>
                  rw [hSign] at hKept
                  rcases hKept with hKept | hHyphen
                  · cases hKept
                  · exact Or.inr (isHyphen_lead hs hBlanks hSign
                      hDash hRest ht hHyphen))
      rw [hLead, ← hCalc (p := c) rfl ht] at hMove
      exact hMove
  | closeParen hValue =>
      have ht : InWord _ :=
        ⟨hReady.settled, hCode, rfl, hValue⟩
      apply Laid.of_move [] hCode rfl _ hAgain
      rw [hCalc (p := ')') rfl ht]
      exact .closeParen hValue
  | operator c hComment hValue hParens hOperator hDash hSign
      hHyphen =>
      have hKept : dropsBehind c = false := by
        simp only [isOperator, decide_eq_true_eq]
          at hOperator
        rcases hOperator with rfl | rfl | rfl | rfl <;> rfl
      apply Laid.of_move [' '] hCode rfl _ hAgain
      apply Move.operator c _ hValue hParens hOperator _ hSign
      · simp [isHyphen, isIdentChar]
      · rintro ⟨rfl, hStar⟩
        exact hComment ⟨rfl, hAhead rfl rfl rfl hStar⟩
      · rintro ⟨rfl, hNext⟩
        exact hDash ⟨rfl, hAhead rfl rfl rfl hNext⟩
  | dash hValue hParens hDash =>
      have hNext := hRest.head?_of_dash hReady rfl
      apply Laid.of_move _ hCode hLeadBlanks _ hAgain
      have hMove :
          Move s (s.lead blanks) (out ++ ['\n']) ['-'] _ _ :=
        .dash hValue hParens (by simp [hNext])
      rw [hLead] at hMove
      exact hMove
  | openBlock =>
      exact Laid.of_move [' '] hCode rfl .openBlock
        hAgain
  | closeBlock hValue =>
      rw [leave, hRest.all_isBlank_eq (by simp [hFinal]) rfl,
        ← leave] at hAgain
      apply Laid.of_move _ hCode _ _ hAgain
      · simp [isBlank]
      · exact .closeBlock hValue
  | closeValue hValue =>
      rw [leave, hRest.all_isBlank_eq (by simp [hFinal]) rfl,
        ← leave] at hAgain
      exact Laid.of_closeValue hs hCode hValue hAgain
  | semicolon hEnd =>
      exact Laid.of_move [] hCode rfl
        (.semicolon hEnd) hAgain
  | comma =>
      exact Laid.of_move [] hCode rfl .comma hAgain
  | selectorColon hValue hSelector =>
      rw [hColon rfl] at hSelector
      exact Laid.of_move [] hCode rfl
        (.selectorColon hValue hSelector) hAgain
  | valueColon hValue hSelector =>
      rw [hColon rfl] at hSelector
      exact Laid.of_move [] hCode rfl
        (.valueColon hValue hSelector) hAgain
  | comment k hComment =>
      exact Laid.of_move _ hCode s.all_commentLead
        (.comment k hComment) hAgain
  | string k hString =>
      apply Laid.of_move _ hCode hLeadBlanks _ hAgain
      have hMove :
          Move s (s.lead blanks) (out ++ ['\n']) k _ _ :=
        .string k hString
      rw [hLead] at hMove
      exact hMove

end Scanner

end Stylesheet

end WebTidy

------------------------------------------------------------
-- Layouts Of Layouts
------------------------------------------------------------

namespace WebTidy

namespace Stylesheet

namespace Scanner

/- A layout is laid out as it is. -/
theorem Laid.laid_again
    {s : Scanner}
    {source out : Text}
    (h : Laid s source out)
    (hs : Ready s source) :
    Laid s (out ++ ['\n']) out := by
  induction h with
  | @blank s blanks hCode hBlanks =>
      cases hValue : s.inValue with
      | false =>
          have hLaid : Laid s ['\n'] _ := .blank hCode rfl
          rw [hValue] at hLaid
          exact hLaid
      | true =>
          have hEnd :=
            hs.settled.final?_ne_semicolon hValue
          exact Laid.of_tight hCode (.semicolon hEnd)
            (.blank hCode rfl)
  | @openComment s blanks k hCode hBlanks hOpen hEnd =>
      have hLaid :=
        Laid.openComment hCode s.all_commentLead
          (prefix_trimEnd hOpen) (commentLength?_trimEnd hEnd)
      rw [Text.trimEnd_trimEnd_append k rfl,
        ← List.append_assoc] at hLaid
      exact hLaid
  | @openString s blanks body mark hCode hBlanks hMark
      hEnd =>
      have hTrim := trimEnd_mark_cons body hMark
      have hNone := stringLength?_trimEnd hEnd
      rw [hTrim] at hNone
      have hLaid :=
        Laid.openString hCode (s.all_lead hBlanks) hMark hNone
      rw [lead_lead hs.settled, ← hTrim,
        Text.trimEnd_trimEnd_append _ rfl,
        ← List.append_assoc] at hLaid
      exact hLaid
  | again hBlanks hFinal hRest ih =>
      apply ih
      exact ⟨hs.settled, Or.inl (hs.settled.ended hFinal).1⟩
  | dash hDash hRest ih =>
      exact .dash hDash (ih (hs.afterDash hDash).2.2)
  | move hCode hBlanks hMove hRest ih =>
      exact hMove.laid_again hs.settled hCode hBlanks hRest
        (ih (hMove.ready hCode))

end Scanner

end Stylesheet

end WebTidy

------------------------------------------------------------
-- The Start Of The Text
------------------------------------------------------------

namespace WebTidy

namespace Stylesheet

namespace Scanner

/- Before anything is written no blank is kept. -/
theorem lead_of_final?_eq_none
    {s : Scanner}
    (hs : Settled s)
    (hFinal : s.final? = none)
    (blanks : Text) :
    s.inValue = false ∧ s.lead blanks = [] := by
  have hValue : s.inValue = false := by
    cases hValue : s.inValue with
    | false => rfl
    | true => exact absurd hFinal (hs.value hValue).1
  have hSkip : s.skipping = false := by
    cases hSkip : s.skipping with
    | false => rfl
    | true =>
        have hJoint := hs.joint hSkip
        rw [hFinal] at hJoint
        cases hJoint
  exact ⟨hValue, by simp [lead, gap, hSkip, hValue, hFinal]⟩

/- A segment begins with a character but a blank. -/
theorem Move.exists_head
    {s t : Scanner}
    {blanks rest k text : Text}
    (h : Move s blanks rest k text t) :
    ∃ c more, k = c :: more ∧ isBlank c = false := by
  cases h with
  | plain c hPlain | word c hPlain =>
      exact ⟨c, [], rfl, isBlank_of_isPlain hPlain⟩
  | operator c hComment hValue hParens hOperator =>
      refine ⟨c, [], rfl, ?_⟩
      simp only [isOperator, decide_eq_true_eq] at hOperator
      rcases hOperator with rfl | rfl | rfl | rfl <;> rfl
  | comment k hComment =>
      rcases exists_of_commentLength? hComment with
        ⟨body, m, rfl, _⟩
      exact ⟨'/', _, rfl, rfl⟩
  | string k hString =>
      rcases exists_of_stringLength? hString with
        ⟨mark, body, m, rfl, hMark, _⟩
      exact ⟨mark, _, rfl, (isBlank_and_ne_of_isMark hMark).1⟩
  | _ => exact ⟨_, [], rfl, rfl⟩

/- The first move does not need the blanks before it. -/
theorem Move.of_final?_eq_none
    {s t : Scanner}
    {blanks rest k text : Text}
    (hs : Settled s)
    (hFinal : s.final? = none)
    (h : Move s blanks rest k text t) :
    Move s [] rest k text t := by
  have hLead : s.lead blanks = s.lead [] := by
    rw [(lead_of_final?_eq_none hs hFinal blanks).2,
      (lead_of_final?_eq_none hs hFinal []).2]
  have hOutside :=
    (lead_of_final?_eq_none hs hFinal blanks).1
  cases h with
  | plain c hPlain hComment hColon hValue =>
      rw [hLead]
      exact .plain c hPlain hComment hColon hValue
  | openBlock => exact .openBlock
  | closeBlock hValue => exact .closeBlock hValue
  | semicolon hEnd => exact .semicolon hEnd
  | comma => exact .comma
  | selectorColon hValue hSelector =>
      exact .selectorColon hValue hSelector
  | valueColon hValue hSelector =>
      exact .valueColon hValue hSelector
  | comment k hComment => exact .comment k hComment
  | string k hString =>
      rw [hLead]
      exact .string k hString
  | word c hPlain hComment hClose hValue
  | closeParen hValue
  | operator c hComment hValue
  | dash hValue
  | closeValue hValue =>
      rw [hOutside] at hValue
      cases hValue

/- Blanks in front of a text are dropped up to it. -/
theorem dropWhile_blanks
    {blanks : Text}
    (hBlanks : blanks.all isBlank = true)
    {c : Char}
    (hc : isBlank c = false)
    (rest : Text) :
    (blanks ++ c :: rest).dropWhile isBlank = c :: rest := by
  rw [List.dropWhile_append_of_pos
      (List.all_eq_true.mp hBlanks),
    List.dropWhile_cons_of_neg (by simp [hc])]

/- A layout does not need the blanks before the text. -/
theorem Laid.dropWhile
    {s : Scanner}
    {source out : Text}
    (h : Laid s source out)
    (hs : Settled s)
    (hFinal : s.final? = none) :
    Laid s (source.dropWhile isBlank) out := by
  cases h with
  | blank hCode hBlanks =>
      rw [List.dropWhile_eq_nil_iff.mpr
        (List.all_eq_true.mp hBlanks)]
      exact .blank hCode rfl
  | openComment hCode hBlanks hOpen hEnd =>
      rcases hOpen with ⟨body, rfl⟩
      have hDrop :=
        dropWhile_blanks hBlanks (c := '/') rfl ('*' :: body)
      change Laid s (List.dropWhile isBlank
        (_ ++ '/' :: '*' :: body)) _
      rw [hDrop]
      exact @Laid.openComment _ [] _ hCode rfl ⟨body, rfl⟩
        hEnd
  | openString hCode hBlanks hMark hEnd =>
      have hPlain := isBlank_and_ne_of_isMark hMark
      rw [dropWhile_blanks hBlanks hPlain.1,
        (lead_of_final?_eq_none hs hFinal _).2,
        ← (lead_of_final?_eq_none hs hFinal []).2]
      exact @Laid.openString _ [] _ _ hCode rfl hMark hEnd
  | again hBlanks hEnd =>
      rw [hFinal] at hEnd
      cases hEnd
  | dash hDash hRest => exact .dash hDash hRest
  | move hCode hBlanks hMove hRest =>
      have hFirst := hMove.of_final?_eq_none hs hFinal
      rcases hMove.exists_head with ⟨c, more, rfl, hc⟩
      rw [List.append_assoc, List.cons_append,
        dropWhile_blanks hBlanks hc]
      exact Laid.of_tight hCode hFirst hRest

end Scanner

end Stylesheet

end WebTidy

------------------------------------------------------------
-- Idempotence
------------------------------------------------------------

namespace WebTidy

namespace Stylesheet

/- Laying out a style sheet twice is laying it out once. -/
theorem prettify_prettify
    (sheet : Text) :
    prettify (prettify sheet) = prettify sheet := by
  rcases exists_laid_prettify sheet with ⟨out, hLaid, hOut⟩
  rw [hOut]
  rcases Scanner.all_or_exists out with
    hBlanks | ⟨blanks, c, rest, rfl, hBlanks, hc⟩
  · rw [List.dropWhile_eq_nil_iff.mpr
      (List.all_eq_true.mp hBlanks)]
    rfl
  · have hAgain :=
      (hLaid.laid_again (Scanner.ready_new sheet)).dropWhile
        Scanner.settled_new rfl
    rw [List.append_assoc, List.cons_append,
      Scanner.dropWhile_blanks hBlanks hc] at hAgain
    have hResult := hAgain.result_eq (Scanner.ready_new _)
    rw [Scanner.dropWhile_blanks hBlanks hc]
    rw [List.cons_append, prettify, hResult]
    exact congrArg (· ++ ['\n'])
      (Scanner.dropWhile_blanks hBlanks hc rest)

end Stylesheet

end WebTidy
