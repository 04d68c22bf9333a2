import WebTidy.Proofs.Stylesheet.Move

/-
  Style sheets and their layouts.

  A text is laid out move by move, up to the blanks at its
  end or to a comment or string without an end.  A repeated
  semicolon is passed over.  Every text has a layout, and
  the scanner writes it.

  Key definitions include:
    * `WebTidy.Stylesheet.Scanner.Ready`
    * `WebTidy.Stylesheet.Scanner.Laid`

  Key theorems include:
    * `WebTidy.Stylesheet.Scanner.exists_laid`
    * `WebTidy.Stylesheet.Scanner.Laid.result_eq`
    * `WebTidy.Stylesheet.exists_laid_prettify`
-/

------------------------------------------------------------
-- Layouts
------------------------------------------------------------

namespace WebTidy

namespace Stylesheet

namespace Scanner

/-
  A scanner that can lay out a text.  Between the dashes
  that begin a custom name, the text goes on with a dash.
-/
structure Ready
    (s : Scanner)
    (source : Text) :
    Prop where
  settled : Settled s
  context :
    s.context = .code ∨
      (s.context = .dash ∧ s.skipping = false ∧
        source.head? = some '-')

/- A scanner after the second dash of a custom name. -/
def afterDash
    (s : Scanner) :
    Scanner :=
  { s.lay ['-'] [] with context := .code }

/-
  What a scanner writes behind its final part for a text.
  The indices are the scanner, the text, and its layout
  without the line feed at the end.
-/
inductive Laid :
    Scanner → Text → Text → Prop
| blank
    {s : Scanner}
    {blanks : Text}
    (hCode : s.context = .code)
    (hBlanks : blanks.all isBlank = true) :
    Laid s blanks (if s.inValue then [';'] else [])
| openComment
    {s : Scanner}
    {blanks k : Text}
    (hCode : s.context = .code)
    (hBlanks : blanks.all isBlank = true)
    (hOpen : "/*".toList <+: k)
    (hEnd : commentLength? k = none) :
    Laid s (blanks ++ k) (s.commentLead ++ k.trimEnd isBlank)
| openString
    {s : Scanner}
    {blanks body : Text}
    {mark : Char}
    (hCode : s.context = .code)
    (hBlanks : blanks.all isBlank = true)
    (hMark : isMark mark = true)
    (hEnd : stringLength? (mark :: body) = none) :
    Laid s (blanks ++ mark :: body)
      (s.lead blanks ++ Text.trimEnd isBlank (mark :: body))
| again
    {s : Scanner}
    {blanks rest out : Text}
    (hBlanks : blanks.all isBlank = true)
    (hFinal : s.final? = some ';')
    (hRest : Laid s rest out) :
    Laid s (blanks ++ [';'] ++ rest) out
| dash
    {s : Scanner}
    {rest out : Text}
    (hDash : s.context = .dash)
    (hRest : Laid s.afterDash rest out) :
    Laid s ('-' :: rest) ('-' :: out)
| move
    {s t : Scanner}
    {blanks k rest text out : Text}
    (hCode : s.context = .code)
    (hBlanks : blanks.all isBlank = true)
    (hMove : Move s blanks rest k text t)
    (hRest : Laid t rest out) :
    Laid s (blanks ++ k ++ rest) (text ++ out)

/- A new scanner can lay out every text. -/
theorem ready_new
    (source : Text) :
    Ready {} source := by
  exact ⟨settled_new, Or.inl rfl⟩

/- A move leads to a scanner that can lay out the rest. -/
theorem Move.ready
    {s t : Scanner}
    {blanks rest k text : Text}
    (hCode : s.context = .code)
    (h : Move s blanks rest k text t) :
    Ready t rest := by
  refine ⟨(h.core_eq_and_settled hCode).2, ?_⟩
  cases h with
  | dash hValue hParens hDash =>
      exact Or.inr ⟨rfl, rfl, hDash⟩
  | _ => exact Or.inl hCode

/- The second dash is copied behind the first. -/
theorem Ready.step_dash
    {s : Scanner}
    {rest : Text}
    (hDash : s.context = .dash)
    (hs : Ready s ('-' :: rest)) :
    s.step '-' rest = s.afterDash := by
  have hSkip : s.skipping = false := by
    rcases hs.context with hCode | ⟨_, hSkip, _⟩
    · rw [hDash] at hCode
      cases hCode
    · exact hSkip
  have hWritten : s.written = s.core := by
    rw [written_eq, hs.settled.tight hSkip]
    rfl
  simp [step, read, hDash, write, Scanner.afterDash, hWritten,
    hSkip]

/- Behind the second dash the scanner reads code. -/
theorem Ready.afterDash
    {s : Scanner}
    {rest : Text}
    (hDash : s.context = .dash)
    (hs : Ready s ('-' :: rest)) :
    run s ('-' :: rest) = run s.afterDash rest ∧
    s.afterDash.core = '-' :: s.core ∧
    Ready s.afterDash rest := by
  have hFacts : s.afterDash.core = '-' :: s.core ∧
      Settled s.afterDash :=
    settled_of_tight rfl rfl rfl rfl (by decide)
  refine ⟨?_, hFacts.1, hFacts.2, Or.inl rfl⟩
  rw [run, hs.step_dash hDash]

end Scanner

end Stylesheet

end WebTidy

------------------------------------------------------------
-- Every Text Has A Layout
------------------------------------------------------------

namespace WebTidy

namespace Stylesheet

namespace Scanner

/- A text is blanks, or blanks and another character. -/
theorem all_or_exists
    (source : Text) :
    source.all isBlank = true ∨
      ∃ blanks c rest,
        source = blanks ++ c :: rest ∧
        List.all blanks isBlank = true ∧ isBlank c = false := by
  exact Text.all_or_exists isBlank source

/- Every text has a layout. -/
theorem exists_laid
    {s : Scanner}
    {source : Text}
    (hs : Ready s source) :
    ∃ out, Laid s source out := by
  induction hLength : source.length using
    Nat.strongRecOn generalizing s source with
  | ind n ih =>
  rcases hs.context with hCode | ⟨hDash, _, hHead⟩
  · rcases all_or_exists source with
      hBlanks | ⟨blanks, c, rest, rfl, hBlanks, hBlank⟩
    · exact ⟨_, .blank hCode hBlanks⟩
    by_cases hAgain : c = ';' ∧ s.final? = some ';'
    · rcases hAgain with ⟨rfl, hFinal⟩
      have hRest : Ready s rest := ⟨hs.settled, Or.inl hCode⟩
      rcases ih rest.length (by simp at hLength; omega) hRest
        rfl with ⟨out, hOut⟩
      have hLaid := Laid.again hBlanks hFinal hOut
      rw [List.append_assoc] at hLaid
      exact ⟨out, hLaid⟩
    by_cases hComment :
        "/*".toList <+: c :: rest ∧
          commentLength? (c :: rest) = none
    · exact ⟨_, .openComment hCode hBlanks hComment.1
        hComment.2⟩
    by_cases hString :
        isMark c = true ∧ stringLength? (c :: rest) = none
    · exact ⟨_, .openString hCode hBlanks hString.1
        hString.2⟩
    rcases exists_move s blanks hBlank hAgain
        (fun hOpen hEnd => hComment ⟨hOpen, hEnd⟩)
        (fun hMark hEnd => hString ⟨hMark, hEnd⟩) with
      ⟨k, tail, text, t, hSplit, hNonempty, hMove⟩
    rw [hSplit] at hLength ⊢
    have hPos := List.length_pos_iff.mpr hNonempty
    rcases ih tail.length
        (by simp only [List.length_append] at hLength; omega)
        (hMove.ready hCode) rfl with ⟨out, hOut⟩
    have hLaid := Laid.move hCode hBlanks hMove hOut
    rw [List.append_assoc] at hLaid
    exact ⟨text ++ out, hLaid⟩
  · rcases List.head?_eq_some_iff.mp hHead with ⟨rest, rfl⟩
    rcases ih rest.length (by simp at hLength; omega)
        (hs.afterDash hDash).2.2 rfl with ⟨out, hOut⟩
    exact ⟨'-' :: out, .dash hDash hOut⟩

end Scanner

end Stylesheet

end WebTidy

------------------------------------------------------------
-- The Scanner Writes The Layout
------------------------------------------------------------

namespace WebTidy

namespace Stylesheet

namespace Scanner

/- A repeated semicolon changes nothing. -/
theorem readCode_again
    {s : Scanner}
    {blanks : Text}
    (hs : Settled s)
    (hBlanks : blanks.all isBlank = true)
    (hFinal : s.final? = some ';')
    (rest : Text) :
    { (s.pass blanks).readCode ';' rest with
      before := some ';' } = s := by
  have hCore :
      (s.pass blanks).written.dropWhile isBlank = s.core :=
    core_pass s hBlanks
  have hHead : s.core.head? = some ';' := hFinal
  rcases hs.ended hFinal with
    ⟨hCode, hSkip, hValue, hParens, hTrail⟩
  have hWritten : s.written = '\n' :: s.core := by
    rw [written_eq, hTrail]
    rfl
  have hSame :
      s =
        { s with
          written := '\n' :: s.core
          before := some ';'
          skipping := true
          inValue := false
          parens := none } := by
    rw [← hWritten, ← hSkip, ← hValue, ← hParens, ← hFinal,
      ← hs.before]
  refine Eq.trans ?_ hSame.symm
  simp [readCode, endDeclaration, trackGroup, trimmed, hCore,
    terminate, last?, hHead, write]

/- Reading it leads back to the scanner. -/
theorem run_again
    {s : Scanner}
    {blanks : Text}
    (hs : Settled s)
    (hBlanks : blanks.all isBlank = true)
    (hFinal : s.final? = some ';')
    (rest : Text) :
    run s (blanks ++ [';'] ++ rest) = run s rest := by
  exact run_char hs (hs.ended hFinal).1 hBlanks rfl
    (readCode_again hs hBlanks hFinal rest)

/- The result of a comment or string without an end. -/
theorem result_of_copied
    (s : Scanner)
    (lead : Text)
    {c : Char}
    {body : Text}
    {context : Context}
    (hc : isBlank c = false)
    (hContext : context ≠ .code) :
    { s.lay (lead ++ c :: body) [] with
        context := context }.result =
      (s.core.reverse ++
        (lead ++ Text.trimEnd isBlank (c :: body))).dropWhile
          isBlank ++ ['\n'] := by
  have hTrim :=
    Text.dropWhile_reverse_append (p := isBlank)
      (t := c :: body) (lead.reverse ++ s.core)
      (by simp [hc])
  rw [List.reverse_cons, List.append_assoc,
    List.singleton_append] at hTrim
  simp [result, trimmed, hContext, hTrim]

/- What the scanner returns is the layout. -/
theorem Laid.result_eq
    {s : Scanner}
    {source out : Text}
    (h : Laid s source out)
    (hs : Ready s source) :
    (run s source).result =
      (s.core.reverse ++ out).dropWhile isBlank ++
        ['\n'] := by
  induction h with
  | @blank s blanks hCode hBlanks =>
      have hRun : run s blanks = s.pass blanks := by
        have hAppend := run_blanks hs.settled hCode hBlanks []
        rw [List.append_nil] at hAppend
        exact hAppend
      have hCore :
          (s.pass blanks).written.dropWhile isBlank =
            s.core :=
        core_pass s hBlanks
      rw [hRun]
      cases hValue : s.inValue with
      | false => simp [result, trimmed, hCore, hValue]
      | true =>
          have hFinal : s.core.head? ≠ some ';' :=
            hs.settled.final?_ne_semicolon hValue
          simp [result, trimmed, hCore, hValue, hCode,
            terminate, last?, hFinal, write]
  | @openComment s blanks k hCode hBlanks hOpen hEnd =>
      rcases hOpen with ⟨body, rfl⟩
      have hBody :
          Text.indexOf? "*/".toList body = none := by
        cases hFound :
            Text.indexOf? "*/".toList body with
        | none => rfl
        | some m =>
            have hSome := commentLength?_eq_some hFound
            exact absurd (hSome.symm.trans hEnd) (by simp)
      rcases run_comment_open
          (s :=
            { s.lay (s.commentLead ++ ['/', '*']) [] with
              context := .comment false })
          rfl (by simp) hBody with ⟨last, hRun⟩
      change (run s (blanks ++ '/' :: '*' :: body)).result = _
      rw [run_commentStart hs.settled hCode hBlanks, hRun,
        copied_lay, List.append_assoc]
      exact result_of_copied s s.commentLead (c := '/') rfl
        (by simp)
  | @openString s blanks body mark hCode hBlanks hMark hEnd =>
      have hBody : quotedLength? mark false body = none := by
        rw [stringLength?, if_pos hMark] at hEnd
        exact Option.map_eq_none_iff.mp hEnd
      have hPlain := isBlank_and_ne_of_isMark hMark
      rcases run_quoted_open
          (s :=
            { s.lay (s.lead blanks ++ [mark]) [] with
              context := .quoted mark false })
          rfl hBody with ⟨flag, hRun⟩
      rw [run_stringStart hs.settled hCode hBlanks hMark,
        hRun, copied_lay, List.append_assoc]
      exact result_of_copied s (s.lead blanks) hPlain.1
        (by simp)
  | again hBlanks hFinal hRest ih =>
      rw [run_again hs.settled hBlanks hFinal]
      apply ih
      exact ⟨hs.settled, Or.inl (hs.settled.ended hFinal).1⟩
  | dash hDash hRest ih =>
      rcases hs.afterDash hDash with ⟨hRun, hCore, hReady⟩
      rw [hRun, ih hReady, hCore]
      simp
  | move hCode hBlanks hMove hRest ih =>
      have hFacts := hMove.core_eq_and_settled hCode
      rw [hMove.run_eq hs.settled hCode hBlanks,
        ih (hMove.ready hCode), hFacts.1]
      simp

end Scanner

/- The layout of a style sheet, move by move. -/
theorem exists_laid_prettify
    (sheet : Text) :
    ∃ out,
      Scanner.Laid {} sheet out ∧
      prettify sheet =
        out.dropWhile isBlank ++ ['\n'] := by
  have hReady := Scanner.ready_new sheet
  rcases Scanner.exists_laid hReady with ⟨out, hLaid⟩
  exact ⟨out, hLaid, hLaid.result_eq hReady⟩

end Stylesheet

end WebTidy
