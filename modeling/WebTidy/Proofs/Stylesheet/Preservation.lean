import WebTidy.Proofs.Stylesheet.Lookahead

/-
  What the layout of a style sheet keeps.

  The marks of a style sheet are its segments other than
  blanks of code.  The layout has the marks of the style
  sheet in the same order, with two exceptions: a semicolon
  behind a semicolon goes, and a semicolon comes in front of
  a close brace or at the end.

  Key definitions include:
    * `WebTidy.Stylesheet.marks`
    * `WebTidy.Stylesheet.contents`
    * `WebTidy.Stylesheet.Relaid`

  Key theorems include:
    * `WebTidy.Stylesheet.Relaid.contents_eq`
    * `WebTidy.Stylesheet.Scanner.Laid.relaid`
    * `WebTidy.Stylesheet.relaid_prettify`
-/

------------------------------------------------------------
-- Marks
------------------------------------------------------------

namespace WebTidy

namespace Stylesheet

/- A segment that is a blank of code. -/
def Segment.isBlank :
    Segment → Bool
| .code c => WebTidy.isBlank c
| .comment _ _ => false
| .quoted _ _ => false

/-
  A segment with the blanks at its end dropped, if it is a
  comment or string without an end.
-/
def Segment.trimmed :
    Segment → Segment
| .comment source false =>
    .comment (source.trimEnd WebTidy.isBlank) false
| .quoted source false =>
    .quoted (source.trimEnd WebTidy.isBlank) false
| segment => segment

/- The segments of a style sheet but blanks of code. -/
def marks
    (sheet : Text) :
    List Segment :=
  (segments sheet).filter (!·.isBlank)

/-
  What a style sheet says: its marks but semicolons, with no
  blanks at the end of a last one without an end.
-/
def contents
    (sheet : Text) :
    List Segment :=
  ((marks sheet).filter (· ≠ .code ';')).map
    Segment.trimmed

/-
  The marks of a style sheet and of its layout, side by
  side.  The first index is the mark of the style sheet
  just before them.
-/
inductive Relaid :
    Option Segment → List Segment → List Segment → Prop
| done
    {previous : Option Segment} :
    Relaid previous [] []
| keep
    {previous : Option Segment}
    {segment : Segment}
    {before after : List Segment}
    (hRest : Relaid (some segment) before after) :
    Relaid previous (segment :: before) (segment :: after)
| unclosed
    {previous : Option Segment}
    {segment kept : Segment}
    (hTrimmed : segment.trimmed = kept.trimmed) :
    Relaid previous [segment] [kept]
| drop
    {before after : List Segment}
    (hRest : Relaid (some (.code ';')) before after) :
    Relaid (some (.code ';')) (.code ';' :: before) after
| add
    {previous : Option Segment}
    {before after : List Segment}
    (hNext :
      after.head? = none ∨ after.head? = some (.code '}'))
    (hRest : Relaid previous before after) :
    Relaid previous before (.code ';' :: after)

end Stylesheet

end WebTidy

------------------------------------------------------------
-- Contents
------------------------------------------------------------

namespace WebTidy

namespace Stylesheet

/- Dropping blanks makes no character of code. -/
theorem Segment.trimmed_eq_code
    {segment : Segment}
    {c : Char} :
    segment.trimmed = .code c ↔ segment = .code c := by
  cases segment with
  | code d => rfl
  | comment source closed =>
      cases closed <;> simp [trimmed]
  | quoted source closed =>
      cases closed <;> simp [trimmed]

/- Marks side by side differ in semicolons only. -/
theorem Relaid.contents_eq
    {previous : Option Segment}
    {before after : List Segment}
    (h : Relaid previous before after) :
    (before.filter (· ≠ .code ';')).map Segment.trimmed =
      (after.filter (· ≠ .code ';')).map
        Segment.trimmed := by
  induction h with
  | done => rfl
  | keep hRest ih =>
      rw [List.filter_cons, List.filter_cons]
      split
      · rw [List.map_cons, List.map_cons, ih]
      · exact ih
  | @unclosed previous segment kept hTrimmed =>
      have hSame :
          segment = .code ';' ↔ kept = .code ';' := by
        rw [← Segment.trimmed_eq_code, hTrimmed,
          Segment.trimmed_eq_code]
      by_cases hCode : segment = .code ';'
      · simp [hCode, hSame.mp hCode]
      · have hKept := mt hSame.mpr hCode
        simp [hCode, hKept, hTrimmed]
  | drop hRest ih =>
      rw [List.filter_cons_of_neg (by simp), ih]
  | add hNext hRest ih =>
      rw [List.filter_cons_of_neg (by simp), ih]

end Stylesheet

end WebTidy

------------------------------------------------------------
-- Marks Of Joined Texts
------------------------------------------------------------

namespace WebTidy

namespace Stylesheet

/- Blanks of code are no marks. -/
theorem marks_blanks
    {blanks : Text}
    (rest : Text)
    (h : blanks.all isBlank = true) :
    marks (blanks ++ rest) = marks rest := by
  have hNone :
      (blanks.map Segment.code).filter (!·.isBlank) = [] := by
    simpa [Segment.isBlank] using h
  rw [marks, segments_blanks rest h, List.filter_append,
    hNone]
  rfl

/- Any other character of code is a mark. -/
theorem marks_code
    {c : Char}
    {rest : Text}
    (hBlank : isBlank c = false)
    (hComment : ¬ (c = '/' ∧ rest.head? = some '*'))
    (hMark : isMark c = false) :
    marks (c :: rest) = .code c :: marks rest := by
  rw [marks, segments_code hComment hMark,
    List.filter_cons_of_pos (by simp [Segment.isBlank, hBlank])]
  rfl

/- A comment without an end is the last mark. -/
theorem marks_comment_open
    {k : Text}
    (hOpen : "/*".toList <+: k)
    (h : commentLength? k = none) :
    marks k = [.comment k false] := by
  rw [marks, segments_comment_open hOpen h]
  rfl

/- A string without an end is the last mark. -/
theorem marks_string_open
    {mark : Char}
    {rest : Text}
    (hMark : isMark mark = true)
    (h : stringLength? (mark :: rest) = none) :
    marks (mark :: rest) =
      [.quoted (mark :: rest) false] := by
  rw [marks, segments_string_open hMark h]
  rfl

/- A text of blanks has no marks. -/
theorem marks_eq_nil
    {blanks : Text}
    (h : blanks.all isBlank = true) :
    marks blanks = [] := by
  have hAppend := marks_blanks [] h
  rw [List.append_nil] at hAppend
  rw [hAppend, marks, segments]
  rfl

namespace Scanner

/-
  The segment of a move, in front of its own text or any
  other that does not turn a slash into the start of a
  comment.
-/
theorem Move.exists_segment
    {s t : Scanner}
    {blanks rest k text : Text}
    (h : Move s blanks rest k text t) :
    ∃ segment : Segment,
      segment.isBlank = false ∧
      (k = [';'] → segment = .code ';') ∧
      ∀ tail : Text,
        (k.getLast? = some '/' → tail.head? = some '*' →
          rest.head? = some '*') →
        segments (k ++ tail) = segment :: segments tail := by
  have hChar
      (c : Char)
      (hk : k = [c])
      (hBlank : isBlank c = false)
      (hMark : isMark c = false)
      (hComment : ¬ (c = '/' ∧ rest.head? = some '*')) :
      ∃ segment : Segment,
        segment.isBlank = false ∧
        (k = [';'] → segment = .code ';') ∧
        ∀ tail : Text,
          (k.getLast? = some '/' → tail.head? = some '*' →
            rest.head? = some '*') →
          segments (k ++ tail) =
            segment :: segments tail := by
    subst k
    refine ⟨.code c, hBlank, ?_, ?_⟩
    · intro hSemicolon
      rw [List.singleton_inj.mp hSemicolon]
    · intro tail hTail
      refine segments_code ?_ hMark
      rintro ⟨rfl, hStar⟩
      exact hComment ⟨rfl, hTail rfl hStar⟩
  cases h with
  | plain c hPlain hComment | word c hPlain hComment =>
      refine hChar c rfl (isBlank_of_isPlain hPlain) ?_
        hComment
      simp [isPlain] at hPlain
      exact hPlain.1.1.1.1.2
  | operator c hComment hValue hParens hOperator =>
      simp only [isOperator, decide_eq_true_eq] at hOperator
      rcases hOperator with rfl | rfl | rfl | rfl <;>
        exact hChar _ rfl rfl rfl hComment
  | comment k hComment =>
      refine ⟨.comment k true, rfl, ?_, ?_⟩
      · rintro rfl
        cases hComment
      · intro tail _
        exact segments_comment tail hComment
  | string k hString =>
      refine ⟨.quoted k true, rfl, ?_, ?_⟩
      · rintro rfl
        cases hString
      · intro tail _
        exact segments_string tail hString
  | _ => exact hChar _ rfl rfl rfl (by simp)

/- The segment of a move is a mark. -/
theorem Move.exists_mark
    {s t : Scanner}
    {blanks rest k text : Text}
    (h : Move s blanks rest k text t) :
    ∃ segment : Segment,
      (k = [';'] → segment = .code ';') ∧
      ∀ tail : Text,
        (k.getLast? = some '/' → tail.head? = some '*' →
          rest.head? = some '*') →
        marks (k ++ tail) = segment :: marks tail := by
  rcases h.exists_segment with
    ⟨segment, hBlank, hSemicolon, hSegments⟩
  refine ⟨segment, hSemicolon, ?_⟩
  intro tail hTail
  rw [marks, hSegments tail hTail,
    List.filter_cons_of_pos (by simp [hBlank])]
  rfl

end Scanner

end Stylesheet

end WebTidy

------------------------------------------------------------
-- Layouts Keep The Marks
------------------------------------------------------------

namespace WebTidy

namespace Stylesheet

namespace Scanner

/- The marks of a layout and of its text, side by side. -/
theorem Laid.relaid
    {s : Scanner}
    {source out : Text}
    {previous : Option Segment}
    (h : Laid s source out)
    (hs : Ready s source)
    (hPrevious :
      s.final? = some ';' → previous = some (.code ';')) :
    Relaid previous (marks source)
      (marks (out ++ ['\n'])) := by
  induction h generalizing previous with
  | @blank s blanks hCode hBlanks =>
      rw [marks_eq_nil hBlanks]
      cases s.inValue with
      | false =>
          rw [marks_eq_nil rfl]
          exact .done
      | true =>
          have hMarks :
              marks (';' :: ['\n']) = [.code ';'] := by
            rw [marks_code rfl (by simp) rfl,
              marks_eq_nil rfl]
          exact hMarks ▸ .add (Or.inl rfl) .done
  | @openComment s blanks k hCode hBlanks hOpen hEnd =>
      rw [marks_blanks _ hBlanks,
        marks_comment_open hOpen hEnd, List.append_assoc,
        marks_blanks _ s.all_commentLead,
        marks_comment_open (prefix_trimEnd hOpen)
          (commentLength?_trimEnd hEnd)]
      apply Relaid.unclosed
      rw [Segment.trimmed, Segment.trimmed,
        Text.trimEnd_trimEnd_append k rfl]
  | @openString s blanks body mark hCode hBlanks hMark
      hEnd =>
      have hTrim := trimEnd_mark_cons body hMark
      have hNone := stringLength?_trimEnd hEnd
      rw [hTrim] at hNone
      rw [marks_blanks _ hBlanks, marks_string_open hMark hEnd,
        List.append_assoc,
        marks_blanks _ (s.all_lead hBlanks), hTrim,
        marks_string_open hMark hNone]
      apply Relaid.unclosed
      rw [Segment.trimmed, Segment.trimmed, ← hTrim,
        Text.trimEnd_trimEnd_append _ rfl]
  | @again s blanks rest out hBlanks hFinal hRest ih =>
      rw [List.append_assoc, marks_blanks _ hBlanks,
        List.singleton_append,
        marks_code rfl (by simp) rfl, hPrevious hFinal]
      apply Relaid.drop
      apply ih ⟨hs.settled, Or.inl (hs.settled.ended hFinal).1⟩
      intro _
      rfl
  | @dash s rest out hDash hRest ih =>
      rw [List.cons_append, marks_code rfl (by simp) rfl,
        marks_code rfl (by simp) rfl]
      rcases hs.afterDash hDash with ⟨_, hCore, hReady⟩
      apply Relaid.keep
      apply ih hReady
      rw [final?, hCore]
      simp
  | @move s t blanks k rest text out hCode hBlanks hMove
      hRest ih =>
      have hReady := hMove.ready hCode
      have hFinal := hMove.final?_eq hCode hBlanks
      rcases hMove.exists_mark with
        ⟨segment, hCodeMark, hMarks⟩
      have hSource := hMarks rest (fun _ h => h)
      have hOut :
          marks (k ++ (out ++ ['\n'])) =
            segment :: marks (out ++ ['\n']) := by
        apply hMarks
        intro hSlash hStar
        exact hRest.head?_source hReady (hFinal.trans hSlash)
          rfl hStar rfl
      have hKeep :
          Relaid previous (segment :: marks rest)
            (segment :: marks (out ++ ['\n'])) := by
        apply Relaid.keep
        apply ih hReady
        intro hEnd
        rw [hCodeMark (hMove.eq_semicolon hCode hBlanks hEnd)]
      rw [List.append_assoc, marks_blanks _ hBlanks, hSource,
        List.append_assoc]
      rcases hMove.text_eq hBlanks with
        ⟨front, hFront, rfl⟩ | ⟨_, rfl, rfl⟩
      · rw [List.append_assoc, marks_blanks _ hFront, hOut]
        exact hKeep
      · have hBrace : segment = .code '}' := by
          have hMark :
              marks ('}' :: rest) = .code '}' :: marks rest :=
            marks_code rfl (by simp) rfl
          exact (List.cons.inj (hSource.symm.trans hMark)).1
        have hClosing :
            marks (s.closing ++ (out ++ ['\n'])) =
              segment :: marks (out ++ ['\n']) := by
          rw [closing, List.append_assoc,
            marks_blanks _ (by simp [isBlank])]
          exact hOut
        rw [List.cons_append,
          marks_code rfl (by simp) rfl, hClosing]
        exact .add (Or.inr (by rw [hBrace]; rfl)) hKeep

end Scanner

end Stylesheet

end WebTidy

------------------------------------------------------------
-- Style Sheets
------------------------------------------------------------

namespace WebTidy

namespace Stylesheet

/-
  The layout of a style sheet says what the style sheet
  says.  A semicolon is missing only behind a semicolon, and
  it is new only in front of a close brace or at the end.
-/
theorem relaid_prettify
    (sheet : Text) :
    contents (prettify sheet) = contents sheet ∧
    Relaid none (marks sheet) (marks (prettify sheet)) := by
  rcases exists_laid_prettify sheet with ⟨out, hLaid, hOut⟩
  have hMarks :
      marks (prettify sheet) = marks (out ++ ['\n']) := by
    have hBlanks :
        (out.takeWhile isBlank).all isBlank = true := by
      simp
    rw [hOut, ← marks_blanks _ hBlanks, ← List.append_assoc,
      List.takeWhile_append_dropWhile]
  have hRelaid :
      Relaid none (marks sheet) (marks (prettify sheet)) := by
    rw [hMarks]
    apply hLaid.relaid (Scanner.ready_new sheet)
    intro hFinal
    cases hFinal
  exact ⟨hRelaid.contents_eq.symm, hRelaid⟩

end Stylesheet

end WebTidy
