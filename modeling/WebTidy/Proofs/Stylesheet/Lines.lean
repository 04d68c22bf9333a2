import WebTidy.Proofs.Stylesheet.Indentation
import WebTidy.Proofs.Stylesheet.Preservation

/-
  The lines of a laid out style sheet.

  A style sheet whose comments and strings stay on one line
  has all its line feeds in code, and so has its layout.
  Cut into lines and indented once more, the layout is laid
  out with the same lines.

  Key definitions include:
    * `WebTidy.Stylesheet.Segment.isSingle`
    * `WebTidy.Text.indented`

  Key theorems include:
    * `WebTidy.Stylesheet.Scanner.context_through`
    * `WebTidy.Stylesheet.context_of_contents`
    * `WebTidy.Stylesheet.not_infix_prettify`
    * `WebTidy.Stylesheet.lines_prettify_indented`
-/

------------------------------------------------------------
-- Line Feeds In Code
------------------------------------------------------------

namespace WebTidy

namespace Stylesheet

namespace Scanner

/- A scanner of code, or between the dashes of a name. -/
def readsCode
    (s : Scanner) :
    Bool :=
  s.context = .code ∨ s.context = .dash

/- A character of a value is code. -/
theorem readsCode_readValue
    {s : Scanner}
    (c : Char)
    (rest : Text)
    (hCode : s.context = .code) :
    (s.readValue c rest).readsCode = true := by
  have hPut (t : Scanner) (ht : t.context = .code) :
      (t.put c).readsCode = true := by
    unfold put
    split <;> simp [readsCode, write, ht]
  have hTrack : (s.trackCalc c rest).context = .code := hCode
  unfold readValue
  simp only
  generalize s.trackCalc c rest = t at hTrack
  split
  · unfold readOperator
    split
    · simp [readsCode]
    · split
      · exact hPut t hTrack
      · simp [readsCode, write, trimmed, hTrack]
  · split
    · split
      · simp [readsCode, write, hTrack]
      · simp [readsCode, hTrack]
    · split
      · exact hPut t.trimmed hTrack
      · exact hPut t hTrack

/- So is what begins no comment and no string. -/
theorem readsCode_step
    {s : Scanner}
    {c : Char}
    {rest : Text}
    (hs : s.readsCode = true)
    (hComment : ¬ (c = '/' ∧ rest.head? = some '*'))
    (hMark : isMark c = false) :
    (s.step c rest).readsCode = true := by
  simp only [readsCode, decide_eq_true_eq] at hs
  rcases hs with hCode | hDash
  · have hWrite (u : Scanner) (hu : u.context = .code) :
        u.readsCode = true := by
      simp [readsCode, hu]
    unfold step read
    simp only [hCode]
    split
    · exact hWrite _ hCode
    obtain ⟨t, ht⟩ :
        ∃ t, { s.trackGroup c with skipping := false } = t :=
      ⟨_, rfl⟩
    have hTrack : t.context = .code := by
      rw [← ht, trackGroup_eq]
      exact hCode
    have hNoMark : ¬ (c = '"' ∨ c = '\'') := by
      simpa [isMark] using hMark
    simp only [readCode, ht]
    rw [if_neg hComment, if_neg hNoMark]
    split
    · exact hWrite _ hTrack
    split
    · exact hWrite _ ((context_closeBlock t rest).1.trans hTrack)
    split
    · exact hWrite _ ((context_endDeclaration t).trans hTrack)
    split
    · exact hWrite _ hTrack
    split
    · unfold readColon
      simp only
      split <;> exact hWrite _ hTrack
    · unfold readPlain
      split
      · exact readsCode_readValue c rest hTrack
      · split
        · exact hWrite _ hTrack
        · unfold put
          split <;> exact hWrite _ hTrack
  · unfold step read
    simp [hDash, readsCode]

/- A comment is copied and ends in code. -/
theorem through_comment
    {s : Scanner}
    {star : Bool}
    {t : Text}
    {n : Nat}
    (hContext : s.context = .comment star)
    (hStar : star = true → t.head? ≠ some '/')
    (hEnd : Text.indexOf? "*/".toList t = some n)
    (rest : Text) :
    s.through (t.take (n + 2)) rest =
      s.copied (t.take (n + 2)) .code := by
  induction t generalizing s star n with
  | nil => cases hEnd
  | cons c more ih =>
      have hNotClosed : ¬ (star = true ∧ c = '/') := by
        rintro ⟨hTrue, rfl⟩
        exact hStar hTrue rfl
      rw [List.take_succ_cons, through,
        step_comment c _ hContext, if_neg hNotClosed]
      unfold Text.indexOf? at hEnd
      split at hEnd
      · rename_i hPrefix
        cases hEnd
        rcases hPrefix with ⟨tail, hTail⟩
        have hTail : '*' :: '/' :: tail = c :: more := hTail
        injection hTail with hAsterisk hSlash
        subst hAsterisk hSlash
        rw [List.take_succ_cons, through,
          step_comment '/' _ rfl]
        simp [through]
      · rename_i hPrefix
        rcases Option.map_eq_some_iff.mp hEnd with
          ⟨m, hm, rfl⟩
        rw [ih rfl (head?_ne_slash hPrefix) hm,
          copied_copied]
        rfl

/- So is a string. -/
theorem through_quoted
    {s : Scanner}
    {mark : Char}
    {escaped : Bool}
    {t : Text}
    {n : Nat}
    (hContext : s.context = .quoted mark escaped)
    (hEnd : quotedLength? mark escaped t = some n)
    (rest : Text) :
    s.through (t.take n) rest =
      s.copied (t.take n) .code := by
  induction t generalizing s escaped n with
  | nil => simp [quotedLength?] at hEnd
  | cons c more ih =>
      rcases quotedLength?_cons mark escaped c with
        ⟨hAfter, hOne⟩ | ⟨flag, hAfter, hNext⟩
      · rw [hOne] at hEnd
        cases hEnd
        rw [List.take_succ_cons, through,
          step_quoted c _ hContext, hAfter]
        rfl
      · rw [hNext] at hEnd
        rcases Option.map_eq_some_iff.mp hEnd with
          ⟨m, hm, rfl⟩
        rw [List.take_succ_cons, through,
          step_quoted c _ hContext, ih hAfter hm,
          copied_copied]
        rfl

/- What follows the opening marks of a comment is copied. -/
theorem through_isComment
    {s : Scanner}
    {body : Text}
    (hContext : s.context = .opening)
    (hk : IsComment ('/' :: '*' :: body))
    (rest : Text) :
    s.through ('*' :: body) rest =
      s.copied ('*' :: body) .code := by
  rcases exists_of_commentLength? hk with
    ⟨_, m, hText, hEnd, hLength⟩
  cases hText
  have hWhole : body.take (m + 2) = body := by
    apply List.take_of_length_le
    simp only [List.length_cons] at hLength
    omega
  have hBody :=
    through_comment (s := s.copied ['*'] (.comment false))
      rfl (by simp) hEnd rest
  rw [hWhole] at hBody
  rw [through, step_opening _ _ hContext, hBody,
    copied_copied]
  rfl

/- So is what follows the opening mark of a string. -/
theorem through_isString
    {s : Scanner}
    {mark : Char}
    {body : Text}
    (hContext : s.context = .quoted mark false)
    (hk : IsString (mark :: body))
    (rest : Text) :
    s.through body rest = s.copied body .code := by
  rcases exists_of_stringLength? hk with
    ⟨_, _, m, hText, _, hEnd, hLength⟩
  cases hText
  have hWhole : body.take m = body := by
    apply List.take_of_length_le
    simp only [List.length_cons] at hLength
    omega
  have hBody := through_quoted hContext hEnd rest
  rw [hWhole] at hBody
  exact hBody

/- A whole comment ends in code. -/
theorem context_through_isComment
    {s : Scanner}
    {k : Text}
    (hCode : s.context = .code)
    (hk : IsComment k)
    (rest : Text) :
    (s.through k rest).context = .code := by
  rcases exists_of_commentLength? hk with
    ⟨body, _, rfl, _, _⟩
  have hOpen (t : Text) :
      (s.step '/' ('*' :: t)).context = .opening := by
    unfold step read
    simp [hCode, isBlank, readCode, openComment]
  rw [through, List.cons_append,
    through_isComment (hOpen _) hk rest]
  rfl

/- So does a whole string. -/
theorem context_through_isString
    {s : Scanner}
    {k : Text}
    (hCode : s.context = .code)
    (hk : IsString k)
    (rest : Text) :
    (s.through k rest).context = .code := by
  rcases exists_of_stringLength? hk with
    ⟨mark, body, _, rfl, hMark, _, _⟩
  have hOpen (t : Text) :
      (s.step mark t).context = .quoted mark false := by
    simp only [isMark, decide_eq_true_eq] at hMark
    unfold step read
    rcases hMark with rfl | rfl <;>
      simp [hCode, isBlank, readCode]
  rw [through, through_isString (hOpen _) hk rest]
  rfl

/- Neither of them stands between two dashes. -/
theorem context_through_closed
    {s : Scanner}
    {k rest : Text}
    (hs : s.Reached (k ++ rest))
    (hCode : s.readsCode = true)
    (hk : IsComment k ∨ IsString k)
    (more : Text) :
    (s.through k more).context = .code := by
  have hHere (c : Char) (body : Text)
      (hText : k = c :: body)
      (hc : c ≠ '-') :
      s.context = .code := by
    simp only [readsCode, decide_eq_true_eq] at hCode
    rcases hCode with hCode | hDash
    · exact hCode
    · have hHead := hs.dash hDash
      rw [hText, List.cons_append, List.head?_cons] at hHead
      exact absurd (Option.some.inj hHead) hc
  rcases hk with hComment | hString
  · rcases exists_of_commentLength? hComment with
      ⟨body, _, hText, _, _⟩
    exact context_through_isComment
      (hHere '/' _ hText (by decide)) hComment more
  · rcases exists_of_stringLength? hString with
      ⟨mark, body, _, hText, hMark, _, _⟩
    have hc : mark ≠ '-' := by
      rintro rfl
      cases hMark
    exact context_through_isString (hHere mark _ hText hc)
      hString more

end Scanner

/- A segment that holds no line feed, or is one of code. -/
def Segment.isSingle :
    Segment → Bool
| .code _ => true
| segment => '\n' ∉ segment.trimmed.source

/- A line feed stands behind a text without line feeds. -/
theorem exists_of_not_mem
    {k rest before after : Text}
    (hText : k ++ rest = before ++ '\n' :: after)
    (hk : '\n' ∉ k) :
    ∃ more, before = k ++ more ∧
      rest = more ++ '\n' :: after := by
  rcases List.append_eq_append_iff.mp hText with
    ⟨more, hBefore, hRest⟩ | ⟨more, hFront, hRest⟩
  · exact ⟨more, hBefore, hRest⟩
  · cases more with
    | nil =>
        refine ⟨[], ?_, hRest.symm⟩
        rw [hFront, List.append_nil, List.append_nil]
    | cons c more =>
        rw [List.cons_append] at hRest
        injection hRest with hc _
        exact absurd (by rw [hFront, ← hc]; simp) hk

/- A line feed with more than blanks behind it stays. -/
theorem mem_trimEnd
    {before after : Text}
    (hAfter : after.all isBlank = false) :
    '\n' ∈ Text.trimEnd isBlank (before ++ '\n' :: after) := by
  rcases Text.exists_trimEnd_append isBlank
    (before ++ '\n' :: after) with ⟨tail, hTail, hSplit⟩
  by_contra hMem
  rcases exists_of_not_mem hSplit.symm hMem with
    ⟨more, _, rfl⟩
  rw [List.all_append, List.all_cons, Bool.and_eq_true,
    Bool.and_eq_true, hAfter] at hTail
  cases hTail.2.2

/- The first segment of a text. -/
theorem segments_cases
    (c : Char)
    (rest : Text) :
    (∃ k tail segment,
      c :: rest = k ++ tail ∧ (IsComment k ∨ IsString k) ∧
        (Segment.isSingle segment = true → '\n' ∉ k) ∧
        segments (c :: rest) = segment :: segments tail) ∨
    (∃ segment,
      (Segment.isSingle segment = true →
        '\n' ∉ Text.trimEnd isBlank (c :: rest)) ∧
        segments (c :: rest) = [segment]) ∨
    (¬ (c = '/' ∧ rest.head? = some '*') ∧
      isMark c = false ∧
      segments (c :: rest) = .code c :: segments rest) := by
  by_cases hOpen : "/*".toList <+: c :: rest
  · cases hEnd : commentLength? (c :: rest) with
    | none =>
        exact Or.inr (Or.inl ⟨_, of_decide_eq_true,
          segments_comment_open hOpen hEnd⟩)
    | some n =>
        have hk := (isComment_take hEnd).1
        have hSplit := List.take_append_drop n (c :: rest)
        have hParts :=
          segments_comment ((c :: rest).drop n) hk
        rw [hSplit] at hParts
        exact Or.inl ⟨_, _, _, hSplit.symm, Or.inl hk,
          of_decide_eq_true, hParts⟩
  · cases hMark : isMark c with
    | true =>
        cases hEnd : stringLength? (c :: rest) with
        | none =>
            exact Or.inr (Or.inl ⟨_, of_decide_eq_true,
              segments_string_open hMark hEnd⟩)
        | some n =>
            have hk := (isString_take hEnd).1
            have hSplit := List.take_append_drop n (c :: rest)
            have hParts :=
              segments_string ((c :: rest).drop n) hk
            rw [hSplit] at hParts
            exact Or.inl ⟨_, _, _, hSplit.symm, Or.inr hk,
              of_decide_eq_true, hParts⟩
    | false =>
        have hComment :
            ¬ (c = '/' ∧ rest.head? = some '*') := by
          rintro ⟨rfl, hStar⟩
          rcases List.head?_eq_some_iff.mp hStar with
            ⟨tail, rfl⟩
          exact hOpen (List.prefix_append _ tail)
        exact Or.inr (Or.inr ⟨hComment, rfl,
          segments_code hComment hMark⟩)

/-
  A line feed with more than blanks behind it stands in
  code, if no comment and no string goes on behind it.
-/
theorem Scanner.context_through
    {s : Scanner}
    {before after : Text}
    (hs : s.Reached (before ++ '\n' :: after))
    (hCode : s.readsCode = true)
    (hSegments :
      ∀ segment ∈ segments (before ++ '\n' :: after),
        segment.isSingle = true)
    (hAfter : after.all isBlank = false) :
    (s.through before ('\n' :: after)).context = .code := by
  -- a comment or a string is passed over in one step
  induction hLength : before.length
    using Nat.strong_induction_on generalizing s before with
  | h n ih =>
      cases before with
      | nil =>
          simp only [readsCode, decide_eq_true_eq] at hCode
          rcases hCode with hCode | hDash
          · exact hCode
          · cases hs.dash hDash
      | cons c front =>
          rcases segments_cases c (front ++ '\n' :: after) with
            ⟨k, tail, segment, hText, hk, hSource, hParts⟩ |
              ⟨segment, hSource, hParts⟩ |
              ⟨hComment, hMark, hParts⟩
          · rw [List.cons_append, hParts] at hSegments
            have hSingle := hSegments segment (by simp)
            rw [← List.cons_append] at hText
            rcases exists_of_not_mem hText.symm
              (hSource hSingle) with ⟨more, hFront, rfl⟩
            have hPos : k ≠ [] := by
              rintro rfl
              rcases hk with hk | hk <;> cases hk
            rw [hFront] at hs hLength ⊢
            rw [List.append_assoc] at hs
            rw [through_append]
            apply ih more.length _ hs.through _ _ rfl
            · rw [← hLength, List.length_append]
              exact Nat.lt_add_of_pos_left
                (List.length_pos_iff.mpr hPos)
            · simp [readsCode,
                context_through_closed hs hCode hk]
            · intro other hOther
              exact hSegments other
                (List.mem_cons_of_mem _ hOther)
          · rw [List.cons_append, hParts] at hSegments
            have hSingle := hSegments segment (by simp)
            exact absurd (@mem_trimEnd (c :: front) _ hAfter)
              (hSource hSingle)
          · rw [List.cons_append, hParts] at hSegments
            rw [through]
            apply ih front.length _ hs.step _ _ rfl
            · rw [← hLength]
              exact Nat.lt_succ_self _
            · exact readsCode_step hCode hComment hMark
            · intro other hOther
              exact hSegments other
                (List.mem_cons_of_mem _ hOther)

end Stylesheet

end WebTidy

------------------------------------------------------------
-- Line Feeds Of A Layout
------------------------------------------------------------

namespace WebTidy

namespace Stylesheet

/- The marks of a style sheet and of its layout. -/
theorem relaid_marks
    (sheet : Text) :
    Relaid none (marks sheet) (marks (prettify sheet)) := by
  rcases exists_laid_prettify sheet with ⟨out, hLaid, hOut⟩
  have hRelaid :
      Relaid none (marks sheet) (marks (out ++ ['\n'])) :=
    hLaid.relaid (Scanner.ready_new sheet) nofun
  have hBlanks :=
    @marks_blanks (out.takeWhile isBlank)
      (out.dropWhile isBlank ++ ['\n']) List.all_takeWhile
  rw [← List.append_assoc, List.takeWhile_append_dropWhile,
    ← hOut] at hBlanks
  rw [hBlanks] at hRelaid
  exact hRelaid

/- Dropping blanks drops no other character. -/
theorem Segment.mem_trimmed
    {c : Char}
    (hc : WebTidy.isBlank c = false)
    (segment : Segment) :
    c ∈ segment.trimmed.source ↔ c ∈ segment.source := by
  have hTrim (source : Text) :
      c ∈ source.trimEnd WebTidy.isBlank ↔ c ∈ source := by
    rcases Text.exists_trimEnd_append WebTidy.isBlank source
      with ⟨tail, hTail, hSplit⟩
    have hNone : c ∉ tail := by
      intro hMem
      rw [List.all_eq_true.mp hTail c hMem] at hc
      cases hc
    conv_rhs => rw [hSplit, List.mem_append]
    exact (or_iff_left hNone).symm
  cases segment with
  | code d => rfl
  | comment source closed =>
      cases closed with
      | true => rfl
      | false => exact hTrim source
  | quoted source closed =>
      cases closed with
      | true => rfl
      | false => exact hTrim source

/- The marks hold every character but blanks. -/
theorem mem_marks
    {c : Char}
    (hc : isBlank c = false)
    (sheet : Text) :
    c ∈ (marks sheet).flatMap Segment.source ↔ c ∈ sheet := by
  conv_rhs => rw [← segments_source sheet]
  simp only [List.mem_flatMap, marks, List.mem_filter]
  constructor
  · rintro ⟨segment, ⟨hMem, _⟩, hSource⟩
    exact ⟨segment, hMem, hSource⟩
  · rintro ⟨segment, hMem, hSource⟩
    refine ⟨segment, ⟨hMem, ?_⟩, hSource⟩
    cases segment with
    | code d =>
        rw [Segment.source, List.mem_singleton] at hSource
        rw [Segment.isBlank, ← hSource, hc]
        rfl
    | comment | quoted => rfl

/- Semicolons are the only new characters. -/
theorem Relaid.mem_source
    {c : Char}
    (hc : isBlank c = false)
    (hOther : c ≠ ';')
    {previous : Option Segment}
    {before after : List Segment}
    (h : Relaid previous before after)
    (hMem : c ∈ after.flatMap Segment.source) :
    c ∈ before.flatMap Segment.source := by
  induction h with
  | done => exact hMem
  | keep hRest ih =>
      rw [List.flatMap_cons, List.mem_append] at hMem ⊢
      exact hMem.imp_right ih
  | @unclosed previous segment kept hTrimmed =>
      rw [List.flatMap_singleton] at hMem ⊢
      rw [← Segment.mem_trimmed hc, hTrimmed,
        Segment.mem_trimmed hc]
      exact hMem
  | drop hRest ih =>
      rw [List.flatMap_cons, List.mem_append]
      exact Or.inr (ih hMem)
  | add hNext hRest ih =>
      rw [List.flatMap_cons, List.mem_append] at hMem
      rcases hMem with hSemicolon | hRest
      · exact absurd (List.mem_singleton.mp hSemicolon) hOther
      · exact ih hRest

/- So a layout has no other characters than its text. -/
theorem mem_of_mem_prettify
    {c : Char}
    (hc : isBlank c = false)
    (hOther : c ≠ ';')
    {sheet : Text}
    (hMem : c ∈ prettify sheet) :
    c ∈ sheet := by
  rw [← mem_marks hc] at hMem ⊢
  exact (relaid_marks sheet).mem_source hc hOther hMem

/- Segments that hold no line feed where it matters. -/
theorem isSingle_of_contents
    {sheet : Text}
    (h : ∀ segment ∈ contents sheet, '\n' ∉ segment.source)
    {segment : Segment}
    (hMem : segment ∈ segments sheet) :
    segment.isSingle = true := by
  have hSource (hMark : segment.isBlank = false)
      (hOther : segment ≠ .code ';') :
      '\n' ∉ segment.trimmed.source := by
    apply h
    refine List.mem_map_of_mem (List.mem_filter.mpr ⟨?_, ?_⟩)
    · exact List.mem_filter.mpr ⟨hMem, by simp [hMark]⟩
    · simpa using hOther
  cases segment with
  | code c => rfl
  | comment source closed =>
      exact decide_eq_true (hSource rfl nofun)
  | quoted source closed =>
      exact decide_eq_true (hSource rfl nofun)

/-
  The line feeds of a layout stand in code, if nothing that
  the style sheet says holds a line feed.
-/
theorem context_of_contents
    {sheet page : Text}
    (hPage : (prettify sheet).trimEnd isSpace = page)
    (hContents :
      ∀ segment ∈ contents sheet, '\n' ∉ segment.source)
    {before after : Text}
    (hText : page = before ++ '\n' :: after) :
    (scannerAt before ('\n' :: after)).context = .code := by
  rcases Text.exists_trimEnd_append isSpace (prettify sheet)
    with ⟨w, hw, hSplit⟩
  have hEnds := Text.trimEnd_ends isSpace (prettify sheet)
  rw [hPage, hText] at hSplit hEnds
  have hInk : after.all isBlank = false := by
    by_contra hBlank
    rw [Bool.not_eq_false, List.all_eq_true] at hBlank
    have hSpace : isSpace (after.getLast?.getD '\n') = true := by
      cases hLast : after.getLast? with
      | none => rfl
      | some e =>
          exact isSpace_of_isBlank
            (hBlank e (List.mem_of_getLast? hLast))
    rw [List.getLast?_append, List.getLast?_cons] at hEnds
    simp [hSpace] at hEnds
  have hInks : (after ++ w).all isBlank = false := by
    rw [List.all_append, hInk, Bool.false_and]
  have hSelector :
      selectorAhead (after ++ w) = selectorAhead after := by
    have hNil :=
      selectorAhead_append_congr after (selectorAhead_spaces hw)
    rw [List.append_nil] at hNil
    exact hNil
  have hAlike :
      Alike ('\n' :: (after ++ w)) ('\n' :: after) :=
    @alike_append ['\n'] _ _ (by simp) rfl hSelector
      (hInks.trans hInk.symm)
  have hSame :
      scannerAt before ('\n' :: (after ++ w)) =
        scannerAt before ('\n' :: after) :=
    Scanner.through_alike hAlike {} before
  have hAgain : contents (prettify sheet) = contents sheet :=
    (relaid_marks sheet).contents_eq.symm
  rw [List.append_assoc, List.cons_append] at hSplit
  rw [← hSame]
  apply Scanner.context_through (Scanner.reached_new _) rfl _
    hInks
  rw [← hSplit]
  intro segment
  apply isSingle_of_contents
  rw [hAgain]
  exact hContents

end Stylesheet

end WebTidy

------------------------------------------------------------
-- Two Carriage Returns
------------------------------------------------------------

namespace WebTidy

namespace Text

/- Nothing is added. -/
theorem length_dropReturns_le
    (t : Text) :
    t.dropReturns.length ≤ t.length := by
  induction t with
  | nil => exact Nat.le_refl _
  | cons c rest ih =>
      rw [dropReturns]
      split
      · exact ih.trans (Nat.le_succ _)
      · exact Nat.succ_le_succ ih

/- A text that stays as it is has no carriage returns. -/
theorem not_infix_of_dropReturns_eq
    {t : Text}
    (h : t.dropReturns = t) :
    ¬ "\r\n".toList <:+: t := by
  induction t with
  | nil => simp
  | cons c rest ih =>
      rw [dropReturns] at h
      split at h
      · have hLength := length_dropReturns_le rest
        rw [h] at hLength
        exact absurd hLength (Nat.not_succ_le_self _)
      · rename_i hOther
        intro hInfix
        rcases List.infix_cons_iff.mp hInfix with
          hPrefix | hRest
        · rcases hPrefix with ⟨tail, hTail⟩
          have hTail : '\r' :: '\n' :: tail = c :: rest := hTail
          injection hTail with hReturn hFeed
          exact hOther ⟨hReturn.symm, by rw [← hFeed]; rfl⟩
        · exact ih (List.cons.inj h).2 hRest

/- Without two of them, dropping one leaves none. -/
theorem head?_dropReturns_ne
    {rest : Text}
    (h : ¬ "\r\r\n".toList <:+: '\r' :: rest)
    (hOther : rest.head? ≠ some '\n') :
    rest.dropReturns.head? ≠ some '\n' := by
  intro hHead
  cases rest with
  | nil => cases hHead
  | cons d more =>
      rw [dropReturns] at hHead
      split at hHead
      · rename_i hAgain
        rcases hAgain with ⟨rfl, hFeed⟩
        rcases List.head?_eq_some_iff.mp hFeed with ⟨tail, rfl⟩
        exact h (List.prefix_append _ tail).isInfix
      · exact hOther hHead

/- So dropping twice is dropping once. -/
theorem dropReturns_dropReturns
    {t : Text}
    (h : ¬ "\r\r\n".toList <:+: t) :
    t.dropReturns.dropReturns = t.dropReturns := by
  induction t with
  | nil => rfl
  | cons c rest ih =>
      have hRest : ¬ "\r\r\n".toList <:+: rest :=
        fun hInner => h (List.infix_cons hInner)
      by_cases hReturn : c = '\r' ∧ rest.head? = some '\n'
      · rw [dropReturns, if_pos hReturn, ih hRest]
      · have hStill :
            c = '\r' → (dropReturns rest).head? ≠ some '\n' := by
          rintro rfl
          exact head?_dropReturns_ne h
            (fun hHead => hReturn ⟨rfl, hHead⟩)
        rw [dropReturns, if_neg hReturn,
          dropReturns_cons hStill, ih hRest]

/- Of two of them, dropping one leaves the other. -/
theorem infix_dropReturns
    {t : Text}
    (h : "\r\r\n".toList <:+: t) :
    "\r\n".toList <:+: t.dropReturns := by
  rcases h with ⟨front, rest, hText⟩
  have hText :
      t = (front ++ ['\r']) ++ '\r' :: '\n' :: rest := by
    rw [← hText, List.append_assoc]
    exact (List.append_assoc front ['\r'] _).symm
  have hLast := getLast?_dropReturns (front ++ ['\r'])
  rw [List.getLast?_concat] at hLast
  rcases List.getLast?_eq_some_iff.mp hLast with
    ⟨lead, hLead⟩
  rw [hText, dropReturns_append (by simp), hLead,
    dropReturns_return, List.append_assoc]
  exact ⟨lead, dropReturns rest, List.append_assoc lead _ _⟩

end Text

namespace Stylesheet

/- A layout has no two carriage returns of its own. -/
theorem not_infix_prettify
    {sheet : Text}
    (h : ¬ "\r\r\n".toList <:+: sheet) :
    ¬ "\r\r\n".toList <:+: prettify sheet := by
  have hTwice :
      (prettify sheet).dropReturns.dropReturns =
        (prettify sheet).dropReturns := by
    rw [← prettify_dropReturns, ← prettify_dropReturns,
      Text.dropReturns_dropReturns h]
  intro hInfix
  exact Text.not_infix_of_dropReturns_eq hTwice
    (Text.infix_dropReturns hInfix)

end Stylesheet

end WebTidy

------------------------------------------------------------
-- Lines
------------------------------------------------------------

namespace WebTidy

namespace Text

/- A line set deeper; an empty line is not indented. -/
def indented
    (depth : Nat)
    (line : Text) :
    Text :=
  if line = [] then ['\n']
  else List.replicate depth '\t' ++ line ++ ['\n']

/- A line set deeper is the line behind blanks. -/
theorem exists_indented
    (depth : Nat)
    (line : Text) :
    ∃ blanks : Text,
      blanks.all isBlank = true ∧ '\r' ∉ blanks ∧
        indented depth line = blanks ++ line ++ ['\n'] := by
  unfold indented
  split
  · rename_i hLine
    exact ⟨[], rfl, by simp, by rw [hLine]; rfl⟩
  · exact ⟨List.replicate depth '\t', by simp [isBlank],
      by simp, rfl⟩

/- A line holds nothing but characters of the text. -/
theorem mem_of_mem_lines
    {t line : Text}
    {c : Char}
    (hLine : line ∈ lines t)
    (hc : c ∈ line) :
    c ∈ t := by
  induction t generalizing line with
  | nil => cases hLine
  | cons d rest ih =>
      rw [lines] at hLine
      split at hLine
      · rcases List.mem_cons.mp hLine with rfl | hRest
        · cases hc
        · exact List.mem_cons_of_mem d (ih hRest hc)
      · split at hLine
        · exact List.mem_cons_of_mem d (ih hLine hc)
        · cases hLines : lines rest with
          | nil =>
              rw [hLines, List.mem_singleton] at hLine
              rw [hLine, List.mem_singleton] at hc
              exact hc ▸ List.mem_cons_self
          | cons first more =>
              rw [hLines] at hLine ih
              rcases List.mem_cons.mp hLine with rfl | hRest
              · rcases List.mem_cons.mp hc with rfl | hFirst
                · exact List.mem_cons_self
                · exact List.mem_cons_of_mem d
                    (ih List.mem_cons_self hFirst)
              · exact List.mem_cons_of_mem d
                  (ih (List.mem_cons_of_mem _ hRest) hc)

/- Any other character belongs to the first line. -/
theorem lines_cons
    {c : Char}
    {rest line : Text}
    {more : List Text}
    (hFeed : c ≠ '\n')
    (hReturn : ¬ (c = '\r' ∧ rest.head? = some '\n'))
    (hRest : lines rest = line :: more) :
    lines (c :: rest) = (c :: line) :: more := by
  rw [lines, if_neg hFeed, if_neg hReturn, hRest]

/-
  The lines of a text do not hold the carriage returns of
  its line ends, if no line ends with two of them.
-/
theorem lines_dropReturns
    {t : Text}
    (h : ¬ "\r\r\n".toList <:+: t) :
    lines t.dropReturns = lines t := by
  induction t with
  | nil => rfl
  | cons c rest ih =>
      have hRest : ¬ "\r\r\n".toList <:+: rest :=
        fun hInner => h (List.infix_cons hInner)
      by_cases hReturn : c = '\r' ∧ rest.head? = some '\n'
      · rw [dropReturns, if_pos hReturn, lines,
          if_neg (by simp [hReturn.1]), if_pos hReturn, ih hRest]
      · have hStill :
            ¬ (c = '\r' ∧
              (dropReturns rest).head? = some '\n') := by
          rintro ⟨rfl, hHead⟩
          exact head?_dropReturns_ne h
            (fun hFeed => hReturn ⟨rfl, hFeed⟩) hHead
        rw [dropReturns, if_neg hReturn, lines, lines,
          if_neg hStill, if_neg hReturn, ih hRest]

end Text

namespace Stylesheet

/- More blanks behind line feeds keep the first character. -/
theorem Loosened.head?_eq
    {s t : Text}
    (h : Loosened s t) :
    t.head? = s.head? := by
  cases h with
  | nil => rfl
  | char c hRest => rfl
  | line hBlanks hRest => rfl

/-
  The lines of a text, all but the first one set deeper, are
  the text with more blanks behind its line feeds.
-/
theorem exists_loosened
    (depth : Nat)
    {t : Text}
    (hSome : t ≠ [])
    (hLast : t.getLast? ≠ some '\n') :
    ∃ line more x,
      Text.lines t = line :: more ∧ Loosened t x ∧
        line ++ '\n' :: more.flatMap (Text.indented depth) =
          Text.dropReturns x ++ ['\n'] := by
  induction t with
  | nil => exact absurd rfl hSome
  | cons c rest ih =>
      cases rest with
      | nil =>
          have hc : c ≠ '\n' := by simpa using hLast
          refine ⟨[c], [], [c], ?_, .char c .nil, ?_⟩
          · rw [Text.lines, if_neg hc, if_neg (by simp)]
            rfl
          · rw [Text.dropReturns_cons (by simp)]
            rfl
      | cons d rest =>
          rw [List.getLast?_cons_cons] at hLast
          rcases ih (by simp) hLast with
            ⟨line, more, x, hLines, hLoose, hText⟩
          by_cases hFeed : c = '\n'
          · rcases Text.exists_indented depth line with
              ⟨blanks, hBlanks, hClean, hLine⟩
            refine ⟨[], line :: more, '\n' :: (blanks ++ x),
              ?_, ?_, ?_⟩
            · rw [Text.lines, if_pos hFeed, hLines]
            · exact hFeed ▸ .line hBlanks hLoose
            · rw [List.flatMap_cons, hLine,
                Text.dropReturns_cons (by simp),
                Text.dropReturns_append
                  (fun h => absurd (List.mem_of_getLast? h)
                    hClean),
                Text.dropReturns_eq_self hClean]
              simp [← hText]
          · by_cases hReturn : c = '\r' ∧ d = '\n'
            · rcases hReturn with ⟨rfl, rfl⟩
              refine ⟨line, more, '\r' :: x, ?_,
                .char '\r' hLoose, ?_⟩
              · rw [Text.lines, if_neg hFeed, if_pos (by simp),
                  hLines]
              · rw [Text.dropReturns,
                  if_pos ⟨rfl, hLoose.head?_eq⟩, hText]
            · refine ⟨c :: line, more, c :: x, ?_,
                .char c hLoose, ?_⟩
              · exact Text.lines_cons hFeed (by simpa using hReturn)
                  hLines
              · rw [Text.dropReturns,
                  if_neg (by simpa [hLoose.head?_eq] using hReturn),
                  List.cons_append, List.cons_append, hText]

/-
  A layout that is cut into lines and indented once more is
  laid out as before, but for carriage returns, if nothing
  that the style sheet says holds a line feed.
-/
theorem prettify_indented
    {sheet page : Text}
    (hPage : (prettify sheet).trimEnd isSpace = page)
    (hSome : page ≠ [])
    (hContents :
      ∀ segment ∈ contents sheet, '\n' ∉ segment.source)
    (depth : Nat)
    {lead tail : Text}
    (hLead : lead.all isBlank = true)
    (hTail : tail.all isBlank = true) :
    prettify
        (lead ++
          (Text.lines page).flatMap (Text.indented depth) ++
          tail) =
      page.dropReturns ++ ['\n'] := by
  have hEnds : page.getLast?.all (!isSpace ·) = true :=
    hPage ▸ Text.trimEnd_ends isSpace (prettify sheet)
  have hLast (c : Char) (hc : isSpace c = true) :
      page.getLast? ≠ some c := by
    intro hSame
    rw [hSame, Option.all_some, hc] at hEnds
    cases hEnds
  rcases exists_loosened depth hSome (hLast '\n' rfl) with
    ⟨line, more, x, hCut, hLoose, hText⟩
  rcases Text.exists_indented depth line with
    ⟨blanks, hBlanks, _, hLine⟩
  have hBody :
      lead ++ (Text.lines page).flatMap (Text.indented depth) ++
          tail =
        (lead ++ blanks) ++
          (Text.dropReturns x ++ '\n' :: tail) := by
    have hRest :
        line ++ '\n' :: more.flatMap (Text.indented depth) ++
            tail =
          Text.dropReturns x ++ '\n' :: tail := by
      rw [hText, List.append_assoc, List.singleton_append]
    rw [← hRest]
    simp [hCut, hLine]
  have hAgain := prettify_trimEnd_prettify sheet
  rw [hPage] at hAgain
  calc
    prettify
        (lead ++
          (Text.lines page).flatMap (Text.indented depth) ++
          tail) =
      prettify (Text.dropReturns x ++ '\n' :: tail) := by
        rw [hBody]
        exact @prettify_start (lead ++ blanks) [] _
          (by rw [List.all_append, hLead, hBlanks]; rfl) rfl
    _ = prettify (Text.dropReturns x) :=
      prettify_append_blanks _ (by simpa [isBlank] using hTail)
    _ = (prettify page).dropReturns := by
      rw [prettify_dropReturns]
      exact congrArg Text.dropReturns
        (@Loosened.prettify_eq [] page x hLoose
          (fun _ _ hText =>
            context_of_contents hPage hContents hText)).symm
    _ = page.dropReturns ++ ['\n'] := by
      rw [hAgain, Text.dropReturns_append
        (fun h => absurd h (hLast '\r' rfl))]
      rfl

/-
  So it has the same lines, if no line of the style sheet
  ends with two carriage returns.
-/
theorem lines_prettify_indented
    {sheet page : Text}
    (hPage : (prettify sheet).trimEnd isSpace = page)
    (hContents :
      ∀ segment ∈ contents sheet, '\n' ∉ segment.source)
    (hReturns : ¬ "\r\r\n".toList <:+: sheet)
    (depth : Nat)
    {lead tail : Text}
    (hLead : lead.all isBlank = true)
    (hTail : tail.all isBlank = true) :
    Text.lines
        ((prettify
          (lead ++
            (Text.lines page).flatMap (Text.indented depth) ++
            tail)).trimEnd isSpace) =
      Text.lines page := by
  by_cases hNil : page = []
  · have hStart :=
      @prettify_start (lead ++ tail) [] []
        (by rw [List.all_append, hLead, hTail]; rfl) rfl
    rw [List.append_nil] at hStart
    rw [hNil, Text.lines, List.flatMap_nil, List.append_nil,
      hStart]
    rfl
  · have hEnds : page.getLast?.all (!isSpace ·) = true :=
      hPage ▸ Text.trimEnd_ends isSpace (prettify sheet)
    have hSingles : ¬ "\r\r\n".toList <:+: page := by
      rcases Text.exists_trimEnd_append isSpace
        (prettify sheet) with ⟨w, _, hSplit⟩
      rw [hPage] at hSplit
      intro hInfix
      apply not_infix_prettify hReturns
      rw [hSplit]
      exact hInfix.trans (List.prefix_append page w).isInfix
    rw [prettify_indented hPage hNil hContents depth hLead
      hTail, Text.trimEnd_append rfl
      (by rw [Text.getLast?_dropReturns]; exact hEnds),
      Text.lines_dropReturns hSingles]

end Stylesheet

end WebTidy
