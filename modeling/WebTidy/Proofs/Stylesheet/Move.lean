import WebTidy.Proofs.Stylesheet.Settled

/-
  Moves of the style sheet scanner.

  A move reads the blanks in front of a character of code,
  a closed comment or a closed string, and that segment,
  and leads from one settled scanner to the next.  What it
  writes behind the final part begins with blanks and ends
  with the segment, with one exception: the semicolon that
  a value lacks in front of a close brace.

  Key definitions include:
    * `WebTidy.Stylesheet.Scanner.lead`
    * `WebTidy.Stylesheet.Scanner.lay`
    * `WebTidy.Stylesheet.Scanner.Move`

  Key theorems include:
    * `WebTidy.Stylesheet.Scanner.Move.readCode_eq`
    * `WebTidy.Stylesheet.Scanner.Move.run_eq`
    * `WebTidy.Stylesheet.Scanner.Move.core_eq_and_settled`
    * `WebTidy.Stylesheet.Scanner.Move.text_eq`
    * `WebTidy.Stylesheet.Scanner.exists_move`
-/

------------------------------------------------------------
-- Moves
------------------------------------------------------------

namespace WebTidy

namespace Stylesheet

/- Characters of code that no rule of their own applies to. -/
def isPlain
    (c : Char) :
    Bool :=
  !isBlank c && !isMark c && c != '{' && c != '}' &&
    c != ';' && c != ','

namespace Scanner

/- A scanner that skips no more blanks. -/
@[simps]
def attend
    (s : Scanner) :
    Scanner :=
  { s with skipping := false }

/- The blanks kept in front of a segment, indentation too. -/
def lead
    (s : Scanner)
    (blanks : Text) :
    Text :=
  s.gap blanks ++
    if (s.gap blanks).getLast? = some '\n' then s.tabs
    else []

/- The blanks in front of a comment. -/
def commentLead
    (s : Scanner) :
    Text :=
  if s.final? = none then [] else '\n' :: s.tabs

/- The end of a block on a line of its own. -/
def closing
    (s : Scanner) :
    Text :=
  '\n' :: List.replicate (s.depth - 1) '\t' ++ ['}']

/-
  A scanner after a text behind the final part, and blanks
  behind that text.
-/
@[simps]
def lay
    (s : Scanner)
    (text tail : Text) :
    Scanner :=
  { s with
    written := tail.reverse ++ (text.reverse ++ s.core)
    before := text.getLast?
    skipping := false }

/- A scanner at the end of a block. -/
def leave
    (s : Scanner)
    (text rest : Text) :
    Scanner :=
  { s.lay text (if rest.all isBlank then [] else ['\n']) with
    skipping := true
    depth := s.depth - 1
    inBlock := false
    inValue := false
    parens := none }

/-
  What a settled scanner does with the blanks and the
  segment in front of it.  The indices are the segment, the
  text behind the final part of the output, and the settled
  scanner after the segment.
-/
inductive Move
    (s : Scanner)
    (blanks rest : Text) :
    Text → Text → Scanner → Prop
| plain
    (c : Char)
    (hPlain : isPlain c = true)
    (hComment : ¬ (c = '/' ∧ rest.head? = some '*'))
    (hColon : c ≠ ':')
    (hValue : s.inValue = false) :
    Move s blanks rest [c] (s.lead blanks ++ [c])
      { s.lay (s.lead blanks ++ [c]) [] with
        inGroup := (s.trackGroup c).inGroup }
| word
    (c : Char)
    (hPlain : isPlain c = true)
    (hComment : ¬ (c = '/' ∧ rest.head? = some '*'))
    (hClose : c ≠ ')')
    (hValue : s.inValue = true)
    (hOperator :
      (s.trackCalc c rest).parens.isSome = true →
      isOperator c = true →
        ¬ (c = '-' ∧ rest.head? = some '-') ∧
        (s.isSign c = true ∨
          (s.pass blanks).isHyphen c rest = true)) :
    Move s blanks rest [c] (s.lead blanks ++ [c])
      { s.lay (s.lead blanks ++ [c]) [] with
        parens := (s.trackCalc c rest).parens }
| closeParen
    (hValue : s.inValue = true) :
    Move s blanks rest [')'] [')']
      { s.lay [')'] [] with
        inGroup := false
        parens := (s.trackCalc ')' rest).parens }
| operator
    (c : Char)
    (hComment : ¬ (c = '/' ∧ rest.head? = some '*'))
    (hValue : s.inValue = true)
    (hParens : s.parens.isSome = true)
    (hOperator : isOperator c = true)
    (hDash : ¬ (c = '-' ∧ rest.head? = some '-'))
    (hSign : s.isSign c = false)
    (hHyphen : (s.pass blanks).isHyphen c rest = false) :
    Move s blanks rest [c] [' ', c]
      { s.lay [' ', c] [' '] with skipping := true }
| dash
    (hValue : s.inValue = true)
    (hParens : s.parens.isSome = true)
    (hDash : rest.head? = some '-') :
    Move s blanks rest ['-'] (s.lead blanks ++ ['-'])
      { s.lay (s.lead blanks ++ ['-']) [] with
        context := .dash }
| openBlock :
    Move s blanks rest ['{'] [' ', '{']
      { s.lay [' ', '{'] ['\n'] with
        skipping := true
        depth := s.depth + 1
        inBlock := true
        inValue := false
        inGroup := false
        parens := none }
| closeBlock
    (hValue : s.inValue = false) :
    Move s blanks rest ['}'] s.closing
      (s.leave s.closing rest)
| closeValue
    (hValue : s.inValue = true) :
    Move s blanks rest ['}'] (';' :: s.closing)
      (s.leave (';' :: s.closing) rest)
| semicolon
    (hFinal : s.final? ≠ some ';') :
    Move s blanks rest [';'] [';']
      { s.lay [';'] ['\n'] with
        skipping := true
        inValue := false
        parens := none }
| comma :
    Move s blanks rest [','] [',']
      { s.lay [','] [' '] with skipping := true }
| selectorColon
    (hValue : s.inValue = false)
    (hSelector :
      s.inGroup = true ∨ selectorAhead rest = true) :
    Move s blanks rest [':'] [':']
      { s.lay [':'] [] with skipping := true }
| valueColon
    (hValue : s.inValue = false)
    (hSelector :
      ¬ (s.inGroup = true ∨ selectorAhead rest = true)) :
    Move s blanks rest [':'] [':']
      { s.lay [':'] [' '] with
        skipping := true
        inValue := true }
| comment
    (k : Text)
    (hComment : IsComment k) :
    Move s blanks rest k (s.commentLead ++ k)
      (s.lay (s.commentLead ++ k) [])
| string
    (k : Text)
    (hString : IsString k) :
    Move s blanks rest k (s.lead blanks ++ k)
      (s.lay (s.lead blanks ++ k) [])

end Scanner

end Stylesheet

end WebTidy

------------------------------------------------------------
-- Reading After Blanks
------------------------------------------------------------

namespace WebTidy

namespace Stylesheet

/- A run of blanks up to a line feed consists of blanks. -/
theorem all_throughLine
    {t : Text}
    (h : t.all isBlank = true) :
    (throughLine t).all isBlank = true := by
  induction t with
  | nil => rfl
  | cons c rest ih =>
      simp only [List.all_cons, Bool.and_eq_true] at h
      rw [throughLine]
      split
      · simpa using h.1
      · simpa using ⟨h.1, List.all_eq_true.mp (ih h.2)⟩

namespace Scanner

/- The trail after blanks consists of blanks. -/
theorem all_gap
    (s : Scanner)
    {blanks : Text}
    (hBlanks : blanks.all isBlank = true) :
    (s.gap blanks).all isBlank = true := by
  unfold gap
  split
  · exact s.all_trail
  · split
    · split <;> rfl
    · split
      · rfl
      · exact all_throughLine hBlanks

/- The final part is the same after blanks. -/
theorem core_pass
    (s : Scanner)
    {blanks : Text}
    (hBlanks : blanks.all isBlank = true) :
    (s.pass blanks).core = s.core := by
  have hHead : s.core.head?.all (!isBlank ·) = true := by
    cases hFinal : s.core.head? with
    | none => rfl
    | some c => simp [isBlank_of_final? hFinal]
  exact
    (core_eq_and_trail_eq rfl (s.all_gap hBlanks) hHead).1

/-
  A character that is written after blanks of code stands
  behind the blanks that stay and their indentation.
-/
theorem put_after
    (s : Scanner)
    (blanks : Text)
    (c : Char)
    {t : Scanner}
    (hWritten : t.written = (s.pass blanks).written)
    (hDepth : t.depth = s.depth) :
    t.put c =
      { t with
        written :=
          c :: ((s.lead blanks).reverse ++ s.core) } := by
  have hLast :
      t.last? = some '\n' ↔
        (s.gap blanks).getLast? = some '\n' := by
    rw [last?, hWritten, ← last?, last?_pass]
    cases hGap : (s.gap blanks).getLast? with
    | some d => simp
    | none =>
        simp only [Option.none_or, reduceCtorEq, iff_false]
        intro hFinal
        cases isBlank_of_final? hFinal
  unfold put lead
  by_cases hLine : (s.gap blanks).getLast? = some '\n'
  · rw [if_pos (hLast.mpr hLine), if_pos hLine]
    simp [write, hWritten, pass, tabs, hDepth]
  · rw [if_neg (mt hLast.mp hLine), if_neg hLine]
    simp [write, hWritten, pass]

/- A plain character is read as one. -/
theorem readCode_plain
    (s : Scanner)
    {c : Char}
    {rest : Text}
    (hPlain : isPlain c = true)
    (hComment : ¬ (c = '/' ∧ rest.head? = some '*'))
    (hColon : ¬ (c = ':' ∧ s.inValue = false)) :
    s.readCode c rest =
      (s.trackGroup c).attend.readPlain c rest := by
  have hValue : (s.trackGroup c).inValue = s.inValue := by
    unfold trackGroup
    split
    · rfl
    · split <;> rfl
  simp [isPlain, isMark] at hPlain
  simp only [readCode, hValue]
  simp [hPlain, hComment, hColon, attend, hValue]

/- Inside values, plain characters do not touch a group. -/
theorem readCode_value
    {s : Scanner}
    {c : Char}
    {rest : Text}
    (hPlain : isPlain c = true)
    (hComment : ¬ (c = '/' ∧ rest.head? = some '*'))
    (hClose : c ≠ ')')
    (hValue : s.inValue = true) :
    s.readCode c rest = s.attend.readValue c rest := by
  have hTrack : s.trackGroup c = s := by
    simp [trackGroup, hValue, hClose]
  rw [readCode_plain s hPlain hComment (by simp [hValue]),
    hTrack, readPlain]
  exact if_pos hValue

/- Following a group changes nothing else. -/
theorem trackGroup_eq
    (s : Scanner)
    (c : Char) :
    s.trackGroup c =
      { s with inGroup := (s.trackGroup c).inGroup } := by
  unfold trackGroup
  split
  · rfl
  · split <;> rfl

/- Blanks do not matter for a group. -/
theorem inGroup_trackGroup_pass
    (s : Scanner)
    (blanks : Text)
    (c : Char) :
    ((s.pass blanks).trackGroup c).inGroup =
      (s.trackGroup c).inGroup := by
  unfold trackGroup
  rw [pass_inBlock, pass_inValue]
  split
  · rfl
  · split <;> rfl

/- Blanks do not matter for a sign. -/
theorem isSign_after
    (s : Scanner)
    {blanks : Text}
    (hBlanks : blanks.all isBlank = true)
    (c : Char)
    {t : Scanner}
    (hWritten : t.written = (s.pass blanks).written) :
    t.isSign c = s.isSign c := by
  have hCore : t.core = s.core := by
    rw [core, hWritten]
    exact core_pass s hBlanks
  simp only [isSign, last?_trimmed, final?, hCore]

/- Operators do not touch the count of parentheses. -/
theorem trackCalc_operator
    (s : Scanner)
    {c : Char}
    (rest : Text)
    (hc : isOperator c = true) :
    s.trackCalc c rest = s := by
  simp only [isOperator, decide_eq_true_eq] at hc
  rcases hc with rfl | rfl | rfl | rfl <;>
    exact trackCalc_eq_self _ _ (by decide) (by decide)
      (by decide)

/- A character of a value that is written as it is. -/
theorem readValue_put
    {s : Scanner}
    {c : Char}
    {rest : Text}
    (hBlank : isBlank c = false)
    (hClose : c ≠ ')')
    (hOperator :
      (s.trackCalc c rest).parens.isSome = true →
      isOperator c = true →
        ¬ (c = '-' ∧ rest.head? = some '-') ∧
        (s.isSign c = true ∨ s.isHyphen c rest = true)) :
    s.readValue c rest = (s.trackCalc c rest).put c := by
  have hSign :
      (s.trackCalc c rest).isSign c = s.isSign c := rfl
  have hHyphen :
      (s.trackCalc c rest).isHyphen c rest =
        s.isHyphen c rest := rfl
  rw [readValue]
  by_cases hActive :
      (s.trackCalc c rest).parens.isSome = true ∧
        isOperator c = true
  · rcases hOperator hActive.1 hActive.2 with
      ⟨hDash, hKept⟩
    rw [if_pos hActive, readOperator, if_neg hDash, hSign,
      hHyphen, if_pos hKept]
  · rw [if_neg hActive, hBlank]
    exact if_neg hClose

/- An operator of a calc expression. -/
theorem readValue_operator
    {s : Scanner}
    {c : Char}
    {rest : Text}
    (hParens : s.parens.isSome = true)
    (hOperator : isOperator c = true)
    (hDash : ¬ (c = '-' ∧ rest.head? = some '-'))
    (hSign : s.isSign c = false)
    (hHyphen : s.isHyphen c rest = false) :
    s.readValue c rest =
      { s.trimmed.write [' ', c, ' '] with
        skipping := true } := by
  rw [readValue, trackCalc_operator s rest hOperator,
    if_pos ⟨hParens, hOperator⟩, readOperator,
    if_neg hDash, hSign, hHyphen]
  simp

/- The first of two dashes in a calc expression. -/
theorem readValue_dash
    {s : Scanner}
    {rest : Text}
    (hParens : s.parens.isSome = true)
    (hDash : rest.head? = some '-') :
    s.readValue '-' rest =
      { s.write ['-'] with context := .dash } := by
  rw [readValue, trackCalc_operator s rest rfl,
    if_pos ⟨hParens, rfl⟩, readOperator,
    if_pos ⟨rfl, hDash⟩]

/- The end of a block ends with its brace. -/
@[simp] theorem reverse_closing
    (s : Scanner) :
    s.closing.reverse =
      '}' :: (List.replicate (s.depth - 1) '\t' ++
        ['\n']) := by
  simp [closing]

/- The last character of the end of a block. -/
@[simp] theorem getLast?_closing
    (s : Scanner) :
    s.closing.getLast? = some '}' := by
  rw [← List.head?_reverse, reverse_closing]
  rfl

end Scanner

end Stylesheet

end WebTidy

------------------------------------------------------------
-- Moves Are What The Scanner Does
------------------------------------------------------------

namespace WebTidy

namespace Stylesheet

namespace Scanner

/- A character but a blank, read after blanks of code. -/
theorem run_char
    {s t : Scanner}
    {blanks rest : Text}
    {c : Char}
    (hs : Settled s)
    (hCode : s.context = .code)
    (hBlanks : blanks.all isBlank = true)
    (hc : isBlank c = false)
    (ht :
      { (s.pass blanks).readCode c rest with
        before := some c } = t) :
    run s (blanks ++ [c] ++ rest) = run t rest := by
  have hPass : (s.pass blanks).context = .code := hCode
  rw [List.append_assoc, run_blanks hs hCode hBlanks,
    List.singleton_append, run, step, read, hPass, ← ht]
  simp [hc]

/- Copying behind a text. -/
theorem copied_lay
    (s : Scanner)
    (text t : Text)
    (first second : Context) :
    { s.lay text [] with context := first }.copied t second =
      { s.lay (text ++ t) [] with context := second } := by
  simp [copied, lay, List.getLast?_append]

/- The slash of a comment begins a line of its own. -/
theorem readCode_slash
    (s : Scanner)
    {blanks : Text}
    (hBlanks : blanks.all isBlank = true)
    (t : Text) :
    { (s.pass blanks).readCode '/' ('*' :: t) with
      before := some '/' } =
      { s.lay (s.commentLead ++ ['/']) [] with
        context := .opening } := by
  have hCore :
      (s.pass blanks).written.dropWhile isBlank = s.core :=
    core_pass s hBlanks
  by_cases hFinal : s.core.head? = none
  · simp [readCode, trackGroup, openComment, trimmed,
      hCore, last?, write, commentLead, final?, hFinal]
  · simp [readCode, trackGroup, openComment, trimmed,
      hCore, last?, write, commentLead, final?, hFinal,
      tabs, List.getLast?_cons]

/- The mark of a string stands behind the blanks that stay. -/
theorem readCode_mark
    (s : Scanner)
    (blanks : Text)
    {mark : Char}
    (hMark : isMark mark = true)
    (t : Text) :
    { (s.pass blanks).readCode mark t with
      before := some mark } =
      { s.lay (s.lead blanks ++ [mark]) [] with
        context := .quoted mark false } := by
  simp only [isMark, decide_eq_true_eq] at hMark
  rcases hMark with rfl | rfl <;>
    simp [readCode, trackGroup, put_after s blanks]

/- A comment begins on a line of its own. -/
theorem run_commentStart
    {s : Scanner}
    {blanks : Text}
    (hs : Settled s)
    (hCode : s.context = .code)
    (hBlanks : blanks.all isBlank = true)
    (t : Text) :
    run s (blanks ++ '/' :: '*' :: t) =
      run
        { s.lay (s.commentLead ++ ['/', '*']) [] with
          context := .comment false } t := by
  have hOpen :
      run s (blanks ++ ['/'] ++ '*' :: t) =
        run
          { s.lay (s.commentLead ++ ['/']) [] with
            context := .opening } ('*' :: t) :=
    run_char hs hCode hBlanks rfl
      (readCode_slash s hBlanks t)
  rw [List.append_assoc] at hOpen
  rw [List.singleton_append] at hOpen
  rw [hOpen, run]
  have hStep :
      { s.lay (s.commentLead ++ ['/']) [] with
        context := .opening }.step '*' t =
        { s.lay (s.commentLead ++ ['/']) [] with
          context := .opening }.copied ['*']
            (.comment false) := by
    rfl
  rw [hStep, copied_lay, List.append_assoc]
  rfl

/- A string begins behind the blanks that stay. -/
theorem run_stringStart
    {s : Scanner}
    {blanks : Text}
    {mark : Char}
    (hs : Settled s)
    (hCode : s.context = .code)
    (hBlanks : blanks.all isBlank = true)
    (hMark : isMark mark = true)
    (t : Text) :
    run s (blanks ++ mark :: t) =
      run
        { s.lay (s.lead blanks ++ [mark]) [] with
          context := .quoted mark false } t := by
  rw [← List.singleton_append, ← List.append_assoc]
  exact run_char hs hCode hBlanks
    (isBlank_and_ne_of_isMark hMark).1
    (readCode_mark s blanks hMark t)

/- A plain character is no blank. -/
theorem isBlank_of_isPlain
    {c : Char}
    (h : isPlain c = true) :
    isBlank c = false := by
  cases hBlank : isBlank c with
  | true => simp [isPlain, hBlank] at h
  | false => rfl

/- Inside values the blanks that stay end no line. -/
theorem lead_value
    {s : Scanner}
    (hs : Settled s)
    (hValue : s.inValue = true)
    (blanks : Text) :
    s.lead blanks = s.gap blanks := by
  have hLine : (s.gap blanks).getLast? ≠ some '\n' := by
    unfold gap
    split
    · exact (hs.value hValue).2
    · split <;> simp
  rw [lead, if_neg hLine, List.append_nil]

/-
  A move is what the scanner does.  A character of code is
  read behind the blanks that are passed.
-/
theorem Move.readCode_eq
    {s t : Scanner}
    {blanks rest text : Text}
    {c : Char}
    (hs : Settled s)
    (hBlanks : blanks.all isBlank = true)
    (h : Move s blanks rest [c] text t) :
    { (s.pass blanks).readCode c rest with
      before := some c } = t := by
  have hCore :
      (s.pass blanks).written.dropWhile isBlank = s.core :=
    core_pass s hBlanks
  cases h with
  | plain c hPlain hComment hColon hValue =>
      have hBlank := isBlank_of_isPlain hPlain
      rw [readCode_plain _ hPlain hComment
          (by simp [hColon]),
        trackGroup_eq, inGroup_trackGroup_pass]
      simp [readPlain, hValue, hBlank, put_after s blanks]
  | word c hPlain hComment hClose hValue hOperator =>
      have hBlank := isBlank_of_isPlain hPlain
      have hPass : (s.pass blanks).inValue = true := hValue
      have hRead :
          (s.pass blanks).readCode c rest =
            ((s.pass blanks).attend.trackCalc c rest).put
              c := by
        rw [readCode_value hPlain hComment hClose hPass]
        apply readValue_put hBlank hClose
        rw [isSign_after s hBlanks c
          (t := (s.pass blanks).attend) rfl]
        exact hOperator
      rw [hRead]
      simp [trackCalc, put_after s blanks]
  | closeParen hValue =>
      have hRead :
          (s.pass blanks).readCode ')' rest =
            ({ (s.pass blanks).attend with
              inGroup := false }.trackCalc ')'
                rest).trimmed.put ')' := by
        simp [readCode, trackGroup, readPlain, readValue,
          hValue, isOperator, isBlank]
      have hLast : s.core.head? ≠ some '\n' := by
        intro hLine
        cases isBlank_of_final? hLine
      rw [hRead]
      simp [put, last?, trimmed, trackCalc, hCore, hLast,
        write]
  | operator c hComment hValue hParens hOperator hDash hSign
      hHyphen =>
      have hPass : (s.pass blanks).inValue = true := hValue
      have hPlain : isPlain c = true ∧ c ≠ ')' := by
        simp only [isOperator, decide_eq_true_eq]
          at hOperator
        rcases hOperator with rfl | rfl | rfl | rfl <;>
          decide
      have hRead :
          (s.pass blanks).readCode c rest =
            { (s.pass blanks).attend.trimmed.write
                [' ', c, ' '] with skipping := true } := by
        rw [readCode_value hPlain.1 hComment hPlain.2 hPass]
        refine readValue_operator
          (s := (s.pass blanks).attend)
          hParens hOperator hDash ?_ hHyphen
        rw [isSign_after s hBlanks c
          (t := (s.pass blanks).attend) rfl]
        exact hSign
      rw [hRead]
      simp [trimmed, hCore, write]
  | dash hValue hParens hDash =>
      have hPass : (s.pass blanks).inValue = true := hValue
      have hRead :
          (s.pass blanks).readCode '-' rest =
            { (s.pass blanks).attend.write ['-'] with
              context := .dash } := by
        rw [readCode_value rfl (by simp) (by decide) hPass]
        exact readValue_dash
          (s := (s.pass blanks).attend) hParens hDash
      rw [hRead, lead_value hs hValue]
      simp [write, pass]
  | openBlock =>
      simp [readCode, Scanner.openBlock, trackGroup,
        trimmed, hCore, write]
  | closeBlock hValue =>
      simp only [readCode, Scanner.closeBlock, trackGroup,
        leave]
      generalize rest.all isBlank = blank
      cases blank <;>
        simp [trimmed, hCore, hValue, last?, write, tabs]
  | closeValue hValue =>
      have hFinal : s.core.head? ≠ none :=
        (hs.value hValue).1
      have hEnded : s.core.head? ≠ some ';' :=
        hs.final?_ne_semicolon hValue
      simp only [readCode, Scanner.closeBlock, trackGroup,
        leave]
      generalize rest.all isBlank = blank
      cases blank <;>
        simp [trimmed, hCore, hValue, last?, write, tabs,
          terminate, hFinal, hEnded, List.getLast?_cons]
  | semicolon hFinal =>
      have hLast : s.core.head? ≠ some ';' := hFinal
      simp [readCode, endDeclaration, trackGroup, trimmed,
        hCore, terminate, last?, write, hLast]
  | comma =>
      simp [readCode, readComma, trackGroup, trimmed, hCore,
        write]
  | selectorColon hValue hSelector =>
      simp [readCode, readColon, trackGroup, trimmed, hCore,
        write, hValue, hSelector]
  | valueColon hValue hSelector =>
      simp [readCode, readColon, trackGroup, trimmed, hCore,
        write, hValue, hSelector]
  | comment k hComment =>
      rcases exists_of_commentLength? hComment with
        ⟨body, m, hText, _, _⟩
      cases hText
  | string k hString =>
      rcases exists_of_stringLength? hString with
        ⟨mark, body, m, hText, _, hEnd, hLength⟩
      cases hText
      cases hEnd

/-
  The segment of a move is a character of code, or it is a
  comment or string that is written as it is.
-/
theorem Move.segment_cases
    {s t : Scanner}
    {blanks rest k text : Text}
    (h : Move s blanks rest k text t) :
    (∃ c, k = [c] ∧ isBlank c = false) ∨
    (IsComment k ∧ t = s.lay (s.commentLead ++ k) []) ∨
    (IsString k ∧ t = s.lay (s.lead blanks ++ k) []) := by
  cases h with
  | plain c hPlain | word c hPlain =>
      exact Or.inl ⟨c, rfl, isBlank_of_isPlain hPlain⟩
  | operator c hComment hValue hParens hOperator =>
      simp only [isOperator, decide_eq_true_eq] at hOperator
      rcases hOperator with rfl | rfl | rfl | rfl <;>
        exact Or.inl ⟨_, rfl, rfl⟩
  | comment k hComment =>
      exact Or.inr (Or.inl ⟨hComment, rfl⟩)
  | string k hString =>
      exact Or.inr (Or.inr ⟨hString, rfl⟩)
  | _ => exact Or.inl ⟨_, rfl, rfl⟩

/-
  Reading the blanks and the segment of a move leads to the
  scanner that the move names.
-/
theorem Move.run_eq
    {s t : Scanner}
    {blanks rest k text : Text}
    (hs : Settled s)
    (hCode : s.context = .code)
    (hBlanks : blanks.all isBlank = true)
    (h : Move s blanks rest k text t) :
    run s (blanks ++ k ++ rest) = run t rest := by
  rcases h.segment_cases with
    ⟨c, rfl, hBlank⟩ | ⟨hComment, rfl⟩ | ⟨hString, rfl⟩
  · exact run_char hs hCode hBlanks hBlank
      (h.readCode_eq hs hBlanks)
  · rcases exists_of_commentLength? hComment with
      ⟨body, m, rfl, hEnd, hLength⟩
    have hBody : body.length = m + 2 := by
      simp only [List.length_cons] at hLength
      omega
    rw [List.append_assoc, List.cons_append,
      List.cons_append, run_commentStart hs hCode hBlanks,
      run_comment rfl (by simp)
        (Text.indexOf?_append rest hEnd),
      copied_lay, ← hBody]
    simp [lay, hCode]
  · rcases exists_of_stringLength? hString with
      ⟨mark, body, m, rfl, hMark, hEnd, hLength⟩
    have hBody : body.length = m := by
      simp only [List.length_cons] at hLength
      omega
    rw [List.append_assoc, List.cons_append,
      run_stringStart hs hCode hBlanks hMark,
      run_quoted rfl (quotedLength?_append rest hEnd),
      copied_lay, ← hBody]
    simp [lay, hCode]

end Scanner

end Stylesheet

end WebTidy

------------------------------------------------------------
-- Moves Lead To Settled Scanners
------------------------------------------------------------

namespace WebTidy

namespace Stylesheet

namespace Scanner

/- The end of a block leads to a settled scanner. -/
theorem settled_leave
    (s : Scanner)
    {text : Text}
    (rest : Text)
    (hLast : text.getLast? = some '}') :
    (s.leave text rest).core = text.reverse ++ s.core ∧
      Settled (s.leave text rest) := by
  rcases List.getLast?_eq_some_iff.mp hLast with
    ⟨front, rfl⟩
  rw [List.reverse_concat]
  apply settled_of_loose
      (if rest.all isBlank then [] else ['\n'])
  · rw [leave, lay_written, List.reverse_concat]
    rfl
  · exact hLast
  · rfl
  · decide
  · split <;> rfl
  · simp
  · intro hValue
    cases hValue
  · intro h
    cases h

/-
  A move writes its text behind the final part and leads to
  a settled scanner.
-/
theorem Move.core_eq_and_settled
    {s t : Scanner}
    {blanks rest k text : Text}
    (hCode : s.context = .code)
    (h : Move s blanks rest k text t) :
    t.core = text.reverse ++ s.core ∧ Settled t := by
  cases h with
  | plain c hPlain hComment hColon hValue =>
      rw [List.reverse_concat]
      apply settled_of_tight
      · simp
      · simp
      · rfl
      · exact isBlank_of_isPlain hPlain
      · rintro rfl
        cases hPlain
  | word c hPlain hComment hClose hValue hOperator =>
      rw [List.reverse_concat]
      apply settled_of_tight
      · simp
      · simp
      · rfl
      · exact isBlank_of_isPlain hPlain
      · rintro rfl
        cases hPlain
  | closeParen hValue =>
      exact settled_of_tight rfl rfl rfl rfl (by decide)
  | operator c hComment hValue hParens hOperator hDash hSign
      hHyphen =>
      have hJoint : isBlank c = false ∧ isJoint c = true := by
        simp only [isOperator, decide_eq_true_eq]
          at hOperator
        rcases hOperator with rfl | rfl | rfl | rfl <;>
          decide
      apply settled_of_loose [' '] rfl rfl rfl hJoint rfl
      · simp
      · simp
      · rintro rfl
        cases hOperator
  | dash hValue hParens hDash =>
      rw [List.reverse_concat]
      apply settled_of_tight
      · simp
      · simp
      · rfl
      · rfl
      · decide
  | openBlock =>
      apply settled_of_loose ['\n'] rfl rfl rfl (by decide)
        rfl
      · simp
      · simp
      · simp
  | closeBlock hValue =>
      exact settled_leave s rest (by simp)
  | closeValue hValue =>
      exact settled_leave s rest
        (by simp [List.getLast?_cons])
  | semicolon hFinal =>
      apply settled_of_loose ['\n'] rfl rfl rfl (by decide)
        rfl
      · simp
      · simp
      · simp [hCode]
  | comma =>
      apply settled_of_loose [' '] rfl rfl rfl (by decide)
        rfl
      · simp
      · simp
      · simp
  | selectorColon hValue hSelector =>
      apply settled_of_loose [] rfl rfl rfl (by decide) rfl
      · simp
      · simp
      · simp
  | valueColon hValue hSelector =>
      apply settled_of_loose [' '] rfl rfl rfl (by decide)
        rfl
      · simp
      · simp
      · simp
  | comment k hComment =>
      rcases hComment.eq_append with ⟨front, rfl⟩
      rw [← List.append_assoc, List.reverse_concat]
      apply settled_of_tight
      · simp
      · simp
      · rfl
      · rfl
      · decide
  | string k hString =>
      rcases hString.eq_append with
        ⟨front, mark, rfl, hMark⟩
      have hPlain := isBlank_and_ne_of_isMark hMark
      rw [← List.append_assoc, List.reverse_concat]
      apply settled_of_tight
      · simp
      · simp
      · rfl
      · exact hPlain.1
      · exact hPlain.2

end Scanner

end Stylesheet

end WebTidy

------------------------------------------------------------
-- What A Move Writes
------------------------------------------------------------

namespace WebTidy

namespace Stylesheet

namespace Scanner

/- The blanks kept in front of a segment are blanks. -/
theorem all_lead
    (s : Scanner)
    {blanks : Text}
    (hBlanks : blanks.all isBlank = true) :
    (s.lead blanks).all isBlank = true := by
  unfold lead
  rw [List.all_append, s.all_gap hBlanks, Bool.true_and]
  split
  · simp [tabs, isBlank]
  · rfl

/- So are those in front of a comment. -/
theorem all_commentLead
    (s : Scanner) :
    s.commentLead.all isBlank = true := by
  unfold commentLead
  split
  · rfl
  · simp [tabs, isBlank]

/-
  The text of a move is its segment behind blanks, but for
  the semicolon that ends a value.
-/
theorem Move.text_eq
    {s t : Scanner}
    {blanks rest k text : Text}
    (hBlanks : blanks.all isBlank = true)
    (h : Move s blanks rest k text t) :
    (∃ front : Text,
      front.all isBlank = true ∧ text = front ++ k) ∨
    (s.inValue = true ∧ k = ['}'] ∧
      text = ';' :: s.closing) := by
  cases h with
  | plain | word | dash | string =>
      exact Or.inl ⟨_, s.all_lead hBlanks, rfl⟩
  | comment =>
      exact Or.inl ⟨_, s.all_commentLead, rfl⟩
  | closeParen | semicolon | comma | selectorColon
  | valueColon =>
      exact Or.inl ⟨[], rfl, rfl⟩
  | operator | openBlock => exact Or.inl ⟨[' '], rfl, rfl⟩
  | closeBlock =>
      refine Or.inl ⟨_, ?_, rfl⟩
      simp [isBlank]
  | closeValue hValue => exact Or.inr ⟨hValue, rfl, rfl⟩

/-
  A segment ends with a character but a blank, and with a
  semicolon only if it is one.
-/
theorem Move.exists_last
    {s t : Scanner}
    {blanks rest k text : Text}
    (h : Move s blanks rest k text t) :
    ∃ init c,
      k = init ++ [c] ∧ isBlank c = false ∧
      (c = ';' → init = []) := by
  cases h with
  | plain c hPlain | word c hPlain =>
      exact ⟨[], c, rfl, isBlank_of_isPlain hPlain,
        fun _ => rfl⟩
  | operator c hComment hValue hParens hOperator =>
      refine ⟨[], c, rfl, ?_, fun _ => rfl⟩
      simp only [isOperator, decide_eq_true_eq] at hOperator
      rcases hOperator with rfl | rfl | rfl | rfl <;> rfl
  | comment k hComment =>
      rcases hComment.eq_append with ⟨front, rfl⟩
      exact ⟨front, '/', rfl, rfl, by simp⟩
  | string k hString =>
      rcases hString.eq_append with
        ⟨front, mark, rfl, hMark⟩
      have hPlain := isBlank_and_ne_of_isMark hMark
      exact ⟨front, mark, rfl, hPlain.1,
        fun h => absurd h hPlain.2⟩
  | _ => exact ⟨[], _, rfl, rfl, fun _ => rfl⟩

/- The final part ends as the segment of a move ends. -/
theorem Move.final?_eq
    {s t : Scanner}
    {blanks rest k text : Text}
    (hCode : s.context = .code)
    (hBlanks : blanks.all isBlank = true)
    (h : Move s blanks rest k text t) :
    t.final? = k.getLast? := by
  rcases h.exists_last with ⟨init, c, rfl, _, _⟩
  rw [final?, (h.core_eq_and_settled hCode).1]
  rcases h.text_eq hBlanks with
    ⟨front, _, rfl⟩ | ⟨_, hBrace, rfl⟩
  · simp
  · rw [hBrace]
    simp

/- Only a semicolon leaves a semicolon at the end. -/
theorem Move.eq_semicolon
    {s t : Scanner}
    {blanks rest k text : Text}
    (hCode : s.context = .code)
    (hBlanks : blanks.all isBlank = true)
    (h : Move s blanks rest k text t)
    (hFinal : t.final? = some ';') :
    k = [';'] := by
  rcases h.exists_last with ⟨init, c, hk, _, hInit⟩
  rw [h.final?_eq hCode hBlanks, hk, List.getLast?_concat,
    Option.some_inj] at hFinal
  rw [hk, hInit hFinal, hFinal]
  rfl

end Scanner

end Stylesheet

end WebTidy

------------------------------------------------------------
-- Every Segment Makes A Move
------------------------------------------------------------

namespace WebTidy

namespace Stylesheet

namespace Scanner

/- Every plain character outside strings makes a move. -/
theorem exists_plain_move
    (s : Scanner)
    (blanks : Text)
    {c : Char}
    {rest : Text}
    (hPlain : isPlain c = true)
    (hComment : ¬ (c = '/' ∧ rest.head? = some '*')) :
    ∃ text t, Move s blanks rest [c] text t := by
  cases hValue : s.inValue with
  | false =>
      by_cases hColon : c = ':'
      · subst c
        by_cases hSelector :
            s.inGroup = true ∨ selectorAhead rest = true
        · exact ⟨_, _, .selectorColon hValue hSelector⟩
        · exact ⟨_, _, .valueColon hValue hSelector⟩
      · exact ⟨_, _, .plain c hPlain hComment hColon hValue⟩
  | true =>
      by_cases hClose : c = ')'
      · subst c
        exact ⟨_, _, .closeParen hValue⟩
      by_cases hActive :
          s.parens.isSome = true ∧ isOperator c = true
      · rcases hActive with ⟨hParens, hOperator⟩
        have hTrack := trackCalc_operator s rest hOperator
        by_cases hDash : c = '-' ∧ rest.head? = some '-'
        · rcases hDash with ⟨rfl, hDash⟩
          exact ⟨_, _, .dash hValue hParens hDash⟩
        cases hKept :
            s.isSign c || (s.pass blanks).isHyphen c rest with
        | true =>
            refine ⟨_, _, .word c hPlain hComment hClose hValue
              ?_⟩
            intro _ _
            exact ⟨hDash, by simpa using hKept⟩
        | false =>
            simp only [Bool.or_eq_false_iff] at hKept
            exact ⟨_, _, .operator c hComment hValue hParens
              hOperator hDash hKept.1 hKept.2⟩
      · refine ⟨_, _, .word c hPlain hComment hClose hValue ?_⟩
        intro hParens hOperator
        rw [trackCalc_operator s rest hOperator] at hParens
        exact absurd ⟨hParens, hOperator⟩ hActive

/-
  Every character of code makes a move, alone or with the
  comment or string that it opens.  Left over are a repeated
  semicolon and comments and strings without an end.
-/
theorem exists_move
    (s : Scanner)
    (blanks : Text)
    {c : Char}
    {rest : Text}
    (hBlank : isBlank c = false)
    (hAgain : ¬ (c = ';' ∧ s.final? = some ';'))
    (hComment :
      "/*".toList <+: c :: rest →
        commentLength? (c :: rest) ≠ none)
    (hString :
      isMark c = true → stringLength? (c :: rest) ≠ none) :
    ∃ k tail text t,
      c :: rest = k ++ tail ∧ k ≠ [] ∧
      Move s blanks tail k text t := by
  by_cases hOpen : c = '/' ∧ rest.head? = some '*'
  · have hPrefix : "/*".toList <+: c :: rest := by
      rcases hOpen with ⟨rfl, hStar⟩
      rcases List.head?_eq_some_iff.mp hStar with ⟨body, rfl⟩
      exact ⟨body, rfl⟩
    rcases Option.ne_none_iff_exists'.mp
      (hComment hPrefix) with ⟨n, hn⟩
    have hTake := isComment_take hn
    refine ⟨(c :: rest).take n, (c :: rest).drop n, _, _,
      (List.take_append_drop n _).symm, ?_,
      .comment _ hTake.1⟩
    intro hNil
    rw [hNil] at hTake
    cases hTake.1
  by_cases hMark : isMark c = true
  · rcases Option.ne_none_iff_exists'.mp
      (hString hMark) with ⟨n, hn⟩
    have hTake := isString_take hn
    refine ⟨(c :: rest).take n, (c :: rest).drop n, _, _,
      (List.take_append_drop n _).symm, ?_,
      .string _ hTake.1⟩
    intro hNil
    rw [hNil] at hTake
    cases hTake.1
  have hSingle :
      ∃ text t, Move s blanks rest [c] text t := by
    by_cases hPlain : isPlain c = true
    · exact exists_plain_move s blanks hPlain hOpen
    have hSpecial : c = '{' ∨ c = '}' ∨ c = ';' ∨ c = ',' := by
      simp [isPlain, hBlank, hMark] at hPlain
      grind
    rcases hSpecial with rfl | rfl | rfl | rfl
    · exact ⟨_, _, .openBlock⟩
    · cases hValue : s.inValue with
      | false => exact ⟨_, _, .closeBlock hValue⟩
      | true => exact ⟨_, _, .closeValue hValue⟩
    · refine ⟨_, _, .semicolon ?_⟩
      intro hFinal
      exact hAgain ⟨rfl, hFinal⟩
    · exact ⟨_, _, .comma⟩
  rcases hSingle with ⟨text, t, hMove⟩
  exact ⟨[c], rest, text, t, rfl, by simp, hMove⟩

end Scanner

end Stylesheet

end WebTidy
