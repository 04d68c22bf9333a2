import WebTidy.Proofs.Stylesheet.Idempotence
import WebTidy.Proofs.Stylesheet.Returns

/-
  A laid out style sheet that is indented once more.

  The blanks behind a line feed of code are dropped, and so
  are the blanks at both ends of a style sheet.  So a layout
  whose lines are moved to the right is laid out as before,
  unless a line begins inside a comment or a string.  The
  white space at the end of a layout is not needed either.

  Key definitions include:
    * `WebTidy.Stylesheet.Scanner.atLine`
    * `WebTidy.Stylesheet.Loosened`

  Key theorems include:
    * `WebTidy.Stylesheet.prettify_line`
    * `WebTidy.Stylesheet.Loosened.prettify_eq`
    * `WebTidy.Stylesheet.prettify_append_blanks`
    * `WebTidy.Stylesheet.prettify_trimEnd_prettify`
-/

------------------------------------------------------------
-- Behind A Line Feed
------------------------------------------------------------

namespace WebTidy

namespace Stylesheet

namespace Scanner

/- A scanner of code to which more blanks mean nothing. -/
def atLine
    (s : Scanner) :
    Bool :=
  s.context = .code ∧
    (s.skipping ∨
      if s.inValue then !s.takesSpace else s.atLineStart)

/- A blank leaves such a scanner where it is. -/
theorem step_atLine
    {s : Scanner}
    {c : Char}
    (rest : Text)
    (hs : s.atLine = true)
    (hc : isBlank c = true) :
    s.step c rest = s.remember (some c) := by
  simp only [atLine, decide_eq_true_eq] at hs
  rcases hs with ⟨hCode, hLine⟩
  cases hSkip : s.skipping with
  | true =>
      have hBlanks : [c].all isBlank = true := by simp [hc]
      exact through_skipping rest hCode hSkip hBlanks
  | false =>
      simp only [hSkip, Bool.false_eq_true, false_or] at hLine
      cases hValue : s.inValue with
      | true =>
          have hSpaced : s.spaced = s := by
            rw [spaced, if_neg]
            rintro ⟨_, hSpace⟩
            simp [hValue, hSpace] at hLine
          rw [step_spaced rest
            (by simp [readsValue, hCode, hValue]) hc, hSpaced]
      | false =>
          rw [step_gap rest hCode hSkip hValue hc, if_pos]
          simpa [hValue] using hLine

/- Neither do more of them. -/
theorem through_atLine
    {s : Scanner}
    {blanks : Text}
    (rest : Text)
    (hs : s.atLine = true)
    (hBlanks : blanks.all isBlank = true) :
    s.through blanks rest =
      s.remember (blanks.getLast?.or s.before) := by
  induction blanks generalizing s with
  | nil => rfl
  | cons c more ih =>
      simp only [List.all_cons, Bool.and_eq_true] at hBlanks
      rw [through, step_atLine _ hs hBlanks.1,
        ih (s := s.remember (some c)) hs hBlanks.2]
      cases hLast : more.getLast? <;>
        simp [remember, List.getLast?_cons, hLast]

/- A line feed of code leads to such a scanner. -/
theorem atLine_step
    {s : Scanner}
    (rest : Text)
    (hCode : s.context = .code) :
    (s.step '\n' rest).atLine = true ∧
      (s.step '\n' rest).before = some '\n' := by
  refine ⟨?_, rfl⟩
  cases hSkip : s.skipping with
  | true =>
      have hStep :=
        @through_skipping s ['\n'] rest hCode hSkip rfl
      change s.step '\n' rest = _ at hStep
      rw [hStep]
      simp [atLine, remember, hCode, hSkip]
  | false =>
      cases hValue : s.inValue with
      | true =>
          rw [step_spaced rest
            (by simp [readsValue, hCode, hValue]) rfl, spaced]
          split
          · simp [atLine, remember, write, takesSpace, last?,
              hCode, hValue]
          · rename_i hSpace
            have hNone : s.takesSpace = false := by
              simpa [hSkip] using hSpace
            change s.atLine = true
            simp [atLine, hNone, hCode, hValue]
      | false =>
          rw [step_gap rest hCode hSkip hValue rfl]
          split
          · rename_i hStart
            change s.atLine = true
            simp [atLine, hStart, hCode, hValue]
          · simp [atLine, remember, write, atLineStart, last?,
              hCode, hValue]

/- A line feed does not look at what follows it. -/
theorem step_alike_line
    (s : Scanner)
    (t u : Text) :
    s.step '\n' t = s.step '\n' u := by
  rw [step, step, read, read]
  cases s.context with
  | code =>
      have hTrack (s : Scanner) (rest : Text) :
          s.trackCalc '\n' rest = s :=
        trackCalc_eq_self _ _ (by decide) (by decide)
          (by decide)
      simp only [readCode_blank s _ (rfl : isBlank '\n' = true),
        readPlain, readValue, hTrack, isOperator]
      rfl
  | _ => rfl

end Scanner

/- Blanks behind a line feed of code do not matter. -/
theorem prettify_line
    {front blanks others rest : Text}
    (hBlanks : blanks.all isBlank = true)
    (hOthers : others.all isBlank = true)
    (hCode :
      (scannerAt front ('\n' :: (blanks ++ rest))).context =
        .code) :
    prettify (front ++ '\n' :: (blanks ++ rest)) =
      prettify (front ++ '\n' :: (others ++ rest)) := by
  have hSelector :
      selectorAhead (blanks ++ rest) =
        selectorAhead (others ++ rest) := by
    rw [selectorAhead_blanks _ hBlanks,
      selectorAhead_blanks _ hOthers]
  have hAll :
      (blanks ++ rest).all isBlank =
        (others ++ rest).all isBlank := by
    rw [List.all_append, List.all_append, hBlanks, hOthers]
  have hAlike :
      Alike ('\n' :: (blanks ++ rest))
        ('\n' :: (others ++ rest)) :=
    @alike_append ['\n'] _ _ (by simp) rfl hSelector hAll
  have hFront :
      scannerAt front ('\n' :: (blanks ++ rest)) =
        scannerAt front ('\n' :: (others ++ rest)) :=
    Scanner.through_alike hAlike {} front
  rw [prettify_append, prettify_append, ← hFront]
  generalize scannerAt front ('\n' :: (blanks ++ rest)) = s
    at hCode
  have hStep :
      s.step '\n' (blanks ++ rest) =
        s.step '\n' (others ++ rest) :=
    Scanner.step_alike_line s _ _
  have hLine := Scanner.atLine_step (blanks ++ rest) hCode
  rw [Scanner.run, Scanner.run, ← hStep]
  generalize s.step '\n' (blanks ++ rest) = t at hLine
  rw [Scanner.run_append, Scanner.run_append,
    Scanner.through_atLine rest hLine.1 hBlanks,
    Scanner.through_atLine rest hLine.1 hOthers, hLine.2]
  exact Scanner.result_run_blanks t rest (some '\n') rfl
    hBlanks hOthers

/-
  A text with more blanks behind some of its line feeds.
-/
inductive Loosened :
    Text → Text → Prop
| nil :
    Loosened [] []
| char
    {s t : Text}
    (c : Char)
    (hRest : Loosened s t) :
    Loosened (c :: s) (c :: t)
| line
    {blanks s t : Text}
    (hBlanks : blanks.all isBlank = true)
    (hRest : Loosened s t) :
    Loosened ('\n' :: s) ('\n' :: (blanks ++ t))

/- More blanks are not looked at. -/
theorem Loosened.ahead_eq
    {s t : Text}
    (h : Loosened s t) :
    selectorAhead s = selectorAhead t ∧
      s.all isBlank = t.all isBlank := by
  induction h with
  | nil => exact ⟨rfl, rfl⟩
  | char c hRest ih =>
      refine ⟨selectorAhead_append_congr [c] ih.1, ?_⟩
      rw [List.all_cons, List.all_cons, ih.2]
  | line hBlanks hRest ih =>
      refine ⟨selectorAhead_append_congr ['\n'] ?_, ?_⟩
      · exact ih.1.trans (selectorAhead_blanks _ hBlanks).symm
      · rw [List.all_cons, List.all_cons, List.all_append,
          hBlanks, ih.2, Bool.true_and]

/-
  If all line feeds of a style sheet stand in code, more
  blanks behind them do not change the layout.
-/
theorem Loosened.prettify_eq
    {front s t : Text}
    (h : Loosened s t)
    (hLines :
      ∀ before after, front ++ s = before ++ '\n' :: after →
        (scannerAt before ('\n' :: after)).context = .code) :
    prettify (front ++ s) = prettify (front ++ t) := by
  induction h generalizing front with
  | nil => rfl
  | @char s t c hRest ih =>
      have hSplit (u : Text) :
          front ++ c :: u = (front ++ [c]) ++ u := by
        simp
      rw [hSplit s] at hLines
      rw [hSplit s, hSplit t]
      exact ih hLines
  | @line blanks s t hBlanks hRest ih =>
      have hSplit (u : Text) :
          front ++ '\n' :: u = (front ++ ['\n']) ++ u := by
        simp
      have hAlike : Alike ('\n' :: s) ('\n' :: t) :=
        @alike_append ['\n'] _ _ (by simp) rfl
          hRest.ahead_eq.1 hRest.ahead_eq.2
      have hCode :
          (scannerAt front ('\n' :: t)).context = .code := by
        rw [← hLines front s rfl]
        exact congrArg Scanner.context
          (Scanner.through_alike hAlike {} front).symm
      have hTight :
          prettify (front ++ '\n' :: s) =
            prettify (front ++ '\n' :: t) := by
        rw [hSplit s] at hLines
        rw [hSplit s, hSplit t]
        exact ih hLines
      rw [hTight]
      exact @prettify_line front [] blanks t rfl hBlanks hCode

end Stylesheet

end WebTidy

------------------------------------------------------------
-- White Space
------------------------------------------------------------

namespace WebTidy

/- White space has no letters. -/
theorem isAlpha_of_isSpace
    {c : Char}
    (h : isSpace c = true) :
    c.isAlpha = false ∧ c.toLower = c := by
  simp only [isSpace, spaceRanges, List.any_cons, List.any_nil,
    Bool.or_false, Bool.or_eq_true, Bool.and_eq_true,
    decide_eq_true_eq] at h
  have hVal : c.val.toNat = c.toNat := rfl
  have hUpper : ¬ (c.val ≥ 'A'.val ∧ c.val ≤ 'Z'.val) := by
    have hFirst : 'A'.val.toNat = 65 := rfl
    have hLast : 'Z'.val.toNat = 90 := rfl
    simp only [ge_iff_le, UInt32.le_iff_toNat_le, hVal, hFirst,
      hLast]
    omega
  have hLower : ¬ (c.val ≥ 'a'.val ∧ c.val ≤ 'z'.val) := by
    have hFirst : 'a'.val.toNat = 97 := rfl
    have hLast : 'z'.val.toNat = 122 := rfl
    simp only [ge_iff_le, UInt32.le_iff_toNat_le, hVal, hFirst,
      hLast]
    omega
  have hSmall : c.isLower = false := by
    have hBoth := decide_eq_false hLower
    rw [Bool.decide_and] at hBoth
    exact hBoth
  have hCapital : c.isUpper = false := decide_eq_false hUpper
  constructor
  · exact Bool.or_eq_false_iff.mpr ⟨hCapital, hSmall⟩
  · exact dif_neg hUpper

/- White space is none of the other characters. -/
theorem ne_of_isSpace
    {c d : Char}
    (hc : isSpace c = true)
    (hd : isSpace d = false) :
    c ≠ d := by
  rintro rfl
  rw [hc] at hd
  cases hd

namespace Stylesheet

namespace Scanner

/- The final part does not end with a blank. -/
theorem head?_core
    (s : Scanner) :
    s.core.head?.all (!isBlank ·) = true := by
  rw [Option.all_eq_true]
  intro c hc
  simp [isBlank_of_final? (s := s) hc]

/- White space is written behind the final part. -/
theorem core_write_spaces
    (s : Scanner)
    {t : Text}
    (ht : t.all isSpace = true) :
    ∃ u : Text,
      u.all isSpace = true ∧ (s.write t).core = u ++ s.core := by
  have hSpaces :
      (t.reverse ++ s.trail.reverse).all isSpace = true := by
    rw [List.all_append, List.all_reverse, List.all_reverse, ht,
      Bool.true_and]
    rw [List.all_eq_true]
    intro c hc
    exact isSpace_of_isBlank
      (List.all_eq_true.mp (all_trail s) c hc)
  refine ⟨(t.reverse ++ s.trail.reverse).dropWhile isBlank,
    ?_, ?_⟩
  · rw [List.all_eq_true] at hSpaces ⊢
    intro c hc
    exact hSpaces c ((List.dropWhile_suffix isBlank).subset hc)
  · rw [← Text.dropWhile_append_of_head? _ (head?_core s),
      List.append_assoc, ← written_eq]
    rfl

/- So is white space behind indentation. -/
theorem core_put_space
    (s : Scanner)
    {c : Char}
    (hc : isSpace c = true) :
    ∃ u : Text,
      u.all isSpace = true ∧ (s.put c).core = u ++ s.core := by
  unfold put
  split
  · apply core_write_spaces
    have hTabs : s.tabs.all isSpace = true := by
      rw [List.all_eq_true]
      intro d hd
      rw [List.eq_of_mem_replicate hd]
      decide
    rw [List.all_append, hTabs]
    simp [hc]
  · exact core_write_spaces s (by simp [hc])

/- White space other than blanks is a plain character. -/
theorem readCode_space
    (s : Scanner)
    {c : Char}
    (rest : Text)
    (hc : isSpace c = true)
    (hInk : isBlank c = false) :
    ∃ parens,
      s.readCode c rest =
        { s with skipping := false, parens := parens }.put c := by
  have hNe {d : Char} (hd : isSpace d = false) : c ≠ d :=
    ne_of_isSpace hc hd
  have hPlain : isPlain c = true := by
    simp [isPlain, isMark, hInk, hNe (d := '"') (by decide),
      hNe (d := '\'') (by decide), hNe (d := '{') (by decide),
      hNe (d := '}') (by decide), hNe (d := ';') (by decide),
      hNe (d := ',') (by decide)]
  have hOperator : isOperator c = false := by
    simp [isOperator, hNe (d := '+') (by decide),
      hNe (d := '-') (by decide), hNe (d := '*') (by decide),
      hNe (d := '/') (by decide)]
  have hClose : c ≠ ')' := hNe (by decide)
  have hTrack : s.trackGroup c = s := by
    rw [trackGroup, if_neg (fun h => hNe (by decide) h.1),
      if_neg hClose]
  rw [readCode_plain s hPlain
    (fun h => hNe (d := '/') (by decide) h.1)
    (fun h => hNe (d := ':') (by decide) h.1), hTrack,
    readPlain]
  split
  · refine ⟨(s.attend.trackCalc c rest).parens, ?_⟩
    rw [readValue]
    simp only [hOperator, hInk, hClose, Bool.false_eq_true,
      and_false, if_false]
    rfl
  · refine ⟨s.parens, ?_⟩
    rw [if_neg (by simp [hInk])]
    rfl

/- One character of white space is written. -/
theorem core_write_space
    (s : Scanner)
    {c : Char}
    (hc : isSpace c = true) :
    ∃ u : Text,
      u.all isSpace = true ∧ (isBlank c = true → u = []) ∧
        (s.write [c]).core = u ++ s.core := by
  cases hBlank : isBlank c with
  | true =>
      have hCalm :=
        calm_write s (t := [c]) (by simp [hBlank])
      refine ⟨[], rfl, fun _ => rfl, ?_⟩
      rw [List.nil_append, ← core_calm, hCalm, core_calm]
  | false =>
      rcases core_write_spaces s (t := [c]) (by simp [hc]) with
        ⟨u, hu, hCore⟩
      exact ⟨u, hu, by simp, hCore⟩

/- White space does not end a value, a comment or a string. -/
theorem step_space
    {s : Scanner}
    {c : Char}
    {rest : Text}
    (hs : Reached s (c :: rest))
    (hc : isSpace c = true) :
    (∃ u : Text,
      u.all isSpace = true ∧ (isBlank c = true → u = []) ∧
        (s.step c rest).core = u ++ s.core) ∧
    (s.step c rest).inValue = s.inValue ∧
    ((s.step c rest).context = .code ↔ s.context = .code) := by
  have hWrite := core_write_space s hc
  cases hContext : s.context with
  | code =>
      cases hInk : isBlank c with
      | true =>
          have hCalm := step_blank_calm rest hContext hInk
          have hSame := context_of_calm hCalm
          refine ⟨⟨[], rfl, fun _ => rfl, ?_⟩, hSame.2, ?_⟩
          · rw [List.nil_append, ← core_calm, hCalm, core_calm]
          · rw [hSame.1, hContext]
      | false =>
          rcases readCode_space s rest hc hInk with
            ⟨parens, hRead⟩
          have hStep :
              s.step c rest =
                { s.readCode c rest with before := some c } := by
            rw [step, read, hContext]
            simp [hInk]
          rw [hStep, hRead]
          rcases core_put_space
              { s with skipping := false, parens := parens } hc
            with ⟨u, hu, hCore⟩
          refine ⟨⟨u, hu, by simp, hCore⟩, ?_, ?_⟩
          · unfold put
            split <;> rfl
          · unfold put
            split <;> simp [write, hContext]
  | opening =>
      rw [step_opening c rest hContext]
      exact ⟨hWrite, rfl, by simp [copied]⟩
  | comment star =>
      have hSlash : c ≠ '/' := ne_of_isSpace hc (by decide)
      rw [step_comment c rest hContext]
      refine ⟨hWrite, rfl, ?_⟩
      simp [copied, hSlash]
  | quoted mark escaped =>
      have hMark : c ≠ mark := by
        rcases hs.mark _ _ hContext with rfl | rfl
        · exact ne_of_isSpace hc (by decide)
        · exact ne_of_isSpace hc (by decide)
      have hSlash : c ≠ '\\' := ne_of_isSpace hc (by decide)
      rw [step_quoted c rest hContext]
      refine ⟨hWrite, rfl, ?_⟩
      simp [copied, afterQuoted, hMark, hSlash]
  | dash =>
      have hDash := hs.dash hContext
      rw [List.head?_cons, Option.some_inj] at hDash
      exact absurd hDash (ne_of_isSpace hc (by decide))

/- Neither does more of it. -/
theorem run_spaces
    {s : Scanner}
    {w : Text}
    (hs : Reached s w)
    (hw : w.all isSpace = true) :
    (∃ u : Text,
      u.all isSpace = true ∧ (w.all isBlank = true → u = []) ∧
        (run s w).core = u ++ s.core) ∧
    (run s w).inValue = s.inValue ∧
    ((run s w).context = .code ↔ s.context = .code) := by
  induction w generalizing s with
  | nil => exact ⟨⟨[], rfl, fun _ => rfl, rfl⟩, rfl, Iff.rfl⟩
  | cons c rest ih =>
      rw [List.all_cons, Bool.and_eq_true] at hw
      rcases step_space hs hw.1 with
        ⟨⟨first, hFirst, hBlank, hCore⟩, hValue, hContext⟩
      rcases ih hs.step hw.2 with
        ⟨⟨more, hMore, hBlanks, hRest⟩, hStill, hSame⟩
      refine ⟨⟨more ++ first, ?_, ?_, ?_⟩, ?_, ?_⟩
      · rw [List.all_append, hMore, hFirst, Bool.and_self]
      · intro hAll
        rw [List.all_cons, Bool.and_eq_true] at hAll
        rw [hBlanks hAll.2, hBlank hAll.1]
        rfl
      · rw [run, hRest, hCore, List.append_assoc]
      · exact hStill.trans hValue
      · exact hSame.trans hContext

end Scanner

end Stylesheet

end WebTidy

------------------------------------------------------------
-- The Last Character
------------------------------------------------------------

namespace WebTidy

namespace Stylesheet

namespace Scanner

/- The last character written that is no blank. -/
theorem final?_eq_find?
    (s : Scanner) :
    s.final? = s.written.find? (!isBlank ·) := by
  exact Text.head?_dropWhile isBlank s.written

/- A character in front of blanks. -/
theorem final?_write
    (s : Scanner)
    (front : Text)
    {c : Char}
    {blanks : Text}
    (hc : isBlank c = false)
    (hBlanks : blanks.all isBlank = true) :
    (s.write (front ++ c :: blanks)).final? = some c := by
  have hNone :
      blanks.reverse.find? (!isBlank ·) = none := by
    rw [List.find?_eq_none]
    intro d hd
    simp [List.all_eq_true.mp hBlanks d
      (List.mem_reverse.mp hd)]
  rw [final?_eq_find?, write, List.reverse_append,
    List.reverse_cons, List.append_assoc, List.append_assoc,
    List.find?_append, hNone, Option.none_or,
    List.singleton_append,
    List.find?_cons_of_pos (by simp [hc])]

/- A character behind its indentation. -/
theorem final?_put
    (s : Scanner)
    {c : Char}
    (hc : isBlank c = false) :
    (s.put c).final? = some c := by
  rw [put]
  split
  · exact final?_write s s.tabs hc rfl
  · exact final?_write s [] hc rfl

/- A semicolon is written unless it is there. -/
theorem final?_terminate
    (s : Scanner) :
    s.terminate.final? = some ';' := by
  rw [final?_eq_find?, terminate]
  split
  · rename_i hLast
    rcases List.head?_eq_some_iff.mp hLast with ⟨rest, hRest⟩
    rw [hRest]
    rfl
  · rfl

/- A close brace is the last character of its block. -/
theorem final?_closeBlock
    (s : Scanner)
    (rest : Text) :
    (s.closeBlock rest).final? = some '}' := by
  have hBrace (t : Scanner) (tail : Text)
      (hTail : tail.all isBlank = true) :
      (t.write ('\n' :: t.tabs ++ '}' :: tail)).final? =
        some '}' :=
    final?_write t ('\n' :: t.tabs) rfl hTail
  unfold closeBlock
  simp only
  split
  · exact hBrace _ [] rfl
  · rw [write_write, List.append_assoc]
    exact hBrace _ ['\n'] rfl

/- A semicolon is the last character of a declaration. -/
theorem final?_endDeclaration
    (s : Scanner) :
    s.endDeclaration.final? = some ';' := by
  have hFinal := final?_terminate s.trimmed
  have hCalm :=
    calm_write s.trimmed.terminate (t := ['\n']) rfl
  have hCore := congrArg core hCalm
  rw [core_calm, core_calm] at hCore
  exact (congrArg List.head? hCore).trans hFinal

/- A colon is written where it is read. -/
theorem final?_readColon
    (s : Scanner)
    (rest : Text) :
    (s.readColon rest).final? = some ':' := by
  unfold readColon
  simp only
  split
  · exact final?_write _ [] rfl rfl
  · exact final?_write
      { s.trimmed with skipping := true } [] rfl
      (rfl : [' '].all isBlank = true)

/- A character of a value is the last one written. -/
theorem final?_readValue
    (s : Scanner)
    {c : Char}
    (rest : Text)
    (hc : isBlank c = false) :
    (s.readValue c rest).final? = some c := by
  unfold readValue
  simp only
  generalize s.trackCalc c rest = t
  split
  · unfold readOperator
    split
    · exact final?_write t [] hc rfl
    · split
      · exact final?_put t hc
      · exact final?_write t.trimmed [' '] hc rfl
  · split
    · rename_i hBlank
      rw [hc] at hBlank
      cases hBlank
    · split
      · exact final?_put t.trimmed hc
      · exact final?_put t hc

/- So is every other character but a blank. -/
theorem final?_step
    (s : Scanner)
    {c : Char}
    (rest : Text)
    (hc : isBlank c = false) :
    (s.step c rest).final? = some c := by
  have hWrite : (s.write [c]).final? = some c :=
    final?_write s [] hc rfl
  unfold step read
  cases s.context with
  | code =>
      simp only
      rw [if_neg (by simp [hc])]
      unfold readCode
      simp only
      generalize { s.trackGroup c with skipping := false } = t
      split
      · rename_i hSlash
        rw [hSlash.1]
        exact final?_write _ [] rfl rfl
      split
      · exact final?_put t hc
      split
      · rename_i hOpen
        rw [hOpen]
        exact final?_write t.trimmed [' '] rfl rfl
      split
      · rename_i hClose
        rw [hClose]
        exact final?_closeBlock t rest
      split
      · rename_i hEnd
        rw [hEnd]
        exact final?_endDeclaration t
      split
      · rename_i hComma
        rw [hComma]
        exact final?_write t.trimmed [] rfl rfl
      split
      · rename_i hColon
        rw [hColon.1]
        exact final?_readColon t rest
      · unfold readPlain
        split
        · exact final?_readValue t rest hc
        · rw [if_neg (by simp [hc])]
          exact final?_put t hc
  | opening => exact hWrite
  | comment star => exact hWrite
  | quoted mark escaped => exact hWrite
  | dash => exact hWrite

/- A semicolon of code ends the value. -/
theorem inValue_step_semicolon
    {s : Scanner}
    {rest : Text}
    (hs : Reached s (';' :: rest))
    (hCode : (s.step ';' rest).context = .code) :
    (s.step ';' rest).inValue = false := by
  cases hContext : s.context with
  | code =>
      rw [step_semicolon rest hContext]
      rfl
  | opening =>
      rw [step_opening _ rest hContext] at hCode
      cases hCode
  | comment star =>
      rw [step_comment _ rest hContext, if_neg (by simp)]
        at hCode
      cases hCode
  | quoted mark escaped =>
      have hMark : ';' ≠ mark := by
        rcases hs.mark _ _ hContext with rfl | rfl <;> decide
      rw [step_quoted _ rest hContext] at hCode
      simp [copied, afterQuoted, hMark] at hCode
  | dash => cases hs.dash hContext

end Scanner

end Stylesheet

end WebTidy

------------------------------------------------------------
-- White Space At The End
------------------------------------------------------------

namespace WebTidy

namespace Stylesheet

section Ahead

variable
  {w : Text}
  (hw : w.all isSpace = true)

include hw

/- White space opens no block. -/
theorem selectorAhead_spaces :
    selectorAhead w = selectorAhead [] := by
  have hNone :
      w.find? (fun c => c = '{' ∨ c = ';' ∨ c = '}') =
        none := by
    rw [List.find?_eq_none]
    intro c hc
    have hSpace := List.all_eq_true.mp hw c hc
    simp [ne_of_isSpace hSpace (d := '{') (by decide),
      ne_of_isSpace hSpace (d := ';') (by decide),
      ne_of_isSpace hSpace (d := '}') (by decide)]
  rw [selectorAhead, hNone]
  rfl

/- White space begins with none of the other characters. -/
theorem head?_spaces_ne
    {d : Char}
    (hd : isSpace d = false) :
    w.head? ≠ some d := by
  intro hHead
  have hSpace :=
    List.all_eq_true.mp hw d (List.mem_of_head? hHead)
  rw [hd] at hSpace
  cases hSpace

/- It begins no name either. -/
theorem isIdentStart_spaces :
    w.head?.any isIdentStart = false := by
  cases w with
  | nil => rfl
  | cons c rest =>
      rw [List.all_cons, Bool.and_eq_true] at hw
      simp [isIdentStart, (isAlpha_of_isSpace hw.1).1,
        ne_of_isSpace hw.1 (d := '-') (by decide),
        ne_of_isSpace hw.1 (d := '_') (by decide)]

/- No mark reaches into white space. -/
theorem beginsWith_append_spaces
    (mark : Text)
    (hMark : (mark.all fun m => !isSpace m.toLower) = true)
    (t : Text) :
    Text.beginsWith mark (t ++ w) = Text.beginsWith mark t := by
  induction mark generalizing t with
  | nil => simp [Text.beginsWith]
  | cons m mark ih =>
      rw [List.all_cons, Bool.and_eq_true] at hMark
      cases t with
      | nil =>
          cases w with
          | nil => rfl
          | cons c rest =>
              rw [List.all_cons, Bool.and_eq_true] at hw
              have hNe : ¬ c.toLower = m.toLower := by
                rw [(isAlpha_of_isSpace hw.1).2]
                exact ne_of_isSpace hw.1 (by simpa using hMark.1)
              rw [List.nil_append, Text.beginsWith_cons,
                decide_eq_false hNe, Bool.false_and]
              rfl
      | cons c rest =>
          rw [List.cons_append, Text.beginsWith_cons,
            Text.beginsWith_cons, ih hMark.2]

namespace Scanner

/- White space behind a character is not looked at. -/
theorem step_append_spaces
    (s : Scanner)
    (c : Char)
    (t : Text)
    (hBlank : c = '}' → t.all isBlank = false) :
    s.step c (t ++ w) = s.step c t := by
  have hHead (p : Char → Bool)
      (hp : w.head?.any p = false) :
      (t ++ w).head?.any p = t.head?.any p := by
    cases t with
    | nil => exact hp
    | cons d rest => rfl
  have hChar (d : Char) (hd : isSpace d = false) :
      (t ++ w).head? = some d ↔ t.head? = some d := by
    cases t with
    | nil =>
        exact iff_of_false (head?_spaces_ne hw hd) (by simp)
    | cons c rest => rfl
  apply step_congr
  · exact hChar '*' (by decide)
  · exact hChar '-' (by decide)
  · exact hHead _ (isIdentStart_spaces hw)
  · have hNil :=
      selectorAhead_append_congr t (selectorAhead_spaces hw)
    rw [List.append_nil] at hNil
    exact hNil
  · intro hBrace
    rw [List.all_append, hBlank hBrace, Bool.false_and]
  · exact beginsWith_append_spaces hw "calc(".toList
      (by decide) (c :: t)

/- Behind a close brace it decides about a line feed only. -/
theorem calm_step_spaces
    (s : Scanner)
    (c : Char) :
    (s.step c w).calm = (s.step c []).calm := by
  by_cases hBrace : c = '}'
  · have hClose (t : Scanner) (u : Text) :
        (t.closeBlock u).calm = (t.closeBlock []).calm := by
      unfold closeBlock
      simp only
      split
      · rfl
      · exact calm_write _ rfl
    subst hBrace
    unfold step read
    cases s.context with
    | code =>
        simp only
        split
        · rfl
        · unfold readCode
          simp only [Char.reduceEq, false_and, or_self,
            if_false, if_true]
          exact hClose _ w
    | _ => rfl
  · have hStep :=
      step_append_spaces hw s c []
        (fun h => absurd h hBrace)
    rw [List.nil_append] at hStep
    rw [hStep]

/- White space behind a text is not looked at. -/
theorem through_append_spaces
    (s : Scanner)
    (front : Text)
    {e : Char}
    (he : isBlank e = false) :
    s.through front (e :: w) = s.through front [e] := by
  induction front generalizing s with
  | nil => rfl
  | cons c front ih =>
      have hStep :
          s.step c (front ++ [e] ++ w) =
            s.step c (front ++ [e]) := by
        apply step_append_spaces hw
        intro _
        simp [he]
      rw [List.append_assoc, List.singleton_append] at hStep
      rw [through, through, hStep, ih]

end Scanner

end Ahead

/- The result depends on the final part and the context. -/
theorem Scanner.result_congr
    {s t : Scanner}
    (hCore : s.core = t.core)
    (hValue : s.inValue = t.inValue)
    (hCode : s.context = .code ↔ t.context = .code) :
    s.result = t.result := by
  have hLacking : s.lacking = t.lacking := by
    rw [lacking, lacking, final?, final?, hCore]
  rw [result_eq, result_eq, hCore, hValue,
    if_congr (and_congr hCode Iff.rfl) hLacking rfl]

/- The semicolon that a value lacks is its last character. -/
theorem Scanner.exists_concat_lacking
    (s : Scanner) :
    ∃ front, s.core.reverse ++ s.lacking = front ++ [';'] := by
  rw [lacking]
  split
  · rename_i hFinal
    rcases List.head?_eq_some_iff.mp hFinal with ⟨deep, hDeep⟩
    exact ⟨deep.reverse, by rw [hDeep]; simp⟩
  · exact ⟨s.core.reverse, rfl⟩

/- A style sheet is laid out by the scanner at its end. -/
theorem prettify_eq_result
    (sheet : Text) :
    prettify sheet = (scannerAt sheet []).result := by
  have hNil := prettify_append sheet []
  rw [List.append_nil] at hNil
  exact hNil

/-
  Blanks at the end of a style sheet do not matter, not even
  in a comment or string without an end.
-/
theorem prettify_append_blanks
    (sheet : Text)
    {blanks : Text}
    (hBlanks : blanks.all isBlank = true) :
    prettify (sheet ++ blanks) = prettify sheet := by
  have hSpaces : blanks.all isSpace = true := by
    rw [List.all_eq_true] at hBlanks ⊢
    exact fun c hc => isSpace_of_isBlank (hBlanks c hc)
  have hAlike : Alike blanks [] := by
    have hBoth :=
      @alike_blanks blanks [] [] hBlanks rfl (fun _ => rfl)
    rw [List.append_nil] at hBoth
    exact hBoth
  have hFront :
      scannerAt sheet blanks = scannerAt sheet [] :=
    Scanner.through_alike hAlike _ _
  rcases Scanner.run_spaces (reached_scannerAt sheet blanks)
    hSpaces with ⟨⟨u, _, hNil, hCore⟩, hValue, hCode⟩
  rw [hNil hBlanks, List.nil_append, hFront] at hCore
  rw [hFront] at hValue hCode
  rw [prettify_append, prettify_eq_result, hFront]
  exact Scanner.result_congr hCore hValue hCode

/- A layout is laid out as it is. -/
theorem prettify_layout
    {sheet layout : Text}
    (h : prettify sheet = layout) :
    prettify layout = layout := by
  rcases exists_laid_prettify sheet with ⟨out, hLaid, hOut⟩
  have hReady := Scanner.ready_new sheet
  have hAgain :=
    (hLaid.laid_again hReady).result_eq (Scanner.ready_new _)
  have hStart :=
    @prettify_start (out.takeWhile isBlank) []
      (out.dropWhile isBlank ++ ['\n'])
      (List.all_takeWhile) rfl
  rw [← List.append_assoc, List.takeWhile_append_dropWhile,
    List.nil_append, ← hOut] at hStart
  rw [← h, ← hStart, hOut]
  exact hAgain

/- Where the scanner is behind a style sheet that ends here. -/
theorem scannerAt_concat_spaces
    (front : Text)
    {e : Char}
    (he : isBlank e = false)
    {w : Text}
    (hw : w.all isSpace = true) :
    ∃ s : Scanner,
      s.Reached (e :: w) ∧
        scannerAt (front ++ [e]) w = s.step e w ∧
        (s.step e w).calm =
          (scannerAt (front ++ [e]) []).calm := by
  refine ⟨scannerAt front (e :: w), reached_scannerAt _ _,
    ?_, ?_⟩
  · exact Scanner.through_append {} front [e] w
  · have hBare :
        scannerAt (front ++ [e]) [] =
          (scannerAt front [e]).step e [] :=
      Scanner.through_append {} front [e] []
    have hFront :
        scannerAt front (e :: w) = scannerAt front [e] :=
      Scanner.through_append_spaces hw _ front he
    rw [hBare, hFront]
    exact Scanner.calm_step_spaces hw _ e

/- The last character in front of white space. -/
theorem concat_eq_of_append_spaces
    {front lead w tail : Text}
    {e c : Char}
    (he : isSpace e = false)
    (hc : isSpace c = false)
    (hw : w.all isSpace = true)
    (hTail : tail.all isSpace = true)
    (h : front ++ [e] ++ w = lead ++ [c] ++ tail) :
    front ++ [e] = lead ++ [c] := by
  have hTrim (text rest : Text) (d : Char)
      (hd : isSpace d = false)
      (hRest : rest.all isSpace = true) :
      Text.trimEnd isSpace (text ++ [d] ++ rest) =
        text ++ [d] :=
    Text.trimEnd_append hRest (by simp [hd])
  rw [← hTrim front w e he hw, h, hTrim lead tail c hc hTail]

/-
  A layout does not end inside a value: it would end with a
  semicolon, which ends the value.
-/
theorem Scanner.not_inValue_of_layout
    {r : Scanner}
    {front w : Text}
    {e : Char}
    (hr : r.Reached (e :: w))
    (he : isSpace e = false)
    (hw : w.all isSpace = true)
    (hLayout :
      (run (r.step e w) w).result = front ++ [e] ++ w) :
    ¬ ((r.step e w).context = .code ∧
      (r.step e w).inValue = true) := by
  rintro ⟨hIn, hStill⟩
  rcases run_spaces hr.step hw with ⟨_, hValue, hCode⟩
  rcases (run (r.step e w) w).exists_concat_lacking with
    ⟨lead, hLead⟩
  have hDrop :
      (lead ++ [';']).dropWhile isBlank =
        lead.dropWhile isBlank ++ [';'] :=
    Text.dropWhile_append_of_head? _ rfl
  rw [result_eq, if_pos ⟨hCode.mpr hIn, hValue.trans hStill⟩,
    hLead, hDrop] at hLayout
  have hSemicolon :=
    concat_eq_of_append_spaces he rfl hw rfl hLayout.symm
  have hEnd : e = ';' :=
    List.singleton_inj.mp (List.append_inj_right' hSemicolon rfl)
  rw [hEnd] at hr hIn hStill
  rw [inValue_step_semicolon hr hIn] at hStill
  cases hStill

/-
  A layout without the white space at its end is laid out
  as it is, and ends with a line feed.
-/
theorem prettify_trimEnd_prettify
    (sheet : Text) :
    prettify ((prettify sheet).trimEnd isSpace) =
      (prettify sheet).trimEnd isSpace ++ ['\n'] := by
  have hAgain := prettify_layout (rfl : prettify sheet = _)
  have hEnds := Text.trimEnd_ends isSpace (prettify sheet)
  rcases Text.exists_trimEnd_append isSpace (prettify sheet)
    with ⟨w, hw, hSplit⟩
  generalize (prettify sheet).trimEnd isSpace = p at *
  rw [hSplit] at hAgain
  rcases List.eq_nil_or_concat p with rfl | ⟨front, e, hp⟩
  · exact prettify_nil
  rw [List.concat_eq_append] at hp
  subst hp
  have hSpace : isSpace e = false := by
    simpa using hEnds
  have he : isBlank e = false := by
    by_contra hBlank
    rw [isSpace_of_isBlank (by simpa using hBlank)] at hSpace
    cases hSpace
  rcases scannerAt_concat_spaces front he hw with
    ⟨r, hr, hs, hCalm⟩
  rw [prettify_append, hs] at hAgain
  rw [prettify_eq_result, ← Scanner.result_of_calm hCalm]
  have hClosed :=
    Scanner.not_inValue_of_layout hr hSpace hw hAgain
  rcases Scanner.run_spaces hr.step hw with
    ⟨⟨u, hu, _, hCore⟩, hValue, hCode⟩
  rcases List.head?_eq_some_iff.mp (r.final?_step w he) with
    ⟨deep, hDeep⟩
  -- the scanner at the end and the one before the white space
  have hResult (t : Scanner) (tail : Text)
      (ht : t.core.reverse = deep.reverse ++ e :: tail)
      (hNot : ¬ (t.context = .code ∧ t.inValue = true)) :
      t.result =
        deep.reverse.dropWhile isBlank ++ e :: tail ++
          ['\n'] := by
    rw [Scanner.result_eq, if_neg hNot, List.append_nil, ht,
      Text.dropWhile_append_of_head? _ (by simp [he])]
  have hLayout :=
    hResult (Scanner.run (r.step e w) w) u.reverse
      (by rw [hCore, hDeep]; simp)
      (by rw [hCode, hValue]; exact hClosed)
  have hFront :=
    @concat_eq_of_append_spaces front
      (deep.reverse.dropWhile isBlank) w (u.reverse ++ ['\n'])
      e e hSpace hSpace hw
      (by rw [List.all_append, List.all_reverse, hu]; rfl)
      (hAgain.symm.trans (hLayout.trans (by simp)))
  rw [hFront]
  exact hResult _ [] (by rw [hDeep]; simp) hClosed

end Stylesheet

end WebTidy
