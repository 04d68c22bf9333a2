import WebTidy.Operation.Octets
import WebTidy.Proofs.Stylesheet.Cursor
import WebTidy.Proofs.Stylesheet.Returns
import WebTidy.Proofs.Text.Octet

/-
  Style sheets read octet by octet.

  Every decision of the scanner is about ASCII characters.
  A character beyond ASCII is copied, and so are its octets,
  one by one.  What the scanner writes for the octets of a
  style sheet are therefore the octets of its layout.

  Key definitions include:
    * `WebTidy.Stylesheet.Scanner.encodedView`
    * `WebTidy.Stylesheet.Scanner.encoded`
    * `WebTidy.Stylesheet.Scanner.copy`

  Key theorems include:
    * `WebTidy.Stylesheet.Scanner.step_encoded`
    * `WebTidy.Stylesheet.Scanner.run_copy`
    * `WebTidy.Stylesheet.Scanner.run_encoded`
    * `WebTidy.Stylesheet.prettify_toUtf8`
    * `WebTidy.Stylesheet.prettifyOctets_eq`
-/

------------------------------------------------------------
-- Looking Ahead
------------------------------------------------------------

namespace WebTidy

namespace Stylesheet

open Octet

/- Names of style sheets are written in ASCII. -/
theorem treatsWide_isIdentStart :
    TreatsWide isIdentStart false := by
  intro c hc
  have hHyphen : c ≠ '-' := ne_of_isWide hc (by decide)
  have hLine : c ≠ '_' := ne_of_isWide hc (by decide)
  have hAlpha : c.isAlpha = false := by
    have hNone := isAlphanum_of_isWide hc
    rw [Char.isAlphanum, Bool.or_eq_false_iff] at hNone
    exact hNone.1
  simp [isIdentStart, hHyphen, hLine, hAlpha]

theorem treatsWide_isIdentChar :
    TreatsWide isIdentChar false := by
  intro c hc
  have hHyphen : c ≠ '-' := ne_of_isWide hc (by decide)
  have hLine : c ≠ '_' := ne_of_isWide hc (by decide)
  simp [isIdentChar, hHyphen, hLine, isAlphanum_of_isWide hc]

/- The structural characters are ASCII characters. -/
theorem selectorAhead_toUtf8
    (rest : Text) :
    selectorAhead (toUtf8 rest) = selectorAhead rest := by
  rw [selectorAhead, selectorAhead, find?_toUtf8]
  apply treatsWide_false
  intro c hc
  rw [decide_eq_true_eq] at hc
  rcases hc with rfl | rfl | rfl <;> rfl

/- A step looks at ASCII characters ahead. -/
theorem Scanner.step_toUtf8
    {c : Char}
    (hc : isWide c = false)
    (s : Scanner)
    (rest : Text) :
    s.step c (toUtf8 rest) = s.step c rest := by
  apply Scanner.step_congr
  · rw [head?_toUtf8, map_eq_some_iff keeps_first (by decide)]
  · rw [head?_toUtf8, map_eq_some_iff keeps_first (by decide)]
  · rw [head?_toUtf8, Option.any_map,
      treatsWide_isIdentStart.comp_eq keeps_first]
  · exact selectorAhead_toUtf8 rest
  · exact fun _ => all_toUtf8 treatsWide_isBlank rest
  · rw [← toUtf8_cons_of_ascii rest hc]
    exact beginsWith_toUtf8 (by decide) _

end Stylesheet

end WebTidy

------------------------------------------------------------
-- Encoded Scanners
------------------------------------------------------------

namespace WebTidy

namespace Stylesheet

namespace Scanner

open Octet

/- The octets of one more character. -/
theorem toUtf8_reverse_cons
    {c : Char}
    (hc : isWide c = false)
    (w : Text) :
    (toUtf8 (c :: w).reverse).reverse =
      c :: (toUtf8 w.reverse).reverse := by
  have hOne : toUtf8 [c] = [c] :=
    toUtf8_of_ascii (by simpa using hc)
  rw [List.reverse_cons, toUtf8_append, hOne,
    List.reverse_append, List.reverse_singleton,
    List.singleton_append]

/- The view that shows the octets of the characters. -/
def encodedView :
    View where
  output := fun w => (toUtf8 w.reverse).reverse
  before := (·.map last)
  last := last
  keeps := keeps_last
  head?_output := by
    intro w
    rw [List.head?_reverse, getLast?_toUtf8,
      List.getLast?_reverse]
  dropWhile_output := dropWhile_reverse_toUtf8 treatsWide_isBlank
  output_cons := fun hc _ => toUtf8_reverse_cons hc _

/- The scanner that has read and written octets instead. -/
def encoded
    (s : Scanner) :
    Scanner :=
  encodedView.of s

variable
  (s : Scanner)

/- The last octet written ends the last character. -/
@[simp] theorem last?_encoded :
    s.encoded.last? = s.last?.map last := by
  exact encodedView.last?_of s

/- Writing a text or its octets. -/
theorem write_toUtf8
    (t : Text) :
    s.encoded.write (toUtf8 t) = (s.write t).encoded := by
  simp [write, encoded, encodedView, View.of]

/- Taking back blanks. -/
theorem trimmed_encoded :
    s.encoded.trimmed = s.trimmed.encoded := by
  exact encodedView.trimmed_of s

/- Every step on an ASCII character. -/
theorem step_encoded
    {c : Char}
    (hc : isWide c = false)
    (rest : Text) :
    s.encoded.step c rest = (s.step c rest).encoded := by
  have hBefore :
      (s.before.map last).any isIdentChar =
        s.before.any isIdentChar := by
    rw [Option.any_map,
      treatsWide_isIdentChar.comp_eq keeps_last]
  have hLast : last c = c := by
    rw [last, encode_of_ascii hc]
    rfl
  have hKeep : (some c).map last = some c := by
    rw [Option.map_some, hLast]
  exact encodedView.step_of s
    (fun w _ => toUtf8_reverse_cons hc w) rest hBefore
    (toUtf8_reverse_cons hc s.written) hKeep

end Scanner

end Stylesheet

end WebTidy

------------------------------------------------------------
-- Characters Beyond ASCII
------------------------------------------------------------

namespace WebTidy

namespace Stylesheet

open Octet

/- The context behind a character beyond ASCII. -/
def Context.copied :
    Context → Context
| .code | .dash => .code
| .opening | .comment _ => .comment false
| .quoted mark _ => .quoted mark false

/-
  A context that copies characters beyond ASCII.  They end
  no string, and only a dash follows a dash.
-/
def Context.Copies :
    Context → Prop
| .dash => False
| .quoted mark _ => isWide mark = false
| _ => True

/- Another such character leaves the context as it is. -/
@[simp] theorem Context.copied_copied
    (context : Context) :
    context.copied.copied = context.copied := by
  cases context with
  | code | opening | comment star => rfl
  | quoted mark escaped | dash => rfl

/- No other context turns to code. -/
theorem Context.Copies.copied_eq_code_iff
    {context : Context}
    (h : context.Copies) :
    context.copied = .code ↔ context = .code := by
  cases context with
  | dash => exact h.elim
  | code => simp [Context.copied]
  | opening => simp [Context.copied]
  | comment star => simp [Context.copied]
  | quoted mark escaped => simp [Context.copied]

/- Behind such a character the context copies the next. -/
theorem Context.Copies.copied
    {context : Context}
    (h : context.Copies) :
    context.copied.Copies := by
  cases context with
  | dash => exact h.elim
  | quoted mark escaped => exact h
  | code | opening | comment star => trivial

namespace Scanner

/- A scanner that has copied a word. -/
def copy
    (s : Scanner)
    (word : Text) :
    Scanner :=
  let lead :=
    if s.context = .code ∧ s.last? = some '\n' then s.tabs
    else []
  { s.write (lead ++ word) with
    before := word.getLast?
    context := s.context.copied
    skipping := s.skipping ∧ s.context ≠ .code }

/- Ahead of a character beyond ASCII it is copied. -/
theorem Reached.copies
    {s : Scanner}
    {c : Char}
    {rest : Text}
    (hc : isWide c = true)
    (h : Reached s (c :: rest)) :
    s.context.Copies := by
  cases hContext : s.context with
  | dash =>
      have hHyphen : some c = some '-' := h.dash hContext
      rw [Option.some_inj] at hHyphen
      rw [hHyphen] at hc
      cases hc
  | quoted mark escaped =>
      rcases h.mark mark escaped hContext with rfl | rfl
      · rfl
      · rfl
  | code | opening | comment star => trivial

/- In code it is no character that the scanner knows. -/
theorem readCode_wide
    {c : Char}
    (hc : isWide c = true)
    (s : Scanner)
    (rest : Text) :
    s.readCode c rest = s.attend.put c := by
  have hNe {d : Char} (hd : isWide d = false) : c ≠ d :=
    ne_of_isWide hc hd
  have hBlank : isBlank c = false := treatsWide_isBlank c hc
  have hPlain : isPlain c = true := by
    simp [isPlain, isMark, hBlank,
      hNe (d := '"') (by decide), hNe (d := '\'') (by decide),
      hNe (d := '{') (by decide), hNe (d := '}') (by decide),
      hNe (d := ';') (by decide), hNe (d := ',') (by decide)]
  have hOpen : c ≠ '(' := hNe (by decide)
  have hClose : c ≠ ')' := hNe (by decide)
  have hSlash : c ≠ '/' := hNe (by decide)
  have hColon : c ≠ ':' := hNe (by decide)
  have hOperator : isOperator c = false := by
    simp [isOperator, hSlash, hNe (d := '+') (by decide),
      hNe (d := '-') (by decide), hNe (d := '*') (by decide)]
  have hLetter : c.toLower ≠ 'c' := by
    rcases toLower_cases c with hSame | ⟨hNot, _⟩
    · rw [hSame]
      exact hNe (by decide)
    · rw [hc] at hNot
      cases hNot
  have hGroup : s.trackGroup c = s := by
    simp [trackGroup, hOpen, hClose]
  rw [readCode_plain s hPlain (by simp [hSlash])
    (by simp [hColon]), hGroup, readPlain]
  split
  · rw [readValue_put hBlank hClose (by simp [hOperator]),
      trackCalc_eq_self _ rest hLetter hOpen hClose]
  · simp [hBlank]

/- The scanner copies it in every such context. -/
theorem step_copy
    {c : Char}
    (hc : isWide c = true)
    {s : Scanner}
    (hs : s.context.Copies)
    (rest : Text) :
    s.step c rest = s.copy [c] := by
  have hNe {d : Char} (hd : isWide d = false) : c ≠ d :=
    ne_of_isWide hc hd
  rw [step, read, copy]
  cases hContext : s.context with
  | code =>
      have hBlank : isBlank c = false :=
        treatsWide_isBlank c hc
      have hPut (t : Scanner) :
          t.put c =
            t.write
              ((if t.last? = some '\n' then t.tabs
                else []) ++ [c]) := by
        unfold put
        split <;> rfl
      simp only [hBlank, readCode_wide hc, hPut]
      simp [write, attend, last?, tabs, hContext,
        Context.copied]
  | opening => simp [write, Context.copied]
  | comment star =>
      have hSlash : c ≠ '/' := hNe (by decide)
      have hStar : c ≠ '*' := hNe (by decide)
      simp [write, Context.copied, hSlash, hStar]
  | quoted mark escaped =>
      rw [hContext] at hs
      have hMark : c ≠ mark := hNe hs
      have hEscape : c ≠ '\\' := hNe (by decide)
      simp [write, Context.copied, afterQuoted, hMark, hEscape]
  | dash =>
      rw [hContext] at hs
      exact hs.elim

/- One character more. -/
theorem copy_copy
    {c : Char}
    (hc : isWide c = true)
    {s : Scanner}
    (hs : s.context.Copies)
    {word : Text}
    (hWord : word ≠ []) :
    (s.copy [c]).copy word = s.copy (c :: word) := by
  have hFeed : c ≠ '\n' := ne_of_isWide hc (by decide)
  have hLast : (s.copy [c]).last? ≠ some '\n' := by
    simp [copy, write, last?, hFeed]
  have hBefore : (c :: word).getLast? = word.getLast? :=
    List.getLast?_cons_of_ne_nil hWord
  rw [copy]
  simp only [hLast, and_false, if_false, List.nil_append]
  simp [copy, write, hBefore, hs.copied_eq_code_iff]

/- So a word of such characters is copied. -/
theorem run_copy
    {c : Char}
    {more : Text}
    (hWord : ∀ d ∈ c :: more, isWide d = true)
    {s : Scanner}
    (hs : s.context.Copies)
    (rest : Text) :
    run s (c :: more ++ rest) =
      run (s.copy (c :: more)) rest := by
  have hc : isWide c = true := hWord c (by simp)
  induction more generalizing c s with
  | nil =>
      rw [List.singleton_append, run, step_copy hc hs]
  | cons d more ih =>
      have hMore : ∀ e ∈ d :: more, isWide e = true :=
        fun e he => hWord e (List.mem_cons_of_mem c he)
      have hNext : (s.copy [c]).context.Copies := hs.copied
      rw [List.cons_append, run, step_copy hc hs,
        ih hMore hNext (hMore d (by simp)),
        copy_copy hc hs (List.cons_ne_nil d more)]

/- Copying a character or its octets. -/
theorem copy_encoded
    (s : Scanner)
    (c : Char) :
    s.encoded.copy (encode c) = (s.copy [c]).encoded := by
  have hOctets : encode c = toUtf8 [c] := by
    rw [toUtf8_cons, toUtf8_nil, List.append_nil]
  have hContext : s.encoded.context = s.context := rfl
  have hSkip : s.encoded.skipping = s.skipping := rfl
  have hTabs : toUtf8 s.encoded.tabs = s.tabs := by
    have hAscii := s.all_tabs (p := fun c => !isWide c) rfl
    apply toUtf8_of_ascii
    rw [List.any_eq_not_all_not, Bool.not_eq_false']
    exact hAscii
  have hWrite (lead : Text) (hLead : toUtf8 lead = lead) :
      s.encoded.write (lead ++ toUtf8 [c]) =
        (s.write (lead ++ [c])).encoded := by
    rw [← write_toUtf8, toUtf8_append, hLead]
  simp only [copy, hOctets, hContext, hSkip, last?_encoded,
    map_eq_some_iff keeps_last (d := '\n') (by decide)]
  rw [hWrite, getLast?_toUtf8]
  · rfl
  · split
    · exact hTabs
    · exact toUtf8_nil

end Scanner

end Stylesheet

end WebTidy

------------------------------------------------------------
-- Style Sheets
------------------------------------------------------------

namespace WebTidy

namespace Stylesheet

open Octet

namespace Scanner

/- Reading the octets of a text, character by character. -/
theorem run_encoded
    {s : Scanner}
    {rest : Text}
    (h : Reached s rest) :
    run s.encoded (toUtf8 rest) = (run s rest).encoded := by
  induction rest generalizing s with
  | nil => rw [toUtf8_nil, run, run]
  | cons c rest ih =>
      rcases encode_cases c with
        ⟨hc, _⟩ | ⟨hc, d, more, hEncode, hOctets⟩
      · rw [toUtf8_cons_of_ascii rest hc, run,
          step_toUtf8 hc, step_encoded s hc, ih h.step, run]
      · have hs : s.context.Copies := h.copies hc
        have hStep := step_copy hc hs rest
        have hNext : Reached (s.copy [c]) rest :=
          hStep ▸ h.step
        have hOctetwise : s.encoded.context.Copies := hs
        rw [toUtf8_cons, hEncode,
          run_copy hOctets hOctetwise, ← hEncode,
          copy_encoded, ih hNext, run, hStep]

/- The output at the end. -/
theorem result_encoded
    (s : Scanner) :
    s.encoded.result = toUtf8 s.result := by
  have hContext :
      s.trimmed.encoded.context = s.trimmed.context := rfl
  have hValue :
      s.trimmed.encoded.inValue = s.trimmed.inValue := rfl
  have hTerminate :
      s.trimmed.encoded.terminate =
        s.trimmed.terminate.encoded :=
    encodedView.terminate_of s.trimmed
  have hFeed : toUtf8 ['\n'] = ['\n'] :=
    toUtf8_of_ascii (by decide)
  have hOutput (t : Scanner) :
      t.encoded.written.reverse.dropWhile isBlank ++ ['\n'] =
        toUtf8
          (t.written.reverse.dropWhile isBlank ++ ['\n']) := by
    have hReverse :
        t.encoded.written.reverse =
          toUtf8 t.written.reverse :=
      List.reverse_reverse _
    rw [toUtf8_append, hFeed, hReverse,
      dropWhile_toUtf8 treatsWide_isBlank]
  simp only [result, trimmed_encoded, hContext, hValue,
    hTerminate]
  split
  · exact hOutput _
  · exact hOutput _

end Scanner

/-
  What is written for the octets of a style sheet are the
  octets of its layout.
-/
theorem prettify_toUtf8
    (sheet : Text) :
    prettify (toUtf8 sheet) = toUtf8 (prettify sheet) := by
  have hNew : Scanner.encoded {} = {} := by
    simp [Scanner.encoded, Scanner.View.of,
      Scanner.encodedView]
  have hRun :=
    Scanner.run_encoded (Scanner.reached_new sheet)
  rw [hNew] at hRun
  rw [prettify, hRun, Scanner.result_encoded, prettify]

/-
  So the layout of octets never fails: nothing is looked up
  outside them, and what is written is a text.
-/
@[simp] theorem prettifyOctets_eq
    (sheet : Text) :
    prettifyOctets sheet = .ok (prettify sheet) := by
  rw [prettifyOctets, Cursor.prettify_eq, ok_bind,
    prettify_toUtf8, ofUtf8?_toUtf8]
  rfl

end Stylesheet

end WebTidy
